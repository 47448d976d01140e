import ApiGraph.Proofs.BundleEndings

/-! What bundling does to references. Every value that is rewritten, the root or a copy, has only local
references, but for those inside other references; and two references that were rewritten have one
pointer just when they name one place of one file. -/
namespace ApiGraph.Bundle
open Json ApiGraph.Tree Location

def placeNamed (base : Option String) (text : String) : Option (String × Location) :=
  (fileNamed base text).map fun f => (f, ofPointer (splitReference text).2)

structure Rewriting.Renames (r : Rewriting) (l : List String) (text pointer : String) : Prop where
  outermost : exposed l r.before = true
  before : (walk? l r.before).bind refOf = some text
  after : (walk? l r.after).bind refOf = some pointer

/- How references come out of a bundling: none is lost, all are local, those that were local in the
root are as they were, and the pointers of the others tell the places that they named. -/
structure Localized (rs : List Rewriting) : Prop where
  kept : ∀ r ∈ rs, ∀ l text, exposed l r.before = true → (walk? l r.before).bind refOf = some text →
    ∃ pointer, r.Renames l text pointer
  locals : ∀ r ∈ rs, ∀ pointer ∈ outer r.after, pointer = "" ∨ pointer.toList.head? = some '#'
  own : ∀ r ∈ rs, ∀ l text pointer, r.Renames l text pointer → placeNamed r.base text = none →
    pointer = text
  faithful : ∀ r ∈ rs, ∀ r' ∈ rs, ∀ l l' text text' pointer pointer' place place',
    r.Renames l text pointer → r'.Renames l' text' pointer' →
      placeNamed r.base text = some place → placeNamed r'.base text' = some place' →
        (pointer = pointer' ↔ place = place')

def given (assigned : List (Key × String)) (base : Option String) (text : String) : String :=
  match sourceOf base text with
  | .ok (some s) => (assigned.lookup s.key).getD text
  | _ => text

section Given
variable {final : List (Key × String)} {base : Option String} {v : Value} {text pointer : String}

theorem renamedGiven (named : refOf v = some text) :
    refOf (renamed final base v) = some (given final base text) := by
  cases v with
  | obj members =>
    simp only [renamed, named, given]
    cases sourceOf base text with
    | error e => exact named
    | ok source =>
      cases source with
      | none => exact named
      | some s => simp [refOf, Value.textAt?, Value.get?, Value.str?]
  | _ => simp [refOf, Value.textAt?, Value.get?] at named

mutual
theorem outerRenamed (final : List (Key × String)) (base : Option String) (v : Value) :
    outer (renamed final base v) = (outer v).map (given final base) := by
  match v with
  | .arr items =>
    rw [renamed, outer, outer, outerItemsRenamed]
  | .obj members =>
    cases named : refOf (.obj members) with
    | some text => rw [outerReference named, outerReference (renamedGiven named), List.map_singleton]
    | none =>
      have plain : refOf (renamed final base (.obj members)) = none := renamedPlain named
      rw [renamedObject named] at plain ⊢
      rw [outer, outer]
      simp only [named, plain]
      exact outerMembersRenamed final base members
  | .null => rfl
  | .bool _ => rfl
  | .num _ => rfl
  | .str _ => rfl
theorem outerItemsRenamed (final : List (Key × String)) (base : Option String) (items : List Value) :
    outerItems (renamedItems final base items) = (outerItems items).map (given final base) := by
  match items with
  | [] => rfl
  | x :: r =>
    rw [renamedItems, outerItems, outerItems, List.map_append, outerRenamed, outerItemsRenamed]
theorem outerMembersRenamed (final : List (Key × String)) (base : Option String) (members : Members) :
    outerMembers (renamedMembers final base members) =
      (outerMembers members).map (given final base) := by
  match members with
  | [] => rfl
  | (k, x) :: r =>
    rw [renamedMembers, outerMembers, outerMembers, List.map_append, outerRenamed,
      outerMembersRenamed]
end

theorem localText (mine : (splitReference text).1 = "") :
    text = "" ∨ text.toList.head? = some '#' := by
  have nothing := congrArg String.toList mine
  simp only [splitReference, String.toList_ofList, String.toList_empty] at nothing
  cases cs : text.toList with
  | nil => exact .inl (String.toList_injective cs)
  | cons c r =>
    rw [cs, List.takeWhile_cons] at nothing
    split at nothing
    · contradiction
    · rename_i hash
      exact .inr (by simpa using hash)

theorem unnamedLocal (mine : fileNamed base text = none) : (splitReference text).1 = "" := by
  unfold fileNamed at mine
  split at mine
  · rename_i _ _ bare
    exact bare
  · contradiction
  · contradiction

theorem sourceNamed {file : String} {place : Location} {source : Option Source}
    (named : placeNamed base text = some (file, place)) (told : sourceOf base text = .ok source) :
    source = some ⟨file, place⟩ := by
  obtain ⟨f, called, same⟩ := Option.map_eq_some_iff.mp named
  cases same
  rw [sourceCases, called] at told
  dsimp only at told
  split at told
  · contradiction
  · exact (Except.ok.inj told).symm

end Given

section Follows
variable {files : Files} {done : List Key} {end_ : Ledger} {r r' : Rewriting} {l l' : List String}
  {text text' pointer pointer' : String}

theorem Rewriting.Follows.kept (follows : r.Follows end_.assigned) (outermost : exposed l r.before = true)
    (before : (walk? l r.before).bind refOf = some text) :
    r.Renames l text (given end_.assigned r.base text) := by
  obtain ⟨v, held, named⟩ := Option.bind_eq_some_iff.mp before
  refine ⟨outermost, before, ?_⟩
  rw [← follows.renames, renamedWalk outermost, held]
  exact renamedGiven named

theorem Rewriting.Follows.told (follows : r.Follows end_.assigned) (renames : r.Renames l text pointer) :
    pointer = given end_.assigned r.base text :=
  Option.some.inj (renames.after.symm.trans (follows.kept renames.outermost renames.before).after)

theorem Rewriting.Follows.own (follows : r.Follows end_.assigned) (renames : r.Renames l text pointer)
    (mine : placeNamed r.base text = none) : pointer = text := by
  have unnamed : fileNamed r.base text = none := by simpa [placeNamed] using mine
  have told : sourceOf r.base text = .ok none := by rw [sourceCases, unnamed]
  rw [follows.told renames, given, told]

theorem Rewriting.Follows.local_ (sound : Sound files done end_) (follows : r.Follows end_.assigned)
    (mem : pointer ∈ outer r.after) : pointer = "" ∨ pointer.toList.head? = some '#' := by
  rw [← follows.renames, outerRenamed] at mem
  obtain ⟨text, old, rfl⟩ := List.mem_map.mp mem
  obtain ⟨source, told, known⟩ := follows.covered text old
  rw [given, told]
  cases source with
  | none =>
    rw [sourceCases] at told
    split at told
    · rename_i mine
      exact localText (unnamedLocal mine)
    · split at told <;> cases told
  | some s =>
    obtain ⟨q, held⟩ := known s rfl
    obtain ⟨⟨_, _, _, written, _, _⟩, _⟩ := sound.slots _ q held
    simp only [held, Option.getD_some, ← written]
    exact .inr (by simp [toPointer])

theorem Rewriting.Follows.assigned (follows : r.Follows end_.assigned)
    (renames : r.Renames l text pointer) {file : String} {place : Location}
    (named : placeNamed r.base text = some (file, place)) :
    place.Spelled ∧ end_.assigned.lookup (Source.key ⟨file, place⟩) = some pointer := by
  obtain ⟨v, held, reference⟩ := Option.bind_eq_some_iff.mp renames.before
  have listed : text ∈ outer r.before := by
    refine outerWalk renames.outermost held ?_
    simp [outerReference reference]
  obtain ⟨source, told, known⟩ := follows.covered text listed
  cases sourceNamed named told
  obtain ⟨q, given_⟩ := known _ rfl
  have same := follows.told renames
  rw [given, told] at same
  simp only [given_, Option.getD_some] at same
  exact ⟨sourceSpelled told, same ▸ given_⟩

theorem followsFaithful (sound : Sound files done end_) (follows : r.Follows end_.assigned)
    (follows' : r'.Follows end_.assigned) (renames : r.Renames l text pointer)
    (renames' : r'.Renames l' text' pointer') {place place' : String × Location}
    (named : placeNamed r.base text = some place) (named' : placeNamed r'.base text' = some place') :
    pointer = pointer' ↔ place = place' := by
  obtain ⟨file, place⟩ := place
  obtain ⟨file', place'⟩ := place'
  obtain ⟨spelled, held⟩ := follows.assigned renames named
  obtain ⟨spelled', held'⟩ := follows'.assigned renames' named'
  constructor
  · rintro rfl
    cases keySource spelled spelled' (sound.apart _ _ _ held held')
    rfl
  · rintro ⟨⟩
    exact Option.some.inj (held.symm.trans held')

end Follows

/- Bundling succeeds just when its turns come to an end, and then every reference has become local,
with one pointer for each place of a file. -/
theorem bundlingLocalizes (root bundle : Value) (externals : List (String × Value)) :
    (internalize root externals = .ok bundle ↔ ∃ rs, Bundles root externals rs bundle) ∧
    ∀ rs, Bundles root externals rs bundle → Localized rs := by
  refine ⟨internalizeIff, fun rs run => ?_⟩
  obtain ⟨done, end_, sound, follows⟩ := bundlesFollow run
  exact {
    kept := fun r mem l text outermost before => ⟨_, (follows r mem).kept outermost before⟩
    locals := fun r mem pointer => (follows r mem).local_ sound
    own := fun r mem l text pointer => (follows r mem).own
    faithful := fun r mem r' mem' _ _ _ _ _ _ _ _ renames renames' named named' =>
      followsFaithful sound (follows r mem) (follows r' mem') renames renames' named named' }

def twinRoot : Value := .obj [
  ("use", reference "parts.yaml#/Id"),
  ("again", reference "./parts.yaml#/Id/"),
  ("other", reference "spare.yaml#/Id"),
  ("own", reference "#/use")]

def twinFiles : List (String × Value) := [
  ("parts.yaml", .obj [("Id", .obj [
    ("next", reference "#/Id"), ("far", reference "./spare.yaml#/Id")])]),
  ("./spare.yaml", .obj [("Id", .obj [("back", reference "parts.yaml#/Id")])])]

theorem twinsLocalized : ∃ bundle rs r,
    internalize twinRoot twinFiles = .ok bundle ∧
    ((Tree.get? ⟨["Id", "next"]⟩ bundle).bind refOf = some "#/Id" ∧
      (Tree.get? ⟨["Id", "far"]⟩ bundle).bind refOf = some "#/Id_1" ∧
      (Tree.get? ⟨["Id_1", "back"]⟩ bundle).bind refOf = some "#/Id") ∧
    Bundles twinRoot twinFiles rs bundle ∧ Localized rs ∧ r ∈ rs ∧
    r.Renames ["use"] "parts.yaml#/Id" "#/Id" ∧ r.Renames ["again"] "./parts.yaml#/Id/" "#/Id" ∧
    r.Renames ["other"] "spare.yaml#/Id" "#/Id_1" ∧ r.Renames ["own"] "#/use" "#/use" := by
  obtain ⟨bundle, done, copied⟩ : ∃ bundle, internalize twinRoot twinFiles = .ok bundle ∧
      (Tree.get? ⟨["Id", "next"]⟩ bundle).bind refOf = some "#/Id" ∧
      (Tree.get? ⟨["Id", "far"]⟩ bundle).bind refOf = some "#/Id_1" ∧
      (Tree.get? ⟨["Id_1", "back"]⟩ bundle).bind refOf = some "#/Id" := by
    decide +kernel
  obtain ⟨start, first, use, again, other, own⟩ : ∃ start,
      remap (Files.ofList twinRoot twinFiles) none ⟨[], [], []⟩ twinRoot = .ok start ∧
      (walk? ["use"] start.1).bind refOf = some "#/Id" ∧
      (walk? ["again"] start.1).bind refOf = some "#/Id" ∧
      (walk? ["other"] start.1).bind refOf = some "#/Id_1" ∧
      (walk? ["own"] start.1).bind refOf = some "#/use" := by
    decide +kernel
  obtain ⟨succeeds, localized⟩ := bundlingLocalizes twinRoot bundle twinFiles
  obtain ⟨rs, run⟩ := succeeds.mp done
  refine ⟨bundle, rs, ⟨none, twinRoot, start.1⟩, done, copied, run, localized rs run, ?_,
    ⟨rfl, rfl, use⟩, ⟨rfl, rfl, again⟩, ⟨rfl, rfl, other⟩, ⟨rfl, rfl, own⟩⟩
  cases run with
  | run first' turns empty =>
    cases first.symm.trans first'
    exact List.mem_cons_self

end ApiGraph.Bundle
