import ApiGraph.Proofs.Copying
import ApiGraph.Proofs.Substitution

/-! What bundling keeps of the meaning of the files. A copy means in the bundle what its source means
among the files, if in the end every slot holds what was put there, if what is read of the root is as
it was but for renamed references, and if a value of the root that serves in place of a source means
what the source means. The first two are so when the copies are apart from one another and from
everything that is read. -/
namespace ApiGraph.Bundle
open Json ApiGraph.Tree Location Meaning Resolve

def fileNamed (base : Option String) (text : String) : Option String :=
  match (splitReference text).1, base with
  | "", none => none
  | "", some b => some b
  | f, _ => some (fileName f)

def Files.reader (files : Files) : Reader (Option String) where
  read base text := match fileNamed base text with
    | none => (lookup files.root text).toOption.map fun v => (none, v)
    | some f => ((files.externals.lookup f).bind
        (Tree.get? (ofPointer (splitReference text).2))).map fun v => (some f, v)

section Reading
variable {files : Files} {base : Option String} {text : String}

theorem sourceCases (base : Option String) (text : String) : sourceOf base text =
    match fileNamed base text with
    | none => .ok none
    | some f => if (ofPointer (splitReference text).2).isRoot then .error (.resolve (.wholeFile text))
      else .ok (some ⟨f, ofPointer (splitReference text).2⟩) := rfl

theorem readLocal (mine : sourceOf base text = .ok none) : files.reader.read base text =
    (lookup files.root text).toOption.map fun v => (none, v) := by
  rw [sourceCases] at mine
  split at mine
  · rename_i named
    simp only [Files.reader, named]
  · split at mine <;> cases mine

theorem localRoot (mine : sourceOf base text = .ok none) : base = none := by
  rw [sourceCases] at mine
  split at mine
  · rename_i named
    cases base with
    | none => rfl
    | some b =>
      unfold fileNamed at named
      split at named <;> simp_all
  · split at mine <;> cases mine

theorem readSource {s : Source} (source : sourceOf base text = .ok (some s)) :
    files.reader.read base text = (files.value s).toOption.map fun v => (some s.file, v) := by
  rw [sourceCases] at source
  split at source
  · cases source
  · rename_i f named
    split at source
    · cases source
    · cases source
      simp only [Files.reader, named, Files.value]
      cases (files.externals.lookup f).bind (Tree.get? (ofPointer (splitReference text).2)) <;> rfl

end Reading

/- A place of the root that is read when the bundle is: an entry of the components, what a local
reference names, or a value that serves in place of a source. -/
inductive Read (root : Value) (final : List (Key × String)) : List String → Prop
  | entry {s n x} (there : Tree.get? ⟨["components", s, n]⟩ root = some x) :
      Read root final ["components", s, n]
  | local_ {text} (mem : text ∈ outer root) (mine : sourceOf none text = .ok none)
      (hash : text.startsWith "#" = true) : Read root final (ofPointer text).segments
  | reused {k q held} (given : final.lookup k = some q)
      (there : Tree.get? (ofPointer q) root = some held) :
      Read root final (ofPointer q).segments

structure Steady (root : Value) (externals : List (String × Value)) : Prop where
  exposed : ∀ l, Read root (assignment root externals) l → exposed l root = true
  reused : ∀ s q v held, s.place.Spelled → (assignment root externals).lookup s.key = some q →
    (Files.ofList root externals).value s = .ok v → Tree.get? (ofPointer q) root = some held →
      refOf held = none ∧
        Means (Files.ofList root externals).reader (Files.ofList root externals).reader
          (some s.file, v) (none, held)

/- The slots of the copies are apart from one another and from what is read of the root, and none is
inside a reference. -/
structure SlotsApart (root : Value) (final : List (Key × String)) : Prop where
  copies : ∀ k q k' q', final.lookup k = some q → final.lookup k' = some q' → q ≠ q' →
    Tree.get? (ofPointer q) root = none → Tree.get? (ofPointer q') root = none →
      Apart root (ofPointer q).segments (ofPointer q').segments
  reads : ∀ k q, final.lookup k = some q → Tree.get? (ofPointer q) root = none →
    ∀ l, Read root final l → Apart root (ofPointer q).segments l
  exposed : ∀ k q, final.lookup k = some q → Tree.get? (ofPointer q) root = none →
    exposed (ofPointer q).segments root = true

structure Intact (root : Value) (externals : List (String × Value)) (bundle : Value) : Prop where
  copies : ∀ s q v, s.place.Spelled → (assignment root externals).lookup s.key = some q →
    (Files.ofList root externals).value s = .ok v → Tree.get? (ofPointer q) root = none →
      Tree.get? (ofPointer q) bundle =
        some (renamed (assignment root externals) (some s.file) v)
  reads : ∀ l, Read root (assignment root externals) l →
    walk? l bundle = (walk? l root).map (renamed (assignment root externals) none)
  references : ∀ l v text, Bundle.exposed l root = true → walk? l root = some v →
    refOf v = some text → walk? l bundle = some (renamed (assignment root externals) none v)

/- Every outermost reference of the root to a value of another file names a value in the bundle that
means the same, and resolves just when its chain among the files ends; and the entries of the
components mean the same. -/
structure Preserved (files : Files) (bundle : Value) : Prop where
  references : ∀ l v text s, exposed l files.root = true → walk? l files.root = some v →
    refOf v = some text → sourceOf none text = .ok (some s) →
      ∃ w v' q y, files.value s = .ok w ∧ walk? l bundle = some v' ∧ refOf v' = some q ∧
        lookup bundle q = .ok y ∧
        Means files.reader (Reader.ofDocument bundle) (some s.file, w) ((), y) ∧
        ((∃ r, resolve bundle v' = .ok r) ↔ ∃ a, files.reader.Leads (some s.file, w) a)
  entries : ∀ s n x, Tree.get? ⟨["components", s, n]⟩ files.root = some x →
    ∃ y, Tree.get? ⟨["components", s, n]⟩ bundle = some y ∧
      Means files.reader (Reader.ofDocument bundle) (none, x) ((), y)

theorem referenceApart {root v : Value} {text : String} {slot l : List String}
    (free : walk? slot root = none) (open_ : exposed slot root = true)
    (there : walk? l root = some v) (named : refOf v = some text) : Apart root slot l := by
  refine ⟨fun around => ?_, fun inside => ?_⟩
  · obtain ⟨x, reads⟩ := positionAround around there
    rw [free] at reads
    cases reads
  · induction l generalizing root slot with
    | nil =>
      cases there
      cases slot with
      | nil => cases free
      | cons => simp [exposed, named] at open_
    | cons s r ih =>
      obtain ⟨z, step, rest⟩ := Option.bind_eq_some_iff.mp there
      cases slot with
      | nil => cases free
      | cons s' r' =>
        rw [positionCons, positionCons, List.cons_prefix_cons] at inside
        have same := headStep inside.1
        rw [← same, step] at inside
        rw [walk?, ← same, step] at free
        rw [exposed, ← same, step, Bool.and_eq_true] at open_
        exact ih free open_.2 rest inside.2

section Run
variable {root bundle : Value} {externals : List (String × Value)}

theorem internalizeMade (done : internalize root externals = .ok bundle) :
    ∃ ps, Made (Files.ofList root externals) (assignment root externals) ps bundle := by
  obtain ⟨end_, run⟩ := internalizeIffBundled.mp done
  rw [assignment, run]
  exact bundledMade run

theorem intactApart (done : internalize root externals = .ok bundle) (steady : Steady root externals)
    (apart : SlotsApart root (assignment root externals)) : Intact root externals bundle := by
  obtain ⟨ps, made⟩ := internalizeMade done
  have place : ∀ p ∈ ps, ofPointer p.target.toPointer = p.target := fun p mem =>
    pointerRoundTrip (made.copied p mem).readable
  have free : ∀ p ∈ ps, Tree.get? (ofPointer p.target.toPointer) root = none := fun p mem => by
    rw [place p mem]
    exact (made.copied p mem).free
  have pairs : ps.Pairwise fun p p' => Apart root p.target.segments p'.target.segments := by
    refine (List.pairwise_map.mp made.once).imp_of_mem fun {p p'} mem mem' other => ?_
    have first := made.copied p mem
    have second := made.copied p' mem'
    rw [← place p mem, ← place p' mem']
    refine apart.copies _ _ _ _ first.assigned second.assigned (fun same => other ?_) (free p mem)
      (free p' mem')
    exact made.apart _ _ _ first.assigned (same ▸ second.assigned)
  refine ⟨fun s q v spelled given value absent => ?_, fun l read => ?_,
    fun l v text open_ there named => ?_⟩
  · obtain ⟨p, mem, same⟩ := made.each _ _ given absent
    have copied := made.copied p mem
    cases keySource copied.spelled spelled same
    cases given.symm.trans copied.assigned
    rw [place p mem]
    exact made.stands pairs p mem v value
  · rw [made.left pairs l fun p mem => ?_]
    · exact renamedWalk (steady.exposed l read)
    · have copied := made.copied p mem
      rw [← place p mem]
      exact apart.reads _ _ copied.assigned (free p mem) l read
  · rw [made.left pairs l fun p mem => ?_]
    · exact (renamedWalk open_).trans (by rw [show walk? l root = some v from there]; rfl)
    · have copied := made.copied p mem
      rw [← place p mem]
      exact referenceApart (free p mem) (apart.exposed _ _ copied.assigned (free p mem)) there named

def Inside (root : Value) (final : List (Key × String)) : Option String → Value → Prop
  | none, x => outer x ⊆ outer root
  | some f, x => Covered final (some f) (outer x)

theorem outerPart {x y : Value} (plain : refOf x = none) (part : Value.PartOf y x) :
    outer y ⊆ outer x := by
  cases part with
  | item mem => exact outerItem mem
  | member held =>
    rw [outer]
    simp only [plain]
    exact outerMember (Entries.mem_of_lookup held)

theorem Inside.part {final : List (Key × String)} {base : Option String} {x y : Value}
    (inside : Inside root final base x) (plain : refOf x = none) (part : Value.PartOf y x) :
    Inside root final base y := by
  have fewer := outerPart plain part
  cases base with
  | none => exact List.Subset.trans fewer inside
  | some f => exact fun text mem => inside text (fewer mem)

theorem renamedLayer {final : List (Key × String)} {base : Option String} {x : Value}
    (plain : refOf x = none) :
    Layer (fun a b => a.1 = base ∧ b = ((), renamed final base a.2) ∧ Value.PartOf a.2 x) base ()
      x (renamed final base x) := by
  cases x with
  | arr items =>
    rw [renamed, renamedItemsMap]
    refine .items (List.forall₂_map_right_iff.mpr (List.forall₂_same.mpr fun x mem => ?_))
    exact ⟨rfl, rfl, .item mem⟩
  | obj members =>
    rw [renamedObject plain]
    refine .members fun key => ?_
    rw [renamedLookup]
    cases held : members.lookup key with
    | none => exact .none
    | some x => exact .some ⟨rfl, rfl, .member held⟩
  | num n => exact .leaf rfl rfl (numeralSameRefl n)
  | _ => exact .leaf rfl rfl (by simp [renamed, Value.same])

section Kept
variable {ps : List Placement} {n : Nat}
  (made : Made (Files.ofList root externals) (assignment root externals) ps bundle)
  (steady : Steady root externals) (intact : Intact root externals bundle)

inductive Followed (root : Value) (externals : List (String × Value)) (bundle : Value)
    (base : Option String) (x : Value) : Prop
  | plain (plain : refOf x = none)
  | nowhere {text} (named : refOf x = some text)
      (named' : refOf (renamed (assignment root externals) base x) = some text)
      (missing : (Files.ofList root externals).reader.read base text = none)
      (missing' : ∀ y, lookup bundle text ≠ .ok y)
  | renames {text q k w} (named : refOf x = some text)
      (named' : refOf (renamed (assignment root externals) base x) = some q)
      (read : (Files.ofList root externals).reader.read base text = some (k, w))
      (read' : lookup bundle q = .ok (renamed (assignment root externals) k w))
      (inside : Inside root (assignment root externals) k w)
  | reuses {text q k w held} (named : refOf x = some text)
      (named' : refOf (renamed (assignment root externals) base x) = some q)
      (read : (Files.ofList root externals).reader.read base text = some (k, w))
      (read' : lookup bundle q = .ok (renamed (assignment root externals) none held))
      (inside : Inside root (assignment root externals) none held) (bare : refOf held = none)
      (means : Means (Files.ofList root externals).reader (Files.ofList root externals).reader
        (k, w) (none, held))

include made in
theorem Inside.covered {base : Option String} {x : Value}
    (inside : Inside root (assignment root externals) base x) :
    Covered (assignment root externals) base (outer x) := by
  cases base with
  | none => exact fun text mem => made.covered text (inside mem)
  | some f => exact inside

include made in
theorem assignedValue {base : Option String} {text q : String} {s : Source}
    (told : sourceOf base text = .ok (some s))
    (given : (assignment root externals).lookup s.key = some q) :
    ∃ w, (Files.ofList root externals).value s = .ok w ∧ q.startsWith "#" = true := by
  obtain @⟨origin, w, target, same, spelled, value, pointer, _, _⟩ := made.slots _ _ given
  cases keySource spelled (sourceSpelled told) same
  exact ⟨w, value, by rw [← pointer]; simp [toPointer]⟩

include steady intact in
theorem followedLocal {x : Value} {text : String} (inside : outer x ⊆ outer root)
    (named : refOf x = some text) (told : sourceOf none text = .ok none) :
    Followed root externals bundle none x := by
  have listed : text ∈ outer x := by rw [outerReference named]; exact List.mem_singleton.mpr rfl
  have named' : refOf (renamed (assignment root externals) none x) = some text := by
    rw [renamedLocal named told, named]
  by_cases hash : text.startsWith "#" = true
  · have read : Read root (assignment root externals) (ofPointer text).segments :=
      .local_ (inside listed) told hash
    have stays := intact.reads _ read
    cases there : walk? (ofPointer text).segments root with
    | none =>
      rw [there] at stays
      refine .nowhere named named' ?_ fun y found => ?_
      · have missing : Tree.get? (ofPointer text) root = none := there
        rw [readLocal told, lookup]
        simp [Files.ofList, hash, missing, Except.toOption]
      · cases stays.symm.trans (lookupIff.mp found).2
    | some w =>
      rw [there] at stays
      refine .renames (k := none) (w := w) named named' ?_ (lookupIff.mpr ⟨hash, stays⟩)
        (outerWalk (steady.exposed _ read) there)
      have found : lookup root text = .ok w := lookupIff.mpr ⟨hash, there⟩
      rw [readLocal told]
      simp [Files.ofList, found, Except.toOption]
  · refine .nowhere named named' ?_ fun y found => hash (lookupIff.mp found).1
    rw [readLocal told, lookup]
    simp [hash, Except.toOption]

include made steady intact in
theorem followedSource {base : Option String} {x : Value} {text q : String} {s : Source}
    (named : refOf x = some text) (told : sourceOf base text = .ok (some s))
    (given : (assignment root externals).lookup s.key = some q) :
    Followed root externals bundle base x := by
  have named' := renamedSource named told given
  have spelled := sourceSpelled told
  obtain ⟨w, value, hash⟩ := assignedValue made told given
  have read : (Files.ofList root externals).reader.read base text = some (some s.file, w) := by
    rw [readSource told, value]
    rfl
  cases there : Tree.get? (ofPointer q) root with
  | none =>
    have stands := intact.copies s q w spelled given value there
    obtain ⟨p, mem, key⟩ := made.each _ _ given there
    have copied := made.copied p mem
    cases keySource copied.spelled spelled key
    exact .renames named named' read (lookupIff.mpr ⟨hash, stands⟩) (copied.covered w value)
  | some held =>
    have reads : Read root (assignment root externals) (ofPointer q).segments :=
      .reused given there
    have found : walk? (ofPointer q).segments root = some held := there
    have stays := intact.reads _ reads
    rw [found] at stays
    obtain ⟨bare, means⟩ := steady.reused s q w held spelled given value there
    exact .reuses named named' read (lookupIff.mpr ⟨hash, stays⟩)
      (outerWalk (steady.exposed _ reads) found) bare means

include made steady intact in
theorem followed {base : Option String} {x : Value}
    (inside : Inside root (assignment root externals) base x) :
    Followed root externals bundle base x := by
  cases named : refOf x with
  | none => exact .plain named
  | some text =>
    have listed : text ∈ outer x := by rw [outerReference named]; exact List.mem_singleton.mpr rfl
    obtain ⟨source, told, known⟩ := inside.covered made text listed
    cases source with
    | none =>
      obtain rfl := localRoot told
      exact followedLocal steady intact inside named told
    | some s =>
      obtain ⟨q, given⟩ := known s rfl
      exact followedSource made steady intact named told given

include made steady intact in
theorem chainBack {base : Option String} {x : Value}
    (inside : Inside root (assignment root externals) base x) {b : Unit × Value}
    (leads : (Reader.ofDocument bundle).Leads ((), renamed (assignment root externals) base x) b) :
    ∃ a, (Files.ofList root externals).reader.Leads (base, x) a := by
  generalize whole : (((), renamed (assignment root externals) base x) : Unit × Value) = y at leads
  induction leads generalizing base x with
  | @here k y plain =>
    cases whole
    cases named : refOf x with
    | none => exact ⟨_, .here named⟩
    | some text =>
      rcases followed made steady intact inside with
        bare | ⟨_, named', _⟩ | ⟨_, named', _⟩ | ⟨_, named', _⟩
      · simp [bare] at named
      all_goals simp [plain] at named'
  | @step k y q z b named' read' rest ih =>
    cases whole
    have found := readDocument.mp read'
    rcases followed made steady intact inside with
      bare | ⟨_, again, _, missing⟩ | ⟨named, again, read, found', inside'⟩ |
        ⟨named, again, read, found', inside', bare, means⟩
    · exact ⟨_, .here bare⟩
    · cases named'.symm.trans again
      exact absurd found (missing _)
    · cases named'.symm.trans again
      have same := Except.ok.inj (found'.symm.trans found)
      obtain ⟨a, leads⟩ := ih inside' (Prod.ext rfl same)
      exact ⟨a, .step named read leads⟩
    · obtain ⟨a, leads⟩ := means.ends.mpr ⟨_, .here bare⟩
      exact ⟨a, .step named read leads⟩

include made steady intact in
theorem chainForth (alike : ∀ base x, Inside root (assignment root externals) base x →
      Alike (Files.ofList root externals).reader (Reader.ofDocument bundle) n (base, x)
        ((), renamed (assignment root externals) base x))
    {base : Option String} {x : Value} (inside : Inside root (assignment root externals) base x)
    {a : Option String × Value} (leads : (Files.ofList root externals).reader.Leads (base, x) a) :
    ∃ b, (Reader.ofDocument bundle).Leads ((), renamed (assignment root externals) base x) b ∧
      Layer (Alike (Files.ofList root externals).reader (Reader.ofDocument bundle) n)
        a.1 b.1 a.2 b.2 := by
  -- a value that is no reference and its renamed parts
  have parts : ∀ {base x}, Inside root (assignment root externals) base x → refOf x = none →
      Layer (Alike (Files.ofList root externals).reader (Reader.ofDocument bundle) n) base () x
        (renamed (assignment root externals) base x) := by
    intro base x inside plain
    refine (renamedLayer plain).mono ?_
    rintro ⟨_, u⟩ _ ⟨rfl, rfl, part⟩
    exact alike _ u (inside.part plain part)
  generalize whole : ((base, x) : Option String × Value) = z at leads
  induction leads generalizing base x with
  | @here k x plain =>
    cases whole
    exact ⟨_, .here (renamedPlain plain), parts inside plain⟩
  | @step k x text z a named read rest ih =>
    cases whole
    rcases followed made steady intact inside with
      bare | ⟨again, _, missing, _⟩ | ⟨again, named', read', found, inside'⟩ |
        ⟨again, named', read', found, inside', bare, means⟩
    · simp [bare] at named
    · cases named.symm.trans again
      rw [missing] at read
      cases read
    · cases named.symm.trans again
      cases read.symm.trans read'
      obtain ⟨b, leads, layer⟩ := ih inside' rfl
      exact ⟨b, .step named' (readDocument.mpr found) leads, layer⟩
    · cases named.symm.trans again
      cases read.symm.trans read'
      refine ⟨((), renamed (assignment root externals) none _),
        .step named' (readDocument.mpr found) (.here (renamedPlain bare)), ?_⟩
      rcases means (n + 1) with ⟨a', b', leads, leads', layer⟩ | ⟨never, _⟩
      · cases leads.unique rest
        cases leads'.unique (.here bare)
        refine (layer.trans (parts inside' bare)).mono ?_
        rintro u w ⟨v, first, second⟩
        exact first.trans second
      · exact absurd rest (never a)

include made steady intact in
/- What was followed means in the bundle what it means among the files. -/
theorem renamedMeans {base : Option String} {x : Value}
    (inside : Inside root (assignment root externals) base x) :
    Means (Files.ofList root externals).reader (Reader.ofDocument bundle) (base, x)
      ((), renamed (assignment root externals) base x) := by
  intro n
  induction n generalizing base x with
  | zero => trivial
  | succ n ih =>
    by_cases ends : ∃ a, (Files.ofList root externals).reader.Leads (base, x) a
    · obtain ⟨a, leads⟩ := ends
      obtain ⟨b, leads', layer⟩ := chainForth made steady intact (fun _ _ => ih) inside leads
      exact .inl ⟨a, b, leads, leads', layer⟩
    · refine .inr ⟨not_exists.mp ends, fun b leads => ends ?_⟩
      exact chainBack made steady intact inside leads

include made in
theorem sourceFound {l : List String} {v : Value} {text : String} {s : Source}
    (outermost : exposed l root = true) (there : walk? l root = some v) (named : refOf v = some text)
    (source : sourceOf none text = .ok (some s)) :
    ∃ w, (Files.ofList root externals).value s = .ok w := by
  have listed : text ∈ outer root := by
    refine outerWalk outermost there ?_
    rw [outerReference named]
    exact List.mem_singleton.mpr rfl
  obtain ⟨told, again, known⟩ := made.covered text listed
  cases source.symm.trans again
  obtain ⟨q, given⟩ := known s rfl
  obtain ⟨w, value, _⟩ := assignedValue made source given
  exact ⟨w, value⟩

include made steady intact in
theorem reached {base : Option String} {x : Value} {text : String} {z : Option String × Value}
    (inside : Inside root (assignment root externals) base x) (named : refOf x = some text)
    (read : (Files.ofList root externals).reader.read base text = some z) :
    ∃ q y, refOf (renamed (assignment root externals) base x) = some q ∧ lookup bundle q = .ok y ∧
      Means (Files.ofList root externals).reader (Reader.ofDocument bundle) z ((), y) := by
  rcases followed made steady intact inside with
    bare | ⟨again, _, missing, _⟩ | ⟨again, named', read', found, inside'⟩ |
      ⟨again, named', read', found, inside', bare, means⟩
  · simp [bare] at named
  all_goals cases named.symm.trans again
  · rw [missing] at read
    cases read
  · cases read.symm.trans read'
    exact ⟨_, _, named', found, renamedMeans made steady intact inside'⟩
  · cases read.symm.trans read'
    exact ⟨_, _, named', found, means.trans (renamedMeans made steady intact inside')⟩

end Kept

/- Bundling keeps the meaning if values of the root that serve in place of sources mean what these
mean, and every slot holds in the end what was put there; the latter is so when the slots are apart
from one another and from what is read. -/
theorem bundlingPreserves (done : internalize root externals = .ok bundle)
    (steady : Steady root externals) :
    (Intact root externals bundle → Preserved (Files.ofList root externals) bundle) ∧
      (SlotsApart root (assignment root externals) → Intact root externals bundle) := by
  refine ⟨fun intact => ?_, intactApart done steady⟩
  obtain ⟨ps, made⟩ := internalizeMade done
  refine ⟨fun l v text s outermost there named source => ?_, fun s n x there => ?_⟩
  · have stays := intact.references l v text outermost there named
    have inside : Inside root (assignment root externals) none v := outerWalk outermost there
    obtain ⟨w, value⟩ := sourceFound made outermost there named source
    have read : (Files.ofList root externals).reader.read none text = some (some s.file, w) := by
      rw [readSource source, value]
      rfl
    obtain ⟨q, y, named', found, means⟩ := reached made steady intact inside named read
    have chain := (renamedMeans made steady intact inside).ends
    refine ⟨w, _, q, y, value, stays, named', found, means, fun ⟨r, resolved⟩ => ?_,
      fun ⟨a, leads⟩ => ?_⟩
    · obtain ⟨a, leads⟩ := chain.mpr ⟨_, resolves.mp ⟨r, resolved, rfl⟩⟩
      obtain ⟨z, again, rest⟩ := leads.next named
      cases read.symm.trans again
      exact ⟨a, rest⟩
    · obtain ⟨⟨_, b⟩, leads'⟩ := chain.mp ⟨a, .step named read leads⟩
      obtain ⟨r, resolved, _⟩ := resolves.mpr leads'
      exact ⟨r, resolved⟩
  · have read : Read root (assignment root externals) ["components", s, n] := .entry there
    have place : walk? ["components", s, n] root = some x := there
    have stays := intact.reads _ read
    rw [place] at stays
    exact ⟨_, stays, renamedMeans made steady intact (outerWalk (steady.exposed _ read) place)⟩

end Run

def shopRoot : Value := .obj [
  ("components", .obj [("schemas", .obj [("Id", .obj [("type", .str "string")])])]),
  ("x-pet", reference "common.yaml#/components/schemas/Pet"),
  ("x-id", reference "common.yaml#/components/schemas/Id")]

def shopFiles : List (String × Value) := [("common.yaml", .obj [
  ("components", .obj [("schemas", .obj [
    ("Pet", .obj [("properties", .obj [("id", reference "#/components/schemas/Id")])]),
    ("Id", .obj [("type", .str "string")])])])])]

def schemaPointer (name : String) : String := (Location.mk ["components", "schemas", name]).toPointer

theorem shopAssigned : assignment shopRoot shopFiles =
    [(⟨"common.yaml", schemaPointer "Pet"⟩, schemaPointer "Pet"),
      (⟨"common.yaml", schemaPointer "Id"⟩, schemaPointer "Id")] := by decide +kernel

theorem shopGiven {k : Key} {q : String} (given : (assignment shopRoot shopFiles).lookup k = some q) :
    ∃ name ∈ ["Pet", "Id"], k = ⟨"common.yaml", schemaPointer name⟩ ∧ q = schemaPointer name := by
  have mem := Entries.mem_of_lookup given
  rw [shopAssigned] at mem
  simp only [List.mem_cons, Prod.mk.injEq, List.not_mem_nil, or_false] at mem
  rcases mem with ⟨rfl, rfl⟩ | ⟨rfl, rfl⟩
  · exact ⟨"Pet", by simp, rfl, rfl⟩
  · exact ⟨"Id", by simp, rfl, rfl⟩

theorem petPlace : ofPointer (schemaPointer "Pet") = ⟨["components", "schemas", "Pet"]⟩ := by
  decide +kernel

theorem idPlace : ofPointer (schemaPointer "Id") = ⟨["components", "schemas", "Id"]⟩ := by
  decide +kernel

theorem shopOuter : outer shopRoot =
    ["common.yaml#/components/schemas/Pet", "common.yaml#/components/schemas/Id"] := by
  decide +kernel

theorem shopRead {l : List String} (read : Read shopRoot (assignment shopRoot shopFiles) l) :
    ∃ s n x, l = ["components", s, n] ∧ walk? l shopRoot = some x := by
  cases read with
  | @entry s n x there => exact ⟨s, n, x, rfl, there⟩
  | @local_ text mem mine =>
    rw [shopOuter] at mem
    simp only [List.mem_cons, List.not_mem_nil, or_false] at mem
    rcases mem with rfl | rfl <;> cases mine
  | @reused k q held given there =>
    obtain ⟨name, mem, rfl, rfl⟩ := shopGiven given
    simp only [List.mem_cons, List.not_mem_nil, or_false] at mem
    rcases mem with rfl | rfl
    · rw [petPlace] at there
      cases there
    · exact ⟨"schemas", "Id", held, by rw [idPlace], there⟩

theorem shopFree {k : Key} {q : String} (given : (assignment shopRoot shopFiles).lookup k = some q)
    (free : Tree.get? (ofPointer q) shopRoot = none) : q = schemaPointer "Pet" := by
  obtain ⟨name, mem, rfl, rfl⟩ := shopGiven given
  simp only [List.mem_cons, List.not_mem_nil, or_false] at mem
  rcases mem with rfl | rfl
  · rfl
  · rw [idPlace] at free
    cases free

theorem shopSteady : Steady shopRoot shopFiles := by
  refine ⟨fun l read => ?_, fun s q v held spelled given value there => ?_⟩
  · obtain ⟨s, n, x, rfl, there⟩ := shopRead read
    have comes : s = "schemas" := by
      by_contra other
      simp [shopRoot, walk?, step?, List.lookup_cons, beq_false_of_ne other] at there
    subst comes
    have inner : exposed ["components", "schemas", n] shopRoot =
        (step? (.obj [("Id", .obj [("type", .str "string")])]) n).all fun _ => true := rfl
    rw [inner]
    exact Option.all_true
  · obtain ⟨name, mem, same, rfl⟩ := shopGiven given
    simp only [List.mem_cons, List.not_mem_nil, or_false] at mem
    rcases mem with rfl | rfl
    · rw [petPlace] at there
      cases there
    · rw [idPlace] at there
      cases there
      have known : Source.key ⟨"common.yaml", ⟨["components", "schemas", "Id"]⟩⟩ = s.key := same.symm
      cases keySource (idPlace ▸ ofPointerSpelled _) spelled known
      cases value
      exact ⟨rfl, Means.closed rfl _ _⟩

theorem shopApart : SlotsApart shopRoot (assignment shopRoot shopFiles) := by
  refine ⟨fun k q k' q' given given' other free free' => ?_, fun k q given free l read => ?_,
    fun k q given free => ?_⟩
  · exact absurd ((shopFree given free).trans (shopFree given' free').symm) other
  · obtain ⟨s, n, x, rfl, there⟩ := shopRead read
    obtain rfl := shopFree given free
    rw [petPlace]
    have placed : position shopRoot ["components", "schemas", "Pet"] =
        ["components", "schemas", "Pet"].map .key := rfl
    have other : ["components", "schemas", "Pet"] ≠ ["components", s, n] := by
      rintro same
      cases same
      cases there
    refine ⟨fun inside => ?_, fun inside => ?_⟩
    · rw [placed] at inside
      exact other ((keysInside inside).eq_of_length rfl)
    · rw [placed] at inside
      exact other ((keysAround inside).eq_of_length rfl).symm
  · obtain rfl := shopFree given free
    rw [petPlace]
    rfl

theorem shopPreserved : ∃ bundle, internalize shopRoot shopFiles = .ok bundle ∧
    Steady shopRoot shopFiles ∧ SlotsApart shopRoot (assignment shopRoot shopFiles) ∧
      Preserved (Files.ofList shopRoot shopFiles) bundle := by
  have some_ : (internalize shopRoot shopFiles).toOption.isSome = true := by decide +kernel
  cases done : internalize shopRoot shopFiles with
  | error e =>
    rw [done] at some_
    cases some_
  | ok bundle =>
    have kept := bundlingPreserves done shopSteady
    exact ⟨bundle, rfl, shopSteady, shopApart, kept.1 (kept.2 shopApart)⟩

def petsMembers (kind : String) : Members := [("components", .obj [("schemas", .obj [
  ("Pets", .obj [("type", .str "array"), ("items", reference "#/components/schemas/Pet")]),
  ("Pet", .obj [("type", .str kind)])])])]

def petsRoot : Value :=
  .obj (petsMembers "string" ++ [("x-use", reference "common.yaml#/components/schemas/Pets")])

def petsFiles : List (String × Value) := [("common.yaml", .obj (petsMembers "integer"))]

def petsBundle : Value :=
  .obj (petsMembers "string" ++ [("x-use", reference "#/components/schemas/Pets")])

theorem petsChange : internalize petsRoot petsFiles = .ok petsBundle ∧
    ¬ Preserved (Files.ofList petsRoot petsFiles) petsBundle := by
  refine ⟨rfl, fun kept => ?_⟩
  have list : ofPointer "#/components/schemas/Pets" = ⟨["components", "schemas", "Pets"]⟩ := by
    decide +kernel
  have item : ofPointer "#/components/schemas/Pet" = ⟨["components", "schemas", "Pet"]⟩ := by
    decide +kernel
  have mine : lookup petsBundle "#/components/schemas/Pet" = .ok (.obj [("type", .str "string")]) :=
    lookupIff.mpr ⟨by decide +kernel, by rw [item]; rfl⟩
  have theirs : (Files.ofList petsRoot petsFiles).reader.read (some "common.yaml")
      "#/components/schemas/Pet" = some (some "common.yaml", .obj [("type", .str "integer")]) := by
    rw [readSource (s := ⟨"common.yaml", ⟨["components", "schemas", "Pet"]⟩⟩) rfl]
    rfl
  obtain ⟨w, v', q, y, value, there, named, found, means, _⟩ := kept.references ["x-use"] _ _
    ⟨"common.yaml", ⟨["components", "schemas", "Pets"]⟩⟩ rfl rfl rfl rfl
  cases value
  cases there
  cases named
  obtain ⟨_, at_⟩ := lookupIff.mp found
  rw [list] at at_
  cases at_
  -- the items, and their types
  obtain ⟨b, items, leads, held, means⟩ := means.member "items" (.here rfl) rfl
  cases leads.unique (.here rfl)
  cases held
  obtain ⟨b, kind, leads, held, means⟩ := means.member "type"
    (.step rfl theirs (.here rfl)) rfl
  have ends : (Reader.ofDocument petsBundle).Leads ((), reference "#/components/schemas/Pet")
      ((), .obj [("type", .str "string")]) := .step rfl (readDocument.mpr mine) (.here rfl)
  obtain rfl := leads.unique ends
  cases held
  rcases means 1 with ⟨_, _, leads, leads', parts⟩ | ⟨never, _⟩
  · cases leads.unique (.here rfl)
    cases leads'.unique (.here rfl)
    cases parts with
    | leaf _ _ same => simp [Value.same] at same
  · exact never _ (.here rfl)

end ApiGraph.Bundle
