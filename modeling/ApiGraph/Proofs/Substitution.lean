import ApiGraph.Proofs.Meaning
import ApiGraph.Proofs.Writes

/-! When a write keeps what a document means: when it is apart from every place that is read, and
when it puts a reference in place of a value that the reference leads to. In the second case a value
before and one after are related when they are equal but for that place. -/
namespace ApiGraph.Json.Value

inductive PartOf (x : Value) : Value → Prop
  | item {xs} (mem : x ∈ xs) : PartOf x (.arr xs)
  | member {key} {es : Members} (held : es.lookup key = some x) : PartOf x (.obj es)

theorem PartOf.pointers {x v : Value} (part : PartOf x v) : x.pointers ⊆ v.pointers := by
  cases part with
  | item mem => exact pointersOfItem mem
  | member held => exact pointersOfMember (Entries.mem_of_lookup held)

theorem PartOf.lawful {x v : Value} (part : PartOf x v) (fits : v.lawful = true) :
    x.lawful = true := by
  cases part with
  | item mem => exact lawfulList.mp fits x mem
  | member held => exact (lawfulObject.mp fits).2 _ (Entries.mem_of_lookup held)

theorem objectQuiet {v : Value} (object : v.isObject = true) : v.str? = none := by
  cases v <;> simp [isObject, str?] at object ⊢

theorem sameDepth (v : Value) {w : Value} (same : v.same w = true) : v.depth ≤ w.depth := by
  induction v using Value.fromParts generalizing w with
  | items xs ih =>
    cases w with
    | arr ys =>
      simp only [Value.same, sameItemsIff] at same
      simp only [depth, Nat.add_le_add_iff_right]
      refine depthItemsBelow fun x mem => ?_
      obtain ⟨y, mem', related⟩ := Build.counterpart same mem
      have less := depthOfItem mem'
      have := ih x mem related
      simp only [depth] at less
      omega
    | _ => simp [Value.same] at same
  | members es ih =>
    cases w with
    | obj es' =>
      simp only [Value.same, Bool.and_eq_true, sameMembersIff] at same
      simp only [depth, Nat.add_le_add_iff_right]
      refine depthMembersBelow fun e mem => ?_
      obtain ⟨y, held, related⟩ := same.2 e mem
      have less := depthOfMember (Entries.mem_of_lookup held)
      have := ih e mem related
      simp only [depth] at less
      omega
    | _ => simp [Value.same] at same
  | leaf v noItems noMembers => cases v <;> simp [items?, members?, depth] at *

theorem sameRef {v w : Value} (lawful : v.lawful = true) (lawful' : w.lawful = true)
    (same : v.same w = true) : refOf v = refOf w := by
  cases v with
  | obj es =>
    cases w with
    | obj es' =>
      have pair := (sameObject (lawfulObject.mp lawful).1 (lawfulObject.mp lawful').1).mp same "$ref" rfl
      simp only [refOf, textAt?, get?]
      generalize es.lookup "$ref" = x, es'.lookup "$ref" = y at pair
      cases pair with
      | none => rfl
      | @some x y related => cases x <;> cases y <;> simp_all [Value.same, str?]
    | _ => simp [Value.same] at same
  | _ => cases w <;> simp_all [Value.same, refOf, textAt?, get?]

end ApiGraph.Json.Value

namespace ApiGraph.Tree
open Json

theorem memPointersOfItems {xs : List Value} {p : String} :
    p ∈ Value.pointersOfItems xs ↔ ∃ x ∈ xs, p ∈ x.pointers := by
  induction xs with
  | nil => simp [Value.pointersOfItems]
  | cons x r ih => simp [Value.pointersOfItems, ih]

theorem memPointersOfMembers {es : Members} {p : String} :
    p ∈ Value.pointersOfMembers es ↔ ∃ e ∈ es, p ∈ e.2.pointers := by
  induction es with
  | nil => simp [Value.pointersOfMembers]
  | cons e r ih =>
    obtain ⟨k, x⟩ := e
    simp [Value.pointersOfMembers, ih]

theorem Wrote.text {w v v' : Value} {l : List String} (wrote : Wrote w l v v')
    (quiet : w.str? = none) : v'.str? = none := by
  cases wrote with
  | here => exact quiet
  | member => rfl
  | element => rfl
  | appended => rfl

theorem Wrote.pointers {w v v' : Value} {l : List String} (wrote : Wrote w l v v')
    (quiet : w.str? = none) {p : String} (mem : p ∈ v'.pointers) :
    p ∈ v.pointers ∨ p ∈ w.pointers := by
  induction wrote with
  | here => exact .inr mem
  | @member s r node members x isObject below ih =>
    have silent := below.text quiet
    have inner : ∀ {q}, q ∈ (Value.obj members).pointers → q ∈ node.pointers := by
      intro q listed
      cases node <;> simp only [opened, reduceCtorEq, Value.obj.injEq] at isObject
      · subst isObject
        simp [Value.pointers, Value.pointersOfMembers, refOf, Value.textAt?, Value.get?] at listed
      · exact isObject ▸ listed
    simp only [Value.pointers, List.mem_append, Option.mem_toList, memPointersOfMembers] at mem
    rcases mem with named | ⟨e, held, listed⟩
    · refine .inl (inner (Value.refListed ?_))
      by_cases key : s = "$ref"
      · subst key
        simp [refOf, Value.textAt?, Value.get?, silent] at named
      · have other : (Entries.put s x members).lookup "$ref" = members.lookup "$ref" :=
          Entries.lookupPutOther (Ne.symm key) x members
        simpa [refOf, Value.textAt?, Value.get?, other] using named
    · rcases Entries.memPut held with rfl | old
      · rcases ih listed with before | new
        · cases there : members.lookup s with
          | none =>
            simp [there, Value.pointers, Value.pointersOfMembers, refOf, Value.textAt?,
              Value.get?] at before
          | some y =>
            rw [there, Option.getD_some] at before
            exact .inl (inner (Value.pointersOfMember (Entries.mem_of_lookup there) before))
        · exact .inr new
      · exact .inl (inner (Value.pointersOfMember old listed))
  | @element s r items i item x named held below ih =>
    simp only [Value.pointers, memPointersOfItems] at mem
    obtain ⟨y, inside, listed⟩ := mem
    rcases List.mem_or_eq_of_mem_set inside with old | rfl
    · exact .inl (Value.pointersOfItem old listed)
    · rcases ih listed with before | new
      · exact .inl (Value.pointersOfItem (List.mem_of_getElem? held) before)
      · exact .inr new
  | appended named =>
    simp only [Value.pointers, memPointersOfItems] at mem
    obtain ⟨y, inside, listed⟩ := mem
    rcases List.mem_append.mp inside with old | new
    · exact .inl (Value.pointersOfItem old listed)
    · exact .inr (List.mem_singleton.mp new ▸ listed)

end ApiGraph.Tree

namespace ApiGraph.Meaning
open Json Json.Value ApiGraph.Tree Resolve
variable {κ κ' : Type}

theorem Layer.self (k : κ) (k' : κ') (v : Value) :
    Layer (fun x y => x.1 = k ∧ y.1 = k' ∧ x.2 = y.2 ∧ PartOf x.2 v) k k' v v := by
  cases v with
  | arr xs => exact .items (List.forall₂_same.mpr fun x mem => ⟨rfl, rfl, rfl, .item mem⟩)
  | obj es =>
    refine .members fun key => ?_
    cases held : es.lookup key with
    | none => exact .none
    | some x => exact .some ⟨rfl, rfl, rfl, .member held⟩
  | num n => exact .leaf rfl rfl (numeralSameRefl n)
  | _ => exact .leaf rfl rfl (by simp [Value.same])

theorem Layer.same {v w : Value} (lawful : v.lawful = true) (lawful' : w.lawful = true)
    (same : v.same w = true) (k : κ) (k' : κ') :
    Layer (fun x y => x.2.same y.2 = true ∧ PartOf x.2 v ∧ PartOf y.2 w) k k' v w := by
  cases v with
  | arr xs =>
    cases w with
    | arr ys =>
      refine .items (itemsBack (sameItemsIff.mp same).flip fun y mem x mem' related => ?_)
      exact ⟨related, .item mem', .item mem⟩
    | _ => simp [Value.same] at same
  | obj es =>
    cases w with
    | obj es' =>
      have pairs := (sameObject (lawfulObject.mp lawful).1 (lawfulObject.mp lawful').1).mp same
      refine .members fun key => relBack (relBack (pairs key rfl) fun x y _ _ h => h) ?_
      exact fun y x held' held related => ⟨related, .member held, .member held'⟩
    | _ => simp [Value.same] at same
  | _ => exact .leaf rfl rfl same

theorem lookupIff {doc x : Value} {p : String} : lookup doc p = .ok x ↔
    p.startsWith "#" = true ∧ Tree.get? (.ofPointer p) doc = some x := by
  refine ⟨lookupSource, fun ⟨hash, found⟩ => ?_⟩
  simp [lookup, hash, found]

theorem Means.closed {R : Reader κ} {R' : Reader κ'} {v : Value} (free : v.pointers = []) (k : κ)
    (k' : κ') : Means R R' (k, v) (k', v) := by
  have bare : ∀ {x : Value}, x.pointers = [] → refOf x = none := by
    intro x free
    cases named : refOf x with
    | none => rfl
    | some p =>
      have mem := Value.refListed named
      simp [free] at mem
  have settled : ∀ {κ : Type} {R : Reader κ} {x a : κ × Value}, x.2.pointers = [] →
      R.Leads x a → a = x := fun free leads => leads.unique (.here (bare free))
  refine Means.ofSteps (S := fun x y => x.2 = y.2 ∧ x.2.pointers = []) ?_ ?_ ⟨rfl, free⟩
  · rintro ⟨k, x⟩ ⟨k', _⟩ a ⟨rfl, free⟩ leads
    cases settled free leads
    refine ⟨(k', x), .here (bare free), (Layer.self k k' x).mono ?_⟩
    rintro ⟨_, u⟩ ⟨_, w⟩ ⟨_, _, rfl, part⟩
    exact ⟨rfl, List.subset_nil.mp (free ▸ part.pointers)⟩
  · rintro ⟨k, x⟩ ⟨k', _⟩ b ⟨rfl, free⟩ _
    exact ⟨(k, x), .here (bare free)⟩

theorem leadsInside {doc : Value} {x a : Unit × Value} (leads : (Reader.ofDocument doc).Leads x a)
    (inside : x.2.pointers ⊆ doc.pointers) : a.2.pointers ⊆ doc.pointers := by
  induction leads with
  | here => exact inside
  | step _ read _ ih => exact ih (walkMeasures (lookupSource (readDocument.mp read)).2).2

section Unread
variable {doc doc' : Value}
  (same : ∀ p ∈ doc.pointers, p.startsWith "#" = true →
    Tree.get? (.ofPointer p) doc' = Tree.get? (.ofPointer p) doc)
include same

theorem readsAlike {p : String} (mem : p ∈ doc.pointers) (x : Value) :
    lookup doc' p = .ok x ↔ lookup doc p = .ok x := by
  rw [lookupIff, lookupIff]
  refine and_congr_right fun hash => ?_
  rw [same p mem hash]

theorem leadsUnread {x a : Unit × Value} (inside : x.2.pointers ⊆ doc.pointers) :
    ((Reader.ofDocument doc).Leads x a ↔ (Reader.ofDocument doc').Leads x a) := by
  constructor
  · intro leads
    induction leads with
    | here plain => exact .here plain
    | step named read _ ih =>
      have found := readDocument.mp read
      have mem := inside (Value.refListed named)
      have again := (readsAlike same mem _).mpr found
      refine .step named (readDocument.mpr again) (ih ?_)
      exact (walkMeasures (lookupSource found).2).2
  · intro leads
    induction leads with
    | here plain => exact .here plain
    | step named read _ ih =>
      have mem := inside (Value.refListed named)
      have found := (readsAlike same mem _).mp (readDocument.mp read)
      refine .step named (readDocument.mpr found) (ih ?_)
      exact (walkMeasures (lookupSource found).2).2

theorem meansUnread {x : Value} (inside : x.pointers ⊆ doc.pointers) :
    Means (Reader.ofDocument doc) (Reader.ofDocument doc') ((), x) ((), x) := by
  refine Means.ofSteps (S := fun x y => x = y ∧ x.2.pointers ⊆ doc.pointers) ?_ ?_ ⟨rfl, inside⟩
  · rintro x _ a ⟨rfl, inside⟩ leads
    refine ⟨a, (leadsUnread same inside).mp leads, (Layer.self a.1 a.1 a.2).mono ?_⟩
    rintro ⟨_, y⟩ ⟨_, z⟩ ⟨rfl, rfl, equal, part⟩
    cases equal
    exact ⟨rfl, List.Subset.trans part.pointers (leadsInside leads inside)⟩
  · rintro x _ b ⟨rfl, inside⟩ leads
    exact ⟨b, (leadsUnread same inside).mpr leads⟩

end Unread

theorem walkDeeper {q : List String} {x y : Value} (reads : walk? q x = some y) (filled : q ≠ []) :
    y.depth < x.depth := by
  cases q with
  | nil => exact absurd rfl filled
  | cons s r =>
    obtain ⟨z, step, rest⟩ := Option.bind_eq_some_iff.mp reads
    have below := (walkMeasures rest).1
    cases x with
    | obj members =>
      have less : z.depth < (Value.obj members).depth :=
        Value.depthOfMember (Entries.mem_of_lookup step)
      omega
    | arr items =>
      obtain ⟨i, _, found⟩ := Option.bind_eq_some_iff.mp step
      have := Value.depthOfItem (List.mem_of_getElem? found)
      omega
    | _ => simp [step?] at step

theorem readsBeside {s : List String} {old new doc doc' : Value} (wrote : Wrote new s doc doc')
    (held : walk? s doc = some old) {p : String}
    (outside : p.startsWith "#" = true →
      position doc s <+: position doc (Location.ofPointer p).segments →
        position doc (Location.ofPointer p).segments = position doc s) :
    Option.Rel (Swapped old new) (lookup doc p).toOption (lookup doc' p).toOption := by
  by_cases hash : p.startsWith "#" = true
  · have reads : ∀ d, (lookup d p).toOption = Tree.get? (.ofPointer p) d := by
      intro d
      simp only [lookup, hash, if_true]
      cases Tree.get? (.ofPointer p) d <;> rfl
    rw [reads, reads]
    exact (wrote.beside held (outside hash)).1
  · simp only [lookup, hash]
    exact .none

theorem lookupOption {doc x : Value} {p : String} :
    (lookup doc p).toOption = some x ↔ lookup doc p = .ok x := by
  cases lookup doc p <;> simp [Except.toOption]

/- A value that is no reference gives way to a reference to an equal value elsewhere. No other
reference is to something strictly inside of it. -/
structure GivesWay (source : List String) (pointer : String) (v held doc doc' : Value) : Prop where
  lawful : doc.lawful = true
  reads : walk? source doc = some v
  quiet : v.str? = none
  plain : refOf v = none
  wrote : Wrote (reference pointer) source doc doc'
  outside : ∀ p ∈ doc.pointers, p.startsWith "#" = true →
    position doc source <+: position doc (Location.ofPointer p).segments →
      position doc (Location.ofPointer p).segments = position doc source
  target : lookup doc pointer = .ok held
  equal : held.same v = true
  elsewhere : ¬ position doc source <+: position doc (Location.ofPointer pointer).segments

def Across (v back doc : Value) (x y : Unit × Value) : Prop :=
  ∃ z, x.2.same z = true ∧ x.2.lawful = true ∧ z.lawful = true ∧ z.pointers ⊆ doc.pointers ∧
    Swapped v back z y.2

theorem swappedItems {old new : Value} {items : List Value} {i : Nat} {item w : Value}
    {r : List String} (held : items[i]? = some item) (reads : walk? r item = some old)
    (wrote : Wrote new r item w) :
    List.Forall₂ (fun x y => Swapped old new x y ∧ PartOf x (.arr items)) items (items.set i w) := by
  refine List.forall₂_iff_get.mpr ⟨by simp, fun j inside inside' => ?_⟩
  refine ⟨?_, .item (List.get_mem _ _)⟩
  simp only [List.get_eq_getElem, List.getElem_set]
  split
  · rename_i same
    subst same
    obtain ⟨_, found⟩ := List.getElem?_eq_some_iff.mp held
    rw [found]
    exact .inr ⟨r, reads, wrote⟩
  · exact .inl rfl

theorem swappedCases (k : κ) (k' : κ') {old new z y : Value} (silent : old.str? = none)
    (silent' : new.str? = none) (swapped : Swapped old new z y) :
    (z = old ∧ y = new) ∨ refOf y = refOf z ∧
      Layer (fun a b => Swapped old new a.2 b.2 ∧ PartOf a.2 z) k k' z y := by
  rcases swapped with rfl | ⟨q, reads, wrote⟩
  · refine .inr ⟨rfl, (Layer.self k k' z).mono ?_⟩
    rintro a b ⟨_, _, same, part⟩
    exact ⟨.inl same, part⟩
  · cases wrote with
    | here => exact .inl ⟨Option.some.inj reads, rfl⟩
    | @member s r _ members w isObject below =>
      refine .inr ?_
      obtain ⟨x, step, rest⟩ := Option.bind_eq_some_iff.mp reads
      cases z with
      | obj =>
        cases isObject
        have held : members.lookup s = some x := step
        rw [held, Option.getD_some] at below
        refine ⟨?_, .members fun key => ?_⟩
        · by_cases key : s = "$ref"
          · subst key
            -- neither the old part nor the new one is a text
            have quiet : x.str? = none ∧ w.str? = none := by
              cases below with
              | here =>
                cases rest
                exact ⟨silent, silent'⟩
              | member => cases x <;> simp_all [walk?, step?, Value.str?]
              | element => exact ⟨rfl, rfl⟩
              | appended => exact ⟨rfl, rfl⟩
            simp [refOf, textAt?, Value.get?, held, quiet]
          · have other : (Entries.put s w members).lookup "$ref" = members.lookup "$ref" :=
              Entries.lookupPutOther (Ne.symm key) w members
            simp [refOf, textAt?, Value.get?, other]
        · by_cases same : key = s
          · subst same
            rw [Entries.lookupPut, held]
            exact .some ⟨.inr ⟨r, rest, below⟩, .member held⟩
          · rw [Entries.lookupPutOther same]
            cases there : members.lookup key with
            | none => exact .none
            | some u => exact .some ⟨.inl rfl, .member there⟩
      | arr => simp [opened] at isObject
      | _ => simp [step?] at step
    | @element s r items i item w named held below =>
      have inner : walk? r item = some old := by
        simpa [walk?, step?, named, held] using reads
      exact .inr ⟨rfl, .items (swappedItems held inner below)⟩
    | appended named => simp [walk?, step?, named] at reads

namespace GivesWay
variable {source : List String} {pointer : String} {v held doc doc' : Value}
  (g : GivesWay source pointer v held doc doc')
include g

/- The reference leads to what stood there before, since an equal value is not inside itself. -/
theorem leads : lookup doc' pointer = .ok held := by
  obtain ⟨hash, found⟩ := lookupIff.mp g.target
  have other : ¬ position doc (Location.ofPointer pointer).segments <+: position doc source := by
    intro around
    obtain ⟨q, long, same⟩ := positionInside around found
    have inner : walk? q held = some v := same.symm.trans g.reads
    cases q with
    | nil =>
      have equal := around.eq_of_length (by simpa [positionLength] using long)
      exact g.elsewhere (equal ▸ List.prefix_rfl)
    | cons s r =>
      have deeper := walkDeeper inner (by simp)
      have shallow := Value.sameDepth held g.equal
      omega
  exact lookupIff.mpr ⟨hash, (g.wrote.apart ⟨g.elsewhere, other⟩).1.trans found⟩

theorem read {p : String} {x : Value} (mem : p ∈ doc.pointers) (found : lookup doc p = .ok x) :
    ∃ y, lookup doc' p = .ok y ∧
      Across v (reference pointer) doc ((), x) ((), y) := by
  obtain ⟨hash, there⟩ := lookupIff.mp found
  have fits := lawfulAt g.lawful there
  have beside := readsBeside g.wrote g.reads (g.outside p mem)
  rw [lookupOption.mpr found] at beside
  obtain ⟨y, found', swapped⟩ := relFrom beside
  exact ⟨y, lookupOption.mp found', x, sameRefl x fits, fits, fits,
    (walkMeasures there).2, swapped⟩

theorem readBack {p : String} {y : Value} (mem : p ∈ doc.pointers) (found : lookup doc' p = .ok y) :
    ∃ x, lookup doc p = .ok x ∧ Across v (reference pointer) doc ((), x) ((), y) := by
  have beside := readsBeside g.wrote g.reads (g.outside p mem)
  obtain ⟨x, found'⟩ := (relHeld beside).mpr ⟨y, lookupOption.mpr found⟩
  have before := lookupOption.mp found'
  obtain ⟨y', again, across⟩ := g.read mem before
  cases found.symm.trans again
  exact ⟨x, before, across⟩

theorem acrossForth {x y a : Unit × Value} (across : Across v (reference pointer) doc x y)
    (leads : (Reader.ofDocument doc).Leads x a) : ∃ b, (Reader.ofDocument doc').Leads y b ∧
      Layer (Across v (reference pointer) doc) a.1 b.1 a.2 b.2 := by
  obtain ⟨hash, found⟩ := lookupIff.mp g.target
  have heldLawful := lawfulAt g.lawful found
  induction leads generalizing y with
  | @here k x plain =>
    obtain ⟨z, same, fits, fits', inside, swapped⟩ := across
    have plain' : refOf z = none := (Value.sameRef fits fits' same).symm.trans plain
    rcases swappedCases () () g.quiet rfl swapped with ⟨rfl, whole⟩ | ⟨named, parts⟩
    · have back : refOf y.2 = some pointer := by rw [whole, referenceRef]
      have bare : refOf held = none := (Value.sameRef heldLawful fits' g.equal).trans plain'
      refine ⟨((), held), .step back (readDocument.mpr g.leads) (.here bare), ?_⟩
      have equal := sameSymm held heldLawful fits' g.equal
      have through := sameTrans x fits fits'
        heldLawful same equal
      refine (Layer.same fits heldLawful through k ()).mono ?_
      rintro a b ⟨alike, part, part'⟩
      exact ⟨b.2, alike, part.lawful fits, part'.lawful heldLawful,
        List.Subset.trans part'.pointers (walkMeasures found).2, .inl rfl⟩
    · refine ⟨y, .here (named.trans plain'), ?_⟩
      refine ((Layer.same fits fits' same k ()).trans parts).mono ?_
      rintro a b ⟨c, ⟨alike, part, part'⟩, further, _⟩
      exact ⟨c.2, alike, part.lawful fits, part'.lawful fits',
        List.Subset.trans part'.pointers inside, further⟩
  | @step k x p w a named read _ ih =>
    obtain ⟨z, same, fits, fits', inside, swapped⟩ := across
    have named' : refOf z = some p := (Value.sameRef fits fits' same).symm.trans named
    rcases swappedCases () () g.quiet rfl swapped with ⟨rfl, _⟩ | ⟨kept, _⟩
    · rw [g.plain] at named'
      contradiction
    · obtain ⟨u, found', related⟩ := g.read (inside (Value.refListed named')) (readDocument.mp read)
      obtain ⟨b, leads, layer⟩ := ih related
      exact ⟨b, .step (kept.trans named') (readDocument.mpr found') leads, layer⟩

theorem acrossBack {x y b : Unit × Value} (across : Across v (reference pointer) doc x y)
    (leads : (Reader.ofDocument doc').Leads y b) : ∃ a, (Reader.ofDocument doc).Leads x a := by
  induction leads generalizing x with
  | @here k y plain =>
    obtain ⟨z, same, fits, fits', inside, swapped⟩ := across
    rcases swappedCases () () g.quiet rfl swapped with ⟨_, whole⟩ | ⟨named, _⟩
    · have back : refOf y = some pointer := by rw [show y = _ from whole, referenceRef]
      rw [back] at plain
      contradiction
    · exact ⟨x, .here ((Value.sameRef fits fits' same).trans (named.symm.trans plain))⟩
  | @step k y p w b named read _ ih =>
    obtain ⟨z, same, fits, fits', inside, swapped⟩ := across
    rcases swappedCases () () g.quiet rfl swapped with ⟨rfl, _⟩ | ⟨kept, _⟩
    · exact ⟨x, .here ((Value.sameRef fits fits' same).trans g.plain)⟩
    · have named' : refOf z = some p := kept.symm.trans named
      obtain ⟨u, found, related⟩ :=
        g.readBack (inside (Value.refListed named')) (readDocument.mp read)
      obtain ⟨a, leads⟩ := ih related
      exact ⟨a, .step ((Value.sameRef fits fits' same).trans named') (readDocument.mpr found) leads⟩

theorem means {x x' : Value} {l : List String} (at_ : walk? l doc = some x)
    (at' : walk? l doc' = some x')
    (outside : position doc source <+: position doc l → position doc l = position doc source) :
    Means (Reader.ofDocument doc) (Reader.ofDocument doc') ((), x) ((), x') := by
  have fits := lawfulAt (l := ⟨l⟩) g.lawful at_
  have beside := (g.wrote.beside g.reads outside).1
  rw [at_, at'] at beside
  cases beside with
  | some swapped =>
    refine Means.ofSteps (fun _ _ _ across leads => g.acrossForth across leads)
      (fun _ _ _ across leads => g.acrossBack across leads) ?_
    exact ⟨x, sameRefl x fits, fits, fits, (walkMeasures at_).2, swapped⟩

end GivesWay

/- A reference gives way to the value that it leads to. No reference is to something strictly inside
of it. -/
structure TakesOver (slot : List String) (entry v doc doc' : Value) : Prop where
  reads : walk? slot doc = some entry
  named : ∃ p, refOf entry = some p
  leads : (Reader.ofDocument doc).Leads ((), entry) ((), v)
  quiet : v.str? = none
  wrote : Wrote v slot doc doc'
  outside : ∀ p ∈ doc.pointers, p.startsWith "#" = true →
    position doc slot <+: position doc (Location.ofPointer p).segments →
      position doc (Location.ofPointer p).segments = position doc slot

def Over (entry v doc : Value) (x y : Unit × Value) : Prop :=
  x.2.pointers ⊆ doc.pointers ∧ Swapped entry v x.2 y.2

namespace TakesOver
variable {slot : List String} {entry v doc doc' : Value} (t : TakesOver slot entry v doc doc')
include t

theorem silent : entry.str? = none := by
  obtain ⟨p, named⟩ := t.named
  cases entry <;> simp [refOf, textAt?, Value.get?, Value.str?] at named ⊢

theorem inside : v.pointers ⊆ doc.pointers :=
  leadsInside t.leads (walkMeasures t.reads).2

theorem read {p : String} {x : Value} (mem : p ∈ doc.pointers) (found : lookup doc p = .ok x) :
    ∃ y, lookup doc' p = .ok y ∧ Over entry v doc ((), x) ((), y) := by
  have beside := readsBeside t.wrote t.reads (t.outside p mem)
  rw [lookupOption.mpr found] at beside
  obtain ⟨y, found', swapped⟩ := relFrom beside
  exact ⟨y, lookupOption.mp found', (walkMeasures (lookupSource found).2).2, swapped⟩

theorem readBack {p : String} {y : Value} (mem : p ∈ doc.pointers) (found : lookup doc' p = .ok y) :
    ∃ x, lookup doc p = .ok x ∧ Over entry v doc ((), x) ((), y) := by
  have beside := readsBeside t.wrote t.reads (t.outside p mem)
  obtain ⟨x, found'⟩ := (relHeld beside).mpr ⟨y, lookupOption.mpr found⟩
  have before := lookupOption.mp found'
  obtain ⟨y', again, laid⟩ := t.read mem before
  cases found.symm.trans again
  exact ⟨x, before, laid⟩

theorem overForth {x y a : Unit × Value} (laid : Over entry v doc x y)
    (leads : (Reader.ofDocument doc).Leads x a) : ∃ b, (Reader.ofDocument doc').Leads y b ∧
      Layer (Over entry v doc) a.1 b.1 a.2 b.2 := by
  induction leads generalizing y with
  | @here k x plain =>
    obtain ⟨inside, swapped⟩ := laid
    rcases swappedCases k () t.silent t.quiet swapped with ⟨whole, _⟩ | ⟨named, parts⟩
    · obtain ⟨p, named⟩ := t.named
      rw [show x = entry from whole, named] at plain
      contradiction
    · refine ⟨y, .here (named.trans plain), parts.mono ?_⟩
      exact fun a b ⟨further, part⟩ => ⟨List.Subset.trans part.pointers inside, further⟩
  | @step k x p w a named read rest ih =>
    obtain ⟨inside, swapped⟩ := laid
    rcases swappedCases () () t.silent t.quiet swapped with ⟨rfl, whole⟩ | ⟨kept, _⟩
    · -- the value that the reference leads to stands there itself
      cases (Reader.Leads.step named read rest).unique t.leads
      refine ⟨y, .here (whole ▸ t.leads.plain), ?_⟩
      rw [show y.2 = v from whole]
      refine (Layer.self () () v).mono ?_
      rintro b c ⟨_, _, same, part⟩
      exact ⟨List.Subset.trans part.pointers t.inside, .inl same⟩
    · obtain ⟨u, found, related⟩ := t.read (inside (Value.refListed named)) (readDocument.mp read)
      obtain ⟨b, leads, layer⟩ := ih related
      exact ⟨b, .step (kept.trans named) (readDocument.mpr found) leads, layer⟩

theorem overBack {x y b : Unit × Value} (laid : Over entry v doc x y)
    (leads : (Reader.ofDocument doc').Leads y b) : ∃ a, (Reader.ofDocument doc).Leads x a := by
  induction leads generalizing x with
  | @here k y plain =>
    obtain ⟨_, swapped⟩ := laid
    rcases swappedCases () () t.silent t.quiet swapped with ⟨whole, _⟩ | ⟨named, _⟩
    · exact ⟨_, whole ▸ t.leads⟩
    · exact ⟨x, .here (named.symm.trans plain)⟩
  | @step k y p w b named read _ ih =>
    obtain ⟨inside, swapped⟩ := laid
    rcases swappedCases () () t.silent t.quiet swapped with ⟨whole, _⟩ | ⟨kept, _⟩
    · exact ⟨_, whole ▸ t.leads⟩
    · have named' : refOf x.2 = some p := kept.symm.trans named
      obtain ⟨u, found, related⟩ := t.readBack (inside (Value.refListed named'))
        (readDocument.mp read)
      obtain ⟨a, leads⟩ := ih related
      exact ⟨a, .step named' (readDocument.mpr found) leads⟩

theorem means {x x' : Value} {l : List String} (at_ : walk? l doc = some x)
    (at' : walk? l doc' = some x')
    (outside : position doc slot <+: position doc l → position doc l = position doc slot) :
    Means (Reader.ofDocument doc) (Reader.ofDocument doc') ((), x) ((), x') := by
  have beside := (t.wrote.beside t.reads outside).1
  rw [at_, at'] at beside
  cases beside with
  | some swapped =>
    exact Means.ofSteps (fun _ _ _ laid leads => t.overForth laid leads)
      (fun _ _ _ laid leads => t.overBack laid leads) ⟨(walkMeasures at_).2, swapped⟩

end TakesOver

end ApiGraph.Meaning
