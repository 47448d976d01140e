import ApiGraph.Proofs.Identity
import ApiGraph.Proofs.Written

/-! Places beside a write. What is read of a written document apart from the written place is what was
there before. -/
namespace ApiGraph.Tree
open Json

theorem writeThere {l : List String} {v x : Value} (held : walk? l v = some x) (w : Value) :
    ∃ v', write? w l v = some v' ∧ (w = x → v' = v) := by
  induction l generalizing v with
  | nil => exact ⟨w, rfl, fun same => same.trans (Option.some.inj held).symm⟩
  | cons s r ih =>
    obtain ⟨y, step, rest⟩ := Option.bind_eq_some_iff.mp held
    obtain ⟨y', written, same⟩ := ih rest
    cases v with
    | obj members =>
      have there : members.lookup s = some y := step
      refine ⟨.obj (Entries.put s y' members), by simp [write?, opened, there, written],
        fun equal => ?_⟩
      rw [same equal, Entries.putSame there]
    | arr items =>
      obtain ⟨i, named, found⟩ := Option.bind_eq_some_iff.mp step
      refine ⟨.arr (items.set i y'), by simp [write?, opened, named, found, written],
        fun equal => ?_⟩
      obtain ⟨small, at_⟩ := List.getElem?_eq_some_iff.mp found
      rw [same equal, ← at_, List.set_getElem_self]
    | _ => simp [step?] at step

@[simp] theorem positionNil (v : Value) : position v [] = [] := by
  unfold position
  rfl

theorem positionEmptied {v : Value} {l : List String} (none : position v l = []) : l = [] := by
  cases l with
  | nil => rfl
  | cons k r =>
    cases v with
    | arr items => cases named : index? k <;> simp [position, named] at none
    | _ => simp [position] at none

theorem positionLength (v : Value) (l : List String) : (position v l).length = l.length := by
  induction l generalizing v with
  | nil => simp
  | cons s r ih =>
    cases v with
    | obj members => cases held : members.lookup s <;> simp [position, held, ih]
    | arr items =>
      cases named : index? s with
      | none => simp [position, named]
      | some i => cases held : items[i]? <;> simp [position, named, held, ih]
    | _ => simp [position]

theorem positionMember {members : Members} {s : String} {x : Value}
    (held : members.lookup s = some x) (r : List String) :
    position (.obj members) (s :: r) = .key s :: position x r := by
  simp [position, held]

theorem positionElement {items : List Value} {s : String} {i : Nat} {x : Value}
    (named : index? s = some i) (held : items[i]? = some x) (r : List String) :
    position (.arr items) (s :: r) = .index i :: position x r := by
  simp [position, named, held]

/- What is not there is placed as its segments say. -/
theorem positionEmpty (segments : List String) :
    position (.obj []) segments = segments.map Step.key := by
  cases segments <;> simp [position]

theorem positionOpened {node : Value} {members : Members} (isObject : opened node = .obj members)
    (segments : List String) : position node segments = position (.obj members) segments ∧
      ∀ s r, walk? (s :: r) node = (members.lookup s).bind (walk? r) := by
  cases node <;> simp only [opened, reduceCtorEq, Value.obj.injEq] at isObject
  · subst isObject
    refine ⟨?_, fun s r => rfl⟩
    cases segments <;> simp [position]
  · subst isObject
    exact ⟨rfl, fun s r => rfl⟩

def Step.text : Step → String
  | .key s => s
  | .index i => toString i

def canonical (v : Value) (l : List String) : List String := (position v l).map Step.text

theorem canonicalLength (v : Value) (l : List String) : (canonical v l).length = l.length := by
  rw [canonical, List.length_map, positionLength]

theorem positionAppend {v x : Value} {l : List String} (held : walk? l v = some x) (r : List String) :
    position v (l ++ r) = position v l ++ position x r := by
  induction l generalizing v with
  | nil =>
    cases held
    simp
  | cons s l ih =>
    obtain ⟨y, step, rest⟩ := Option.bind_eq_some_iff.mp held
    rw [List.cons_append]
    cases v with
    | obj members =>
      have there : members.lookup s = some y := step
      rw [positionMember there, positionMember there, ih rest, List.cons_append]
    | arr items =>
      obtain ⟨i, named, there⟩ := Option.bind_eq_some_iff.mp step
      rw [positionElement named there, positionElement named there, ih rest, List.cons_append]
    | _ => simp [step?] at step

def head (v : Value) (s : String) : Step :=
  match v with
  | .arr _ => match index? s with
    | some i => .index i
    | none => .key s
  | _ => .key s

theorem positionCons (v : Value) (s : String) (r : List String) :
    position v (s :: r) = head v s :: position ((step? v s).getD (.obj [])) r := by
  cases v with
  | obj members =>
    cases held : members.lookup s <;> simp [position, head, step?, held, positionEmpty]
  | arr items =>
    cases named : index? s with
    | none => simp [position, head, step?, named, positionEmpty]
    | some i =>
      cases held : items[i]? <;> simp [position, head, step?, named, held, positionEmpty]
  | _ => simp [position, head, step?, positionEmpty]

theorem positionWord {s : String} (word : index? s = none) (v : Value) (r : List String) :
    position v (s :: r) = .key s :: position ((step? v s).getD (.obj [])) r := by
  rw [positionCons]
  cases v <;> simp [head, word]

theorem headStep {v : Value} {s s' : String} (same : head v s = head v s') :
    step? v s = step? v s' := by
  cases v with
  | arr items =>
    simp only [head] at same
    cases named : index? s <;> cases named' : index? s' <;> simp_all [step?]
  | _ => simp_all [head]

theorem headKey {v : Value} {s k : String} (h : head v s = .key k) : s = k := by
  unfold head at h
  split at h
  · split at h
    · cases h
    · exact Step.key.inj h
  · exact Step.key.inj h

theorem keysAround {v : Value} {l keys : List String} (h : position v l <+: keys.map .key) :
    l <+: keys := by
  induction l generalizing v keys with
  | nil => exact List.nil_prefix
  | cons s r ih =>
    rw [positionCons] at h
    cases keys with
    | nil => simp at h
    | cons k keys =>
      rw [List.map_cons, List.cons_prefix_cons] at h
      exact List.cons_prefix_cons.mpr ⟨headKey h.1, ih h.2⟩

theorem keysInside {v : Value} {l keys : List String} (h : keys.map .key <+: position v l) :
    keys <+: l := by
  induction l generalizing v keys with
  | nil =>
    cases keys with
    | nil => exact List.nil_prefix
    | cons => simp at h
  | cons s r ih =>
    cases keys with
    | nil => exact List.nil_prefix
    | cons k keys =>
      rw [List.map_cons, positionCons, List.cons_prefix_cons] at h
      exact List.cons_prefix_cons.mpr ⟨(headKey h.1.symm).symm, ih h.2⟩

theorem positionInside {doc x : Value} {l l' : List String}
    (inside : position doc l <+: position doc l') (at_ : walk? l doc = some x) :
    ∃ q, l.length + q.length = l'.length ∧ walk? l' doc = walk? q x := by
  induction l generalizing doc l' with
  | nil =>
    cases at_
    exact ⟨l', by simp, rfl⟩
  | cons s r ih =>
    obtain ⟨z, step, rest⟩ := Option.bind_eq_some_iff.mp at_
    cases l' with
    | nil =>
      have empty := positionEmptied (List.prefix_nil.mp (positionNil doc ▸ inside))
      simp at empty
    | cons s' r' =>
      rw [positionCons, positionCons, List.cons_prefix_cons] at inside
      have same := headStep inside.1
      rw [← same, step] at inside
      obtain ⟨q, long, reads⟩ := ih inside.2 rest
      refine ⟨q, by simp only [List.length_cons]; omega, ?_⟩
      rw [walk?, ← same, step]
      exact reads

theorem positionAround {doc y : Value} {l l' : List String}
    (inside : position doc l <+: position doc l') (at_ : walk? l' doc = some y) :
    ∃ x, walk? l doc = some x := by
  induction l generalizing doc l' with
  | nil => exact ⟨doc, rfl⟩
  | cons s r ih =>
    cases l' with
    | nil =>
      have empty := positionEmptied (List.prefix_nil.mp (positionNil doc ▸ inside))
      simp at empty
    | cons s' r' =>
      obtain ⟨z, step, rest⟩ := Option.bind_eq_some_iff.mp at_
      rw [positionCons, positionCons, List.cons_prefix_cons] at inside
      have same := headStep inside.1
      rw [same, step] at inside
      obtain ⟨x, reads⟩ := ih inside.2 rest
      exact ⟨x, by rw [walk?, same, step]; exact reads⟩

def Apart (doc : Value) (l l' : List String) : Prop :=
  ¬ position doc l <+: position doc l' ∧ ¬ position doc l' <+: position doc l

theorem Apart.symm {doc : Value} {l l' : List String} (h : Apart doc l l') : Apart doc l' l :=
  ⟨h.2, h.1⟩

section Frame
variable {v node node' : Value} {s l : List String}

/- One level of a write, whatever it writes into: the member or the element that it goes to is written
further down, and the others are left. -/
theorem Wrote.level {k : String} {r : List String} (wrote : Wrote v (k :: r) node node') :
    (∀ k', head node' k' = head node k') ∧
      ∃ w, Wrote v r ((step? node k).getD (.obj [])) w ∧
        ∀ k', step? node' k' = if head node k' = head node k then some w else step? node k' := by
  cases wrote with
  | @member _ _ _ members w isObject below =>
    have opens : (∀ k', head node k' = .key k') ∧ ∀ k', step? node k' = members.lookup k' := by
      cases node <;> simp only [opened, reduceCtorEq, Value.obj.injEq] at isObject
      · exact isObject ▸ ⟨fun _ => rfl, fun _ => rfl⟩
      · exact isObject ▸ ⟨fun _ => rfl, fun _ => rfl⟩
    refine ⟨fun k' => (opens.1 k').symm, w, by rwa [opens.2], fun k' => ?_⟩
    rw [opens.1, opens.1, opens.2, step?]
    by_cases same : k' = k
    · simp [same, Entries.lookupPut]
    · simpa [same] using Entries.lookupPutOther same w members
  | @element _ _ items i item w named held below =>
    obtain ⟨inside, _⟩ := List.getElem?_eq_some_iff.mp held
    refine ⟨fun k' => rfl, w, by simpa [step?, named, held] using below, fun k' => ?_⟩
    cases named' : index? k' with
    | none => simp [step?, head, named, named']
    | some j =>
      by_cases same : j = i
      · simp [step?, head, named, named', same, inside]
      · simp [step?, head, named, named', same, List.getElem?_set_ne (Ne.symm same)]
  | @appended _ items named =>
    refine ⟨fun k' => rfl, v, .here _, fun k' => ?_⟩
    cases named' : index? k' with
    | none => simp [step?, head, named, named']
    | some j =>
      by_cases same : j = items.length
      · simp [step?, head, named, named', same]
      · simpa [step?, head, named, named', same] using Graph.appendedOther same

theorem Wrote.placed (wrote : Wrote v s node node') : position node' s = position node s := by
  induction s generalizing node node' with
  | nil => simp
  | cons k r ih =>
    obtain ⟨heads, w, below, steps⟩ := wrote.level
    rw [positionCons, positionCons, heads, steps, if_pos rfl, Option.getD_some, ih below]

theorem Wrote.apart (wrote : Wrote v s node node') (apart : Apart node s l) :
    walk? l node' = walk? l node ∧ position node' l = position node l := by
  induction s generalizing node node' l with
  | nil => exact absurd (by simp) apart.1
  | cons k r ih =>
    obtain ⟨heads, w, below, steps⟩ := wrote.level
    cases l with
    | nil => exact absurd (by simp) apart.2
    | cons k' l' =>
      rw [positionCons node', positionCons node k', heads, walk?, walk?, steps]
      by_cases same : head node k' = head node k
      · have inner : Apart ((step? node k).getD (.obj [])) r l' := by
          simpa [Apart, positionCons, headStep same, same, List.cons_prefix_cons] using apart
        obtain ⟨reads, at_⟩ := ih below inner
        rw [if_pos same, headStep same, Option.getD_some, at_]
        refine ⟨reads.trans ?_, rfl⟩
        cases there : step? node k with
        | some x => rfl
        | none =>
          -- nothing is read of an object that the write has made
          rw [there] at inner
          cases l' with
          | nil => exact absurd (by simp) inner.2
          | cons => rfl
      · rw [if_neg same]
        exact ⟨rfl, rfl⟩

theorem Wrote.apartFrom (wrote : Wrote v s node node') (apart : Apart node s l) :
    Apart node' s l := by
  rw [Apart, wrote.placed, (wrote.apart apart).2]
  exact apart

theorem Wrote.stayApart {l' : List String} (wrote : Wrote v s node node') (beside : Apart node s l)
    (beside' : Apart node s l') (apart : Apart node l l') : Apart node' l l' := by
  rw [Apart, (wrote.apart beside).2, (wrote.apart beside').2]
  exact apart

/- Of two values the second is the first, or differs from it in one place, where it holds another
value. -/
def Swapped (old new y y' : Value) : Prop :=
  y = y' ∨ ∃ q, walk? q y = some old ∧ Wrote new q y y'

theorem swappedRefl (old new : Value) (x : Option Value) : Option.Rel (Swapped old new) x x := by
  cases x with
  | none => exact .none
  | some y => exact .some (.inl rfl)

theorem Wrote.beside (wrote : Wrote v s node node') {old : Value} (held : walk? s node = some old)
    (outside : position node s <+: position node l → position node l = position node s) :
    Option.Rel (Swapped old v) (walk? l node) (walk? l node') ∧
      position node' l = position node l := by
  induction s generalizing node node' l with
  | nil =>
    cases wrote
    have whole : position node l = [] := by simpa using outside
    rw [positionEmptied whole]
    exact ⟨.some (.inr ⟨[], held, .here _⟩), by simp⟩
  | cons k r ih =>
    obtain ⟨heads, w, below, steps⟩ := wrote.level
    obtain ⟨x, there, deeper⟩ := Option.bind_eq_some_iff.mp held
    rw [there, Option.getD_some] at below
    cases l with
    | nil => exact ⟨.some (.inr ⟨k :: r, held, wrote⟩), by simp⟩
    | cons k' l' =>
      rw [positionCons node', positionCons node k', heads, walk?, walk?, steps]
      rw [positionCons, positionCons, there] at outside
      by_cases same : head node k' = head node k
      · rw [headStep same, there, same, List.cons_prefix_cons] at outside
        obtain ⟨reads, at_⟩ := ih below deeper fun inside =>
          (List.cons.inj (outside ⟨rfl, inside⟩)).2
        rw [if_pos same, headStep same, there, Option.getD_some, Option.getD_some, at_]
        exact ⟨reads, rfl⟩
      · rw [if_neg same]
        exact ⟨swappedRefl _ _ _, rfl⟩

end Frame

end ApiGraph.Tree
