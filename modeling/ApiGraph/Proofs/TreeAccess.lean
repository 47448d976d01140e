import ApiGraph.Proofs.Writes
import ApiGraph.Session

/-! Reading, writing and removing at a location, as a session does it. A write that is blocked has
changed nothing on its way, one that is done is read at its location and leaves what stands beside it,
and a removal takes one member or element out of one object or list. -/
namespace ApiGraph.Tree
open Json

section Write
variable {v node x : Value} {l : List String}

theorem writeMissing (v : Value) (l : List String) : ∃ w, write? v l (.obj []) = some w := by
  induction l with
  | nil => exact ⟨v, rfl⟩
  | cons s r ih =>
    obtain ⟨w, written⟩ := ih
    exact ⟨.obj [(s, w)], by simp [write?, opened, written, Entries.put]⟩

/- A write that is blocked has changed nothing before: what it makes on its way is empty, and nothing is
in the way from there on. -/
theorem writtenInPlace (v : Value) (l : List String) (node : Value) :
    writeInPlace v l node = ((write? v l node).getD node, (write? v l node).isSome) := by
  induction l generalizing node with
  | nil => rfl
  | cons s r ih =>
    unfold writeInPlace write?
    cases isOpened : opened node with
    | obj members =>
      simp only [ih]
      cases held : members.lookup s with
      | none =>
        obtain ⟨w, written⟩ := writeMissing v r
        simp [written]
      | some x =>
        cases written : write? v r x with
        | some w => simp [written]
        | none =>
          have same : node = .obj members := by
            cases node <;> simp only [opened, reduceCtorEq, Value.obj.injEq] at isOpened
            · simp [← isOpened] at held
            · rw [isOpened]
          simp [written, Entries.putSame held, same]
    | arr items =>
      cases openedList isOpened
      cases named : index? s with
      | none => rfl
      | some i =>
        cases held : items[i]? with
        | none =>
          dsimp only [Option.bind_some]
          rw [held]
          dsimp only
          split <;> rfl
        | some x =>
          obtain ⟨inside, at_⟩ := List.getElem?_eq_some_iff.mp held
          cases written : write? v r x with
          | some w => simp [ih, held, written]
          | none =>
            have same : items.set i x = items := by rw [← at_, List.set_getElem_self]
            simp [ih, held, written, same]
    | _ => cases node <;> simp_all [opened]

/- Something on the way neither has members nor is a list with the element. -/
inductive Blocked : List String → Value → Prop
  | scalar {s r node} (filled : node.isNull = false) (noList : node.items? = none)
      (noObject : node.members? = none) : Blocked (s :: r) node
  | unnamed {s r items} (noIndex : index? s = none) : Blocked (s :: r) (.arr items)
  | past {s r items i} (named : index? s = some i)
      (beyond : items.length < i ∨ items.length = i ∧ r ≠ []) : Blocked (s :: r) (.arr items)
  | inside {s r node x} (held : step? node s = some x) (blocked : Blocked r x) : Blocked (s :: r) node

theorem blockedIff : write? v l node = none ↔ Blocked l node := by
  constructor
  · intro failed
    induction l generalizing node with
    | nil => contradiction
    | cons s r ih =>
      have missing : write? v r (.obj []) ≠ none := by
        obtain ⟨w, written⟩ := writeMissing v r
        simp [written]
      cases node with
      | null => exact absurd (by simpa [write?, opened] using failed) missing
      | obj members =>
        cases held : members.lookup s with
        | none => exact absurd (by simpa [write?, opened, held] using failed) missing
        | some x => exact .inside held (ih (by simpa [write?, opened, held] using failed))
      | arr items =>
        cases named : index? s with
        | none => exact .unnamed named
        | some i =>
          cases held : items[i]? with
          | some x =>
            have step : step? (.arr items) s = some x := by simp [step?, named, held]
            exact .inside step (ih (by simpa [write?, opened, named, held] using failed))
          | none =>
            have beyond := List.getElem?_eq_none_iff.mp held
            refine .past named ?_
            by_cases last : items.length = i
            · exact .inr ⟨last, by simpa [write?, opened, named, held, last] using failed⟩
            · exact .inl (by omega)
      | _ => exact .scalar rfl rfl rfl
  · intro blocked
    induction blocked with
    | @scalar s r node filled noList noObject =>
      cases node with
      | null => contradiction
      | arr items => contradiction
      | obj members => contradiction
      | _ => rfl
    | unnamed noIndex => simp [write?, opened, noIndex]
    | @past s r items i named beyond =>
      have absent : items[i]? = none := List.getElem?_eq_none_iff.mpr (by omega)
      rcases beyond with further | ⟨last, more⟩
      · have other : i ≠ items.length := by omega
        simp [write?, opened, named, absent, other]
      · simp [write?, opened, named, absent, more]
    | @inside s r node x held _ ih =>
      cases node with
      | obj members =>
        have there : members.lookup s = some x := held
        simp [write?, opened, there, ih]
      | arr items =>
        obtain ⟨i, named, there⟩ := Option.bind_eq_some_iff.mp held
        simp [write?, opened, named, there, ih]
      | _ => simp [step?] at held

end Write

def Plain (doc : Value) (l : Location) : Prop := canonical doc l.segments = l.segments

theorem plainApart {doc : Value} {l m : Location} (plain : Plain doc l) (plain' : Plain doc m)
    (outside : l.startsWith m = false) (outside' : m.startsWith l = false) :
    Apart doc l.segments m.segments := by
  have around : ∀ {l m : Location}, Plain doc l → Plain doc m →
      position doc l.segments <+: position doc m.segments → m.startsWith l = true := by
    intro l m plain plain' inside
    have texts := inside.map Step.text
    rw [Location.startsWith, List.isPrefixOf_iff_prefix, ← plain, ← plain']
    exact texts
  refine ⟨fun inside => ?_, fun inside => ?_⟩
  · exact Bool.false_ne_true (outside'.symm.trans (around plain plain' inside))
  · exact Bool.false_ne_true (outside.symm.trans (around plain' plain inside))

/- A value is left out of the object or the list that held it. The others keep their order; the
elements behind it come one place forward. -/
inductive Lacks (s : String) (x : Value) : Value → Value → Prop
  | member {before after : Members} (first : s ∉ Entries.keys before) :
      Lacks s x (.obj (before ++ (s, x) :: after)) (.obj (before ++ after))
  | element {before after : List Value} (named : index? s = some before.length) :
      Lacks s x (.arr (before ++ x :: after)) (.arr (before ++ after))

section Remove
variable {v v' x : Value} {l : List String} {s : String}

theorem erasedMember {members : Members} (held : members.lookup s = some x) :
    Lacks s x (.obj members) (.obj (Entries.erase s members)) := by
  obtain ⟨before, after, split, first⟩ : ∃ before after,
      members = before ++ (s, x) :: after ∧ s ∉ Entries.keys before := by
    induction members with
    | nil => simp at held
    | cons e r ih =>
      obtain ⟨k, w⟩ := e
      by_cases here : s = k
      · simp only [List.lookup_cons, here, beq_self_eq_true, Option.some.injEq] at held
        exact ⟨[], r, by simp [here, held], List.not_mem_nil⟩
      · rw [List.lookup_cons, beq_eq_false_iff_ne.mpr here] at held
        obtain ⟨before, after, rfl, first⟩ := ih held
        exact ⟨(k, w) :: before, after, rfl, by simpa [Entries.keys, here] using first⟩
  have others : ∀ e ∈ before, ¬ (e.1 == s) = true := by
    intro e mem same
    exact first (List.mem_map.mpr ⟨e, mem, eq_of_beq same⟩)
  have erased : Entries.erase s members = before ++ after := by
    rw [Entries.erase, split, List.eraseP_append_right _ others, List.eraseP_cons_of_pos (by simp)]
  rw [erased, split]
  exact .member first

theorem erasedElement {items : List Value} {i : Nat} (named : index? s = some i)
    (held : items[i]? = some x) : Lacks s x (.arr items) (.arr (items.eraseIdx i)) := by
  obtain ⟨inside, at_⟩ := List.getElem?_eq_some_iff.mp held
  have split : items = items.take i ++ x :: items.drop (i + 1) := by
    rw [← at_, ← List.drop_eq_getElem_cons inside, List.take_append_drop]
  have long : (items.take i).length = i := List.length_take_of_le (Nat.le_of_lt inside)
  have lacks : Lacks s x (.arr (items.take i ++ x :: items.drop (i + 1)))
      (.arr (items.take i ++ items.drop (i + 1))) := .element (by rw [named, long])
  rwa [← split, ← List.eraseIdx_eq_take_drop_succ] at lacks

theorem takeOne {c c' : Value} (taken : take? [s] c = some (x, c')) :
    step? c s = some x ∧ Lacks s x c c' := by
  cases c with
  | obj members =>
    obtain ⟨w, held, same⟩ := Option.bind_eq_some_iff.mp taken
    cases same
    exact ⟨held, erasedMember held⟩
  | arr items =>
    obtain ⟨i, named, further⟩ := Option.bind_eq_some_iff.mp taken
    obtain ⟨w, held, same⟩ := Option.bind_eq_some_iff.mp further
    cases same
    exact ⟨by simp [step?, named, held], erasedElement named held⟩
  | _ => contradiction

theorem takeThere {c : Value} (held : step? c s = some x) : ∃ c', take? [s] c = some (x, c') := by
  cases c with
  | obj members =>
    have there : members.lookup s = some x := held
    exact ⟨_, by simp [take?, there]; rfl⟩
  | arr items =>
    obtain ⟨i, named, there⟩ := Option.bind_eq_some_iff.mp held
    exact ⟨_, by simp [take?, named, there]; rfl⟩
  | _ => contradiction

theorem takeRewrites (l : List String) (s : String) (v : Value) : take? (l ++ [s]) v =
    (walk? l v).bind fun c => (take? [s] c).bind fun t => (write? t.2 l v).map fun v' => (t.1, v') := by
  induction l generalizing v with
  | nil => cases h : take? [s] v <;> simp [walk?, write?, h]
  | cons k l ih =>
    cases v with
    | obj members =>
      cases held : members.lookup k with
      | none => simp [take?, walk?, step?, held]
      | some w =>
        simp [take?, walk?, step?, held, ih, write?, opened, Option.map_bind, Function.comp_def]
    | arr items =>
      cases named : index? k with
      | none => simp [take?, walk?, step?, named]
      | some i =>
        cases held : items[i]? with
        | none => simp [take?, walk?, step?, named, held]
        | some w =>
          simp [take?, walk?, step?, named, held, ih, write?, opened, Option.map_bind,
            Function.comp_def]
    | _ => simp [take?, walk?, step?]

end Remove

structure Written (doc : Value) (l : Location) (v doc' : Value) (done : Bool) : Prop where
  reads : done = true → get? l doc' = some v
  others : done = true → ∀ m, Plain doc l → Plain doc m → l.startsWith m = false →
    m.startsWith l = false → get? m doc' = get? m doc
  unchanged : done = false → doc' = doc
  blocked : done = false ↔ Blocked l.segments doc

structure Removed (doc : Value) (l : Location) (out : Option Value) (doc' : Value) : Prop where
  returned : l.isRoot = false → out = get? l doc
  root : l.isRoot = true → out = none
  unchanged : out = none → doc' = doc
  taken : ∀ x, out = some x → ∃ p s c c', l = p.child s ∧ get? p doc = some c ∧ Lacks s x c c' ∧
    set? p c' doc = some doc' ∧ get? p doc' = some c' ∧ ∀ m, Plain doc p → Plain doc m →
      p.startsWith m = false → m.startsWith p = false → get? m doc' = get? m doc

theorem setWritten {doc v doc' : Value} {l : Location} (written : set? l v doc = some doc') :
    get? l doc' = some v ∧ ∀ m, Plain doc l → Plain doc m → l.startsWith m = false →
      m.startsWith l = false → get? m doc' = get? m doc :=
  ⟨setReads written, fun _ plain plain' outside outside' =>
    ((writeFollowed written).apart (plainApart plain plain' outside outside')).1⟩

theorem splitLocation {l : Location} (inner : l.isRoot = false) : ∃ p s, l = Location.child p s := by
  obtain ⟨segments⟩ := l
  rcases List.eq_nil_or_concat segments with rfl | ⟨p, s, rfl⟩
  · contradiction
  · exact ⟨⟨p⟩, s, by simp [Location.child]⟩

theorem removeReads (doc : Value) (p : Location) (s : String) :
    (remove? (p.child s) doc).map Prod.fst = get? (p.child s) doc := by
  rw [getChild, remove?, Location.child, takeRewrites]
  cases held : walk? p.segments doc with
  | none => simp [get?, held]
  | some c =>
    simp only [get?, held, Option.bind_some]
    cases there : step? c s with
    | none =>
      have absent : take? [s] c = none := by
        rw [Option.eq_none_iff_forall_ne_some]
        intro t taken
        rw [(takeOne taken).1] at there
        contradiction
      simp [absent]
    | some x =>
      obtain ⟨c', taken⟩ := takeThere there
      obtain ⟨doc', written, _⟩ := writeThere held c'
      simp [taken, written]

theorem removeTakes {doc x doc' : Value} {p : Location} {s : String}
    (removed : remove? (p.child s) doc = some (x, doc')) :
    ∃ c c', get? p doc = some c ∧ Lacks s x c c' ∧ set? p c' doc = some doc' := by
  rw [remove?, Location.child, takeRewrites] at removed
  obtain ⟨c, held, further⟩ := Option.bind_eq_some_iff.mp removed
  obtain ⟨⟨y, c'⟩, taken, last⟩ := Option.bind_eq_some_iff.mp further
  obtain ⟨w, written, same⟩ := Option.map_eq_some_iff.mp last
  cases same
  exact ⟨c, c', held, (takeOne taken).2, written⟩

theorem sessionSets (doc v : Value) (l : Location) : Session.set ⟨some doc⟩ l v =
    (⟨some ((set? l v doc).getD doc)⟩, .ok (set? l v doc).isSome) := by
  have same : setInPlace l v doc = ((set? l v doc).getD doc, (set? l v doc).isSome) :=
    writtenInPlace v l.segments doc
  simp only [Session.set, Session.update, Session.change, same]

/- What a session does at a location of its document. -/
theorem treeAccessed (doc v : Value) (l : Location) :
    (∃ doc' done, Session.set ⟨some doc⟩ l v = (⟨some doc'⟩, .ok done) ∧ Written doc l v doc' done) ∧
    ∃ doc' out, Session.remove ⟨some doc⟩ l = (⟨some doc'⟩, .ok out) ∧ Removed doc l out doc' := by
  constructor
  · refine ⟨_, _, sessionSets doc v l, ?_⟩
    have blocked : set? l v doc = none ↔ Blocked l.segments doc := blockedIff
    cases written : set? l v doc with
    | none => exact ⟨nofun, nofun, fun _ => rfl, by simp [← blocked, written]⟩
    | some doc' =>
      obtain ⟨reads, others⟩ := setWritten written
      exact ⟨fun _ => reads, fun _ => others, nofun, by simp [← blocked, written]⟩
  · cases root : l.isRoot with
    | true =>
      obtain ⟨segments⟩ := l
      cases List.isEmpty_iff.mp root
      exact ⟨doc, none, rfl, nofun, fun _ => rfl, fun _ => rfl, nofun⟩
    | false =>
      obtain ⟨p, s, rfl⟩ := splitLocation root
      have reads := removeReads doc p s
      cases removed : remove? (p.child s) doc with
      | none =>
        rw [removed] at reads
        refine ⟨doc, none, by simp [Session.remove, Session.update, Session.change, removed], ?_⟩
        exact ⟨fun _ => reads, fun _ => rfl, fun _ => rfl, nofun⟩
      | some taken =>
        obtain ⟨x, doc'⟩ := taken
        rw [removed] at reads
        refine ⟨doc', some x, by simp [Session.remove, Session.update, Session.change, removed], ?_⟩
        obtain ⟨c, c', held, lacks, written⟩ := removeTakes removed
        obtain ⟨reads', others⟩ := setWritten written
        refine ⟨fun _ => reads, fun isRoot => by simp [root] at isRoot, nofun, fun y same => ?_⟩
        cases same
        exact ⟨p, s, c, c', rfl, held, lacks, written, reads', others⟩

example : setInPlace ⟨["a", "b", "c"]⟩ (.bool true) (.obj [("a", .null)]) =
    (.obj [("a", .obj [("b", .obj [("c", .bool true)])])], true) := rfl

example : setInPlace ⟨["a", "1", "b"]⟩ (.bool true) (.obj [("a", .arr [.null])]) =
    (.obj [("a", .arr [.null])], false) := rfl

end ApiGraph.Tree
