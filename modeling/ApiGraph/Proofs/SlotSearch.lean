import ApiGraph.Proofs.Endings
import ApiGraph.Proofs.Remapping

/-! The search for a slot comes to an end. The slots that it passes over are owned by a source or held
by the root, and they are all different, so that it does not pass over every sibling. -/
namespace ApiGraph.Json.Value

theorem sizePositive (v : Value) : 0 < v.size := by
  cases v <;> simp [size]

theorem itemSize {items : List Value} {x : Value} (mem : x ∈ items) :
    x.size ≤ (Value.arr items).size := by
  have inside : x.size ≤ sizeItems items := by
    induction items with
    | nil => cases mem
    | cons y r ih =>
      simp only [sizeItems]
      rcases List.mem_cons.mp mem with rfl | rest
      · omega
      · have := ih rest
        omega
  simp only [size]
  omega

theorem memberSize {members : Members} {e : String × Value} (mem : e ∈ members) :
    e.2.size ≤ (Value.obj members).size := by
  have inside : e.2.size ≤ sizeMembers members := by
    induction members with
    | nil => cases mem
    | cons y r ih =>
      simp only [sizeMembers]
      rcases List.mem_cons.mp mem with rfl | rest
      · omega
      · have := ih rest
        omega
  simp only [size]
  omega

theorem membersSize (members : Members) : members.length < (Value.obj members).size := by
  have inside : members.length ≤ sizeMembers members := by
    induction members with
    | nil => simp
    | cons e r ih =>
      have := sizePositive e.2
      simp only [List.length_cons, sizeMembers]
      omega
  simp only [size]
  omega

end ApiGraph.Json.Value

namespace ApiGraph.Location

theorem childPointer {l : Location} {a b : String}
    (same : (l.child a).toPointer = (l.child b).toPointer) : a = b := by
  have text := congrArg String.toList same
  simp only [toPointer, child, String.toList_ofList, List.flatMap_append, List.cons.injEq, true_and,
    List.append_cancel_left_eq, List.flatMap_cons, List.flatMap_nil, List.append_nil] at text
  have back := congrArg unescape text
  rw [unescapeEscape, unescapeEscape] at back
  exact String.toList_injective back

end ApiGraph.Location

namespace ApiGraph.Tree
open Json

def keysAt (l : Location) (doc : Value) : List String :=
  match get? l doc with
  | some (.obj members) => Entries.keys members
  | _ => []

section KeysAt
variable {l : Location} {doc : Value}

theorem keysAtFew : (keysAt l doc).length ≤ doc.size := by
  unfold keysAt
  split
  · rename_i members held
    have inside : (Value.obj members).size ≤ doc.size :=
      walkKept (P := fun v => v.size ≤ doc.size)
        (fun xs fits x mem => Nat.le_trans (Value.itemSize mem) fits)
        (fun es fits e mem => Nat.le_trans (Value.memberSize mem) fits) (Nat.le_refl _) held
    have fewer := Value.membersSize members
    rw [Entries.keys, List.length_map]
    omega
  · exact Nat.zero_le _

theorem keyHeld {s : String} (key : index? s = none) (held : (get? (l.child s) doc).isSome = true) :
    s ∈ keysAt l doc := by
  obtain ⟨w, held⟩ := Option.isSome_iff_exists.mp held
  rw [getChild] at held
  obtain ⟨v, there, step⟩ := Option.bind_eq_some_iff.mp held
  cases v with
  | obj members =>
    rw [keysAt, there]
    exact List.mem_map_of_mem (Entries.mem_of_lookup step)
  | arr items => simp [step?, key] at step
  | _ => contradiction

theorem indexDigits {s : String} {c : Char} (mem : c ∈ s.toList) (plus : c ≠ '+')
    (other : ¬ ('0' ≤ c ∧ c ≤ '9')) : index? s = none := by
  have refused : ∀ cs : List Char, c ∈ cs → digitsIndex? cs = none := by
    intro cs inside
    have fails : cs.all (fun c => decide ('0' ≤ c) && decide (c ≤ '9')) = false := by
      rw [List.all_eq_false]
      exact ⟨c, inside, by simpa using other⟩
    simp [digitsIndex?, fails]
  unfold index?
  split
  · rename_i r split
    rw [split] at mem
    exact refused r ((List.mem_cons.mp mem).resolve_left plus)
  · exact refused _ mem

end KeysAt

end ApiGraph.Tree

namespace ApiGraph.Bundle
open Json ApiGraph.Tree Location

def suffixed (parent : Location) (name : String) (n : Nat) : Location :=
  parent.child (name ++ "_" ++ toString n)

theorem suffixedInj {parent : Location} {name : String} {i j : Nat}
    (same : (suffixed parent name i).toPointer = (suffixed parent name j).toPointer) : i = j := by
  have text := congrArg String.toList (childPointer same)
  simp only [String.toList_append, List.append_cancel_left_eq] at text
  exact numeralInj (String.toList_injective text)

theorem suffixedHeld {parent : Location} {name : String} {n : Nat} {doc : Value}
    (held : (Tree.get? (suffixed parent name n) doc).isSome = true) :
    name ++ "_" ++ toString n ∈ keysAt parent doc :=
  keyHeld (indexDigits (c := '_') (by simp) (by decide) (by decide)) held

theorem siblings (l : Location) : (∃ e, ∀ n, sibling l n = .error (.resolve e)) ∨
    ∃ parent name, ∀ n, sibling l n = .ok (suffixed parent name n) := by
  unfold sibling
  cases l.parent? with
  | none => exact .inl ⟨_, fun _ => rfl⟩
  | some parent =>
    cases l.last? with
    | none => exact .inl ⟨_, fun _ => rfl⟩
    | some name => exact .inr ⟨parent, name, fun _ => rfl⟩

def Taken (files : Files) (owners : List (String × Key)) (l : Location) : Prop :=
  Entries.has l.toPointer owners = true ∨ (Tree.get? l files.root).isSome = true

section Search
variable {files : Files} {owners : List (String × Key)} {l target : Location} {v : Value}
  {tries more n : Nat}

/- A search stops at a slot, or the slot is taken and the search goes on to a sibling. -/
theorem searchStep (files : Files) (owners : List (String × Key)) (l : Location) (v : Value) (n : Nat)
    (target : Location) :
    (∃ reuse, ∀ tries, findSlot files owners l v (tries + 1) n target = .ok (target, reuse)) ∨
    Taken files owners target ∧ ∀ tries, findSlot files owners l v (tries + 1) n target =
      sibling l (n + 1) >>= findSlot files owners l v tries (n + 1) := by
  simp only [findSlot]
  split
  · rename_i owned
    exact .inr ⟨.inl owned, fun _ => rfl⟩
  · split
    · exact .inl ⟨false, fun _ => rfl⟩
    · rename_i w held
      split
      · exact .inl ⟨true, fun _ => rfl⟩
      · exact .inr ⟨.inr (by simp [held]), fun _ => rfl⟩

theorem passedOver {parent : Location} {name : String}
    (beside : ∀ n, sibling l n = .ok (suffixed parent name n))
    (stuck : findSlot files owners l v tries n (suffixed parent name n) = .error .unfinished) :
    ∀ i < tries, Taken files owners (suffixed parent name (n + i)) := by
  induction tries generalizing n with
  | zero => nofun
  | succ tries ih =>
    rcases searchStep files owners l v n (suffixed parent name n) with
      ⟨_, found⟩ | ⟨taken, next⟩
    · rw [found] at stuck
      contradiction
    · rw [next, beside] at stuck
      intro i small
      cases i with
      | zero => exact taken
      | succ i =>
        have later := ih stuck i (Nat.lt_of_succ_lt_succ small)
        rwa [Nat.add_right_comm] at later

theorem takenFew {parent : Location} {name : String}
    (taken : ∀ i < tries, Taken files owners (suffixed parent name (n + i))) :
    tries ≤ owners.length + files.root.size := by
  have apart : ((List.range tries).map fun i => (suffixed parent name (n + i)).toPointer).Nodup := by
    refine List.Nodup.map (fun i j same => ?_) List.nodup_range
    have numbers := suffixedInj same
    omega
  have inside : ((List.range tries).map fun i => (suffixed parent name (n + i)).toPointer) ⊆
      Entries.keys owners ++ (keysAt parent files.root).map fun key => (parent.child key).toPointer := by
    intro q mem
    obtain ⟨i, small, rfl⟩ := List.mem_map.mp mem
    rw [List.mem_append]
    rcases taken i (List.mem_range.mp small) with owned | held
    · exact .inl (Entries.hasIff.mp owned)
    · exact .inr (List.mem_map_of_mem (suffixedHeld held))
  have fits := (apart.subperm inside).length_le
  have few : (keysAt parent files.root).length ≤ files.root.size := keysAtFew
  simp only [List.length_map, List.length_range, List.length_append, Entries.keys] at fits
  omega

theorem searchEnds (enough : owners.length + files.root.size + 2 ≤ tries) :
    findSlot files owners l v tries 0 l ≠ .error .unfinished := by
  intro stuck
  obtain ⟨tries, rfl⟩ := Nat.exists_eq_succ_of_ne_zero (show tries ≠ 0 by omega)
  rcases searchStep files owners l v 0 l with ⟨_, found⟩ | ⟨_, next⟩
  · rw [found] at stuck
    contradiction
  · rw [next] at stuck
    rcases siblings l with ⟨e, none⟩ | ⟨parent, name, beside⟩
    · rw [none] at stuck
      cases stuck
    · rw [beside] at stuck
      have few := takenFew (passedOver beside stuck)
      omega

theorem searchMore (ended : findSlot files owners l v tries n target ≠ .error .unfinished)
    (enough : tries ≤ more) :
    findSlot files owners l v more n target = findSlot files owners l v tries n target := by
  induction tries generalizing more n target with
  | zero => exact absurd rfl ended
  | succ tries ih =>
    obtain ⟨more, rfl⟩ := Nat.exists_eq_succ_of_ne_zero (show more ≠ 0 by omega)
    rcases searchStep files owners l v n target with ⟨_, found⟩ | ⟨_, next⟩
    · rw [found, found]
    · rw [next] at ended
      rw [next, next]
      cases beside : sibling l (n + 1) with
      | error e => rfl
      | ok t =>
        rw [beside] at ended
        exact ih ended (Nat.le_of_succ_le_succ enough)

theorem searchAnswers (files : Files) (owners : List (String × Key)) (l : Location) (v : Value) :
    Answers (owners.length + files.root.size + 2) fun tries => findSlot files owners l v tries 0 l :=
  ⟨_, searchEnds (Nat.le_refl _), fun _ enough => searchMore (searchEnds (Nat.le_refl _)) enough⟩

theorem searchFails {e : Failure} (failed : findSlot files owners l v tries n target = .error e) :
    e = .unfinished ∨ ∃ cause, e = .resolve cause := by
  induction tries generalizing n target with
  | zero =>
    cases failed
    exact .inl rfl
  | succ tries ih =>
    rcases searchStep files owners l v n target with ⟨_, found⟩ | ⟨_, next⟩
    · rw [found] at failed
      contradiction
    · rw [next] at failed
      rcases siblings l with ⟨cause, none⟩ | ⟨parent, name, beside⟩
      · rw [none] at failed
        cases failed
        exact .inr ⟨cause, rfl⟩
      · rw [beside] at failed
        exact ih failed

end Search

end ApiGraph.Bundle
