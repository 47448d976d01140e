/-! Sorting that keeps the order of what ranks alike. -/
namespace ApiGraph.Stable
variable {α : Type u} (le : α → α → Bool)

def insert (x : α) : List α → List α
  | [] => [x]
  | y :: r => if le x y then x :: y :: r else y :: insert x r

def sort : List α → List α
  | [] => []
  | x :: r => insert le x (sort r)

theorem insertPerm (x : α) (xs : List α) : (insert le x xs).Perm (x :: xs) := by
  induction xs with
  | nil => exact .refl _
  | cons y r ih =>
    unfold insert
    split
    · exact .refl _
    · exact (ih.cons y).trans (.swap x y r)

theorem sortPerm (xs : List α) : (sort le xs).Perm xs := by
  induction xs with
  | nil => exact .refl _
  | cons x r ih => exact (insertPerm le x _).trans (ih.cons x)

section Order
variable {le : α → α → Bool} {S : α → α → Prop}

def Sorted (le : α → α → Bool) (S : α → α → Prop) (a b : α) : Prop :=
  le a b = true ∧ (le b a = true → S a b)

theorem insertSorted (total : ∀ a b, le a b = true ∨ le b a = true)
    (trans : ∀ a b c, le a b = true → le b c = true → le a c = true) {x : α} {xs : List α}
    (first : ∀ y ∈ xs, S x y) (sorted : xs.Pairwise (Sorted le S)) :
    (insert le x xs).Pairwise (Sorted le S) := by
  induction xs with
  | nil => simp [insert]
  | cons y r ih =>
    obtain ⟨least, rest⟩ := List.pairwise_cons.mp sorted
    unfold insert
    cases here : le x y with
    | true =>
      simp only [if_true]
      refine List.pairwise_cons.mpr ⟨fun z mem => ?_, sorted⟩
      refine ⟨?_, fun _ => first z mem⟩
      rcases List.mem_cons.mp mem with rfl | later
      · exact here
      · exact trans x y z here (least z later).1
    | false =>
      simp only [Bool.false_eq_true, if_false]
      refine List.pairwise_cons.mpr ⟨fun z mem => ?_, ih (fun z mem => ?_) rest⟩
      · rcases List.mem_cons.mp ((insertPerm le x r).mem_iff.mp mem) with rfl | later
        · refine ⟨(total y z).resolve_right (by simp [here]), fun back => ?_⟩
          simp [here] at back
        · exact least z later
      · exact first z (List.mem_cons_of_mem _ mem)

theorem sortSorted (total : ∀ a b, le a b = true ∨ le b a = true)
    (trans : ∀ a b c, le a b = true → le b c = true → le a c = true) {xs : List α}
    (came : xs.Pairwise S) : (sort le xs).Pairwise (Sorted le S) := by
  induction xs with
  | nil => exact .nil
  | cons x r ih =>
    obtain ⟨first, rest⟩ := List.pairwise_cons.mp came
    exact insertSorted total trans
      (fun y mem => first y ((sortPerm le r).mem_iff.mp mem)) (ih rest)

end Order
end ApiGraph.Stable
