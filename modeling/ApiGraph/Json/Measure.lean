import ApiGraph.Json.Value

/-! Sizes of a value, as bounds for walks through it. -/
namespace ApiGraph.Json.Value

mutual
def depth : Value → Nat
  | .arr items => depthItems items + 1
  | .obj members => depthMembers members + 1
  | _ => 0
termination_by structural v => v
def depthItems : List Value → Nat
  | [] => 0
  | x :: r => max (depth x) (depthItems r)
termination_by structural xs => xs
def depthMembers : List (String × Value) → Nat
  | [] => 0
  | (_, x) :: r => max (depth x) (depthMembers r)
termination_by structural xs => xs
end

mutual
def size : Value → Nat
  | .arr items => sizeItems items + 1
  | .obj members => sizeMembers members + 1
  | _ => 1
termination_by structural v => v
def sizeItems : List Value → Nat
  | [] => 0
  | x :: r => size x + sizeItems r
termination_by structural xs => xs
def sizeMembers : List (String × Value) → Nat
  | [] => 0
  | (_, x) :: r => size x + sizeMembers r
termination_by structural xs => xs
end

mutual
def pointers : Value → List String
  | .arr items => pointersOfItems items
  | .obj members => ((refOf (.obj members)).toList) ++ pointersOfMembers members
  | _ => []
termination_by structural v => v
def pointersOfItems : List Value → List String
  | [] => []
  | x :: r => pointers x ++ pointersOfItems r
termination_by structural xs => xs
def pointersOfMembers : List (String × Value) → List String
  | [] => []
  | (_, x) :: r => pointers x ++ pointersOfMembers r
termination_by structural xs => xs
end

theorem depthOfItem {items : List Value} {x : Value} (mem : x ∈ items) :
    x.depth < (Value.arr items).depth := by
  have bound : x.depth ≤ depthItems items := by
    induction items with
    | nil => cases mem
    | cons y r ih =>
      simp only [depthItems]
      rcases List.mem_cons.mp mem with rfl | rest
      · omega
      · have := ih rest
        omega
  simp only [depth]
  omega

theorem depthOfMember {members : Members} {e : String × Value} (mem : e ∈ members) :
    e.2.depth < (Value.obj members).depth := by
  have bound : e.2.depth ≤ depthMembers members := by
    induction members with
    | nil => cases mem
    | cons y r ih =>
      simp only [depthMembers]
      rcases List.mem_cons.mp mem with rfl | rest
      · omega
      · have := ih rest
        omega
  simp only [depth]
  omega

theorem pointersOfItem {items : List Value} {x : Value} (mem : x ∈ items) :
    x.pointers ⊆ (Value.arr items).pointers := by
  simp only [pointers]
  induction items with
  | nil => cases mem
  | cons y r ih =>
    simp only [pointersOfItems]
    rcases List.mem_cons.mp mem with rfl | rest
    · exact List.subset_append_left _ _
    · exact List.Subset.trans (ih rest) (List.subset_append_right _ _)

theorem pointersOfMember {members : Members} {e : String × Value} (mem : e ∈ members) :
    e.2.pointers ⊆ (Value.obj members).pointers := by
  have inside : e.2.pointers ⊆ pointersOfMembers members := by
    induction members with
    | nil => cases mem
    | cons y r ih =>
      simp only [pointersOfMembers]
      rcases List.mem_cons.mp mem with rfl | rest
      · exact List.subset_append_left _ _
      · exact List.Subset.trans (ih rest) (List.subset_append_right _ _)
  simp only [pointers]
  exact List.Subset.trans inside (List.subset_append_right _ _)

theorem depthItemsBelow {xs : List Value} {n : Nat} (each : ∀ x ∈ xs, x.depth ≤ n) :
    depthItems xs ≤ n := by
  induction xs with
  | nil => simp [depthItems]
  | cons x r ih =>
    obtain ⟨here, later⟩ := List.forall_mem_cons.mp each
    exact Nat.max_le.mpr ⟨here, ih later⟩

theorem depthMembersBelow {es : Members} {n : Nat} (each : ∀ e ∈ es, e.2.depth ≤ n) :
    depthMembers es ≤ n := by
  induction es with
  | nil => simp [depthMembers]
  | cons e r ih =>
    obtain ⟨here, later⟩ := List.forall_mem_cons.mp each
    exact Nat.max_le.mpr ⟨here, ih later⟩

theorem depthOfList {items : List Value} {n : Nat} (positive : 0 < n)
    (each : ∀ x ∈ items, x.depth < n) : (Value.arr items).depth ≤ n := by
  have whole := depthItemsBelow fun x mem => Nat.le_sub_one_of_lt (each x mem)
  simp only [depth]
  omega

theorem depthOfObject {members : Members} {n : Nat} (positive : 0 < n)
    (each : ∀ e ∈ members, e.2.depth < n) : (Value.obj members).depth ≤ n := by
  have whole := depthMembersBelow fun e mem => Nat.le_sub_one_of_lt (each e mem)
  simp only [depth]
  omega

end ApiGraph.Json.Value
