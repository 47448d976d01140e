import ApiGraph.Merge
import ApiGraph.Proofs.Lawful
import Mathlib.Data.List.Basic

/-! One level of merging. A merge counts its levels, and the deeper of the two values has enough of
them, since nothing that is merged on the way is deeper; so with the count left out a merge is what
one level makes of merges further down. -/
namespace ApiGraph.Merge
open Json

def Directive.name : Directive → String
  | .replace name | .rename name | .positional name | .plain name => name

inductive Applied (merge : Value → Value → Value) (target : Members) (key : String) (v : Value) :
    Members → Prop
  | left : Applied merge target key v target
  | erased (name : String) : Applied merge target key v (Entries.erase name target)
  | written {name : String} {old : Value} (names : (Directive.ofKey key).name = name)
      (held : old = .null ∨ (name, old) ∈ target) :
      Applied merge target key v (Entries.put name (merge old v) target)
  | moved {old new : String} {x held : Value} (renames : Directive.ofKey key = .rename old)
      (text : v = .str new) (found : (old, x) ∈ target) (there : held = .null ∨ (new, held) ∈ target) :
      Applied merge target key v (Entries.put new (merge held x) (Entries.erase old target))
  | overlaid {name : String} {old items : List Value} (names : (Directive.ofKey key).name = name)
      (list : v = .arr items) (found : (name, .arr old) ∈ target) :
      Applied merge target key v
        (Entries.put name (.arr (overlay old (items.map (merge .null)))) target)

theorem applied (merge : Value → Value → Value) (target : Members) (key : String) (v : Value) :
    Applied merge target key v (applyMember merge target key v) := by
  unfold applyMember
  cases directive : Directive.ofKey key with
  | replace name =>
    dsimp only
    split
    · exact .erased name
    · exact .written (by rw [directive]; rfl) (.inl rfl)
  | rename old =>
    dsimp only
    split
    · rename_i new
      split
      · rename_i x found
        refine .moved directive rfl (Entries.mem_of_lookup found) ?_
        cases there : (Entries.erase old target).lookup new with
        | none => exact .inl rfl
        | some held => exact .inr (List.mem_of_mem_eraseP (Entries.mem_of_lookup there))
      · exact .left
    · exact .left
  | positional name =>
    dsimp only
    split
    · rename_i old items found
      exact .overlaid (by rw [directive]; rfl) rfl (Entries.mem_of_lookup found)
    · exact .written (by rw [directive]; rfl) (.inl rfl)
  | plain name =>
    dsimp only
    split
    · rename_i old found
      exact .written (by rw [directive]; rfl) (.inr (Entries.mem_of_lookup found))
    · exact .written (by rw [directive]; rfl) (.inl rfl)

theorem memOverlay {old new : List Value} {x : Value} (mem : x ∈ overlay old new) :
    x ∈ old ∨ x ∈ new := by
  induction old generalizing new with
  | nil =>
    cases new with
    | nil => exact .inr mem
    | cons => exact .inr mem
  | cons y old ih =>
    cases new with
    | nil => exact .inl mem
    | cons z new =>
      rcases List.mem_cons.mp mem with rfl | rest
      · exact .inr List.mem_cons_self
      · exact (ih rest).imp (List.mem_cons_of_mem _) (List.mem_cons_of_mem _)

theorem memAddNew {items : List Value} {x y : Value} (mem : y ∈ addNew items x) :
    y ∈ items ∨ y = x := by
  unfold addNew at mem
  split at mem
  · exact .inl mem
  · exact (List.mem_append.mp mem).imp_right List.mem_singleton.mp

def mergeLevel (merge : Value → Value → Value) (target : Value) : Value → Value
  | .obj members =>
    .obj (members.foldl (fun acc e => applyMember merge acc e.1 e.2) (target.members?.getD []))
  | .arr items => match target with
    | .arr old => .arr (items.foldl (fun acc x => addNew acc (merge .null x)) old)
    | _ => .arr (items.map (merge .null))
  | v => v

theorem mergeWithinLevel (level : Nat) (target source : Value) :
    mergeWithin (level + 1) target source = mergeLevel (mergeWithin level) target source := by
  cases source <;> rfl

section Depth
variable {merge merge' : Value → Value → Value} {target source v : Value} {members : Members}
  {bound : Nat}

theorem membersBelow (deep : target.depth ≤ bound) :
    ∀ e ∈ target.members?.getD [], e.2.depth < bound := by
  intro e mem
  cases target with
  | obj members => exact Nat.lt_of_lt_of_le (Value.depthOfMember mem) deep
  | _ => simp [Value.members?] at mem

theorem applyBelow (merges : ∀ x y, (merge x y).depth ≤ max x.depth y.depth)
    (each : ∀ e ∈ members, e.2.depth < bound) (deep : v.depth < bound) (key : String) :
    ∀ e ∈ applyMember merge members key v, e.2.depth < bound := by
  have reached : ∀ x y, x.depth < bound → y.depth < bound → (merge x y).depth < bound := by
    intro x y
    have := merges x y
    omega
  have below : ∀ {k : String} {x : Value}, x = .null ∨ (k, x) ∈ members → x.depth < bound := by
    rintro k x (rfl | mem)
    · exact Nat.zero_lt_of_lt deep
    · exact each _ mem
  have put : ∀ (es : Members) (k : String) {x : Value}, (∀ e ∈ es, e.2.depth < bound) →
      x.depth < bound → ∀ e ∈ Entries.put k x es, e.2.depth < bound := by
    intro es k x each deep e mem
    rcases Entries.memPut mem with rfl | old
    · exact deep
    · exact each e old
  have erased : ∀ name, ∀ e ∈ Entries.erase name members, e.2.depth < bound :=
    fun name e mem => each e (List.mem_of_mem_eraseP mem)
  have made := applied merge members key v
  generalize applyMember merge members key v = after at made
  cases made with
  | left => exact each
  | erased name => exact erased name
  | written names held => exact put _ _ each (reached _ _ (below held) deep)
  | moved _ _ found there => exact put _ _ (erased _) (reached _ _ (below there) (each _ found))
  | @overlaid name old items names list found =>
    subst list
    have deepOld : (Value.arr old).depth < bound := each _ found
    have parts : ∀ x ∈ overlay old (items.map (merge .null)), x.depth < bound - 1 := by
      intro x mem
      rcases memOverlay mem with there | new
      · have := Value.depthOfItem there
        omega
      · obtain ⟨y, inside, rfl⟩ := List.mem_map.mp new
        have := Value.depthOfItem inside
        have := merges .null y
        simp only [Value.depth, Nat.zero_max] at *
        omega
    have whole := Value.depthOfList (by simp only [Value.depth] at deepOld; omega) parts
    exact put _ _ each (by omega)

theorem levelBelow (merges : ∀ x y, (merge x y).depth ≤ max x.depth y.depth) :
    (mergeLevel merge target source).depth ≤ max target.depth source.depth := by
  cases source with
  | obj members =>
    refine Value.depthOfObject (by simp only [Value.depth]; omega) ?_
    refine List.foldlRecOn (motive := fun acc : Members => ∀ e ∈ acc, e.2.depth < _) members _
      (membersBelow (Nat.le_max_left _ _)) fun acc kept e mem => applyBelow merges kept ?_ e.1
    exact Nat.lt_of_lt_of_le (Value.depthOfMember mem) (Nat.le_max_right _ _)
  | arr items =>
    have fresh : ∀ x ∈ items, (merge .null x).depth < max target.depth (Value.arr items).depth := by
      intro x mem
      have := Value.depthOfItem mem
      have := merges .null x
      simp only [Value.depth, Nat.zero_max] at *
      omega
    have positive : 0 < max target.depth (Value.arr items).depth := by
      simp only [Value.depth]
      omega
    cases target with
    | arr old =>
      refine Value.depthOfList positive ?_
      refine List.foldlRecOn (motive := fun acc : List Value => ∀ x ∈ acc, x.depth < _) items _
        (fun x mem => Nat.lt_of_lt_of_le (Value.depthOfItem mem) (Nat.le_max_left _ _))
        fun acc kept x mem y inside => ?_
      rcases memAddNew inside with there | rfl
      · exact kept y there
      · exact fresh x mem
    | _ =>
      refine Value.depthOfList positive fun y mem => ?_
      obtain ⟨x, inside, rfl⟩ := List.mem_map.mp mem
      exact fresh x inside
  | _ => simp [mergeLevel, Value.depth]

theorem withinBelow (level : Nat) (target source : Value) :
    (mergeWithin level target source).depth ≤ max target.depth source.depth := by
  induction level generalizing target source with
  | zero => exact Nat.le_max_left _ _
  | succ level ih =>
    rw [mergeWithinLevel]
    exact levelBelow ih

end Depth

section Levels
variable {merge merge' : Value → Value → Value} {target source v : Value} {members : Members}
  {bound : Nat}

theorem applyCongr (agree : ∀ x y, x.depth < bound → y.depth < bound → merge x y = merge' x y)
    (each : ∀ e ∈ members, e.2.depth < bound) (deep : v.depth < bound) (key : String) :
    applyMember merge members key v = applyMember merge' members key v := by
  have positive : (Value.null).depth < bound := Nat.zero_lt_of_lt deep
  unfold applyMember
  cases Directive.ofKey key with
  | replace name => simp only [agree _ _ positive deep]
  | rename old =>
    dsimp only
    split
    · rename_i new
      split
      · rename_i x found
        have deepHeld : (((Entries.erase old members).lookup new).getD .null).depth < bound := by
          cases there : (Entries.erase old members).lookup new with
          | none => exact positive
          | some held => exact each _ (List.mem_of_mem_eraseP (Entries.mem_of_lookup there))
        rw [agree _ _ deepHeld (each _ (Entries.mem_of_lookup found))]
      · rfl
    · rfl
  | positional name =>
    dsimp only
    split
    · rename_i old items found
      have fresh : items.map (merge .null) = items.map (merge' .null) :=
        List.map_congr_left fun x mem =>
          agree _ _ positive (Nat.lt_trans (Value.depthOfItem mem) deep)
      rw [fresh]
    · rw [agree _ _ positive deep]
  | plain name =>
    dsimp only
    split
    · rename_i old found
      rw [agree _ _ (each _ (Entries.mem_of_lookup found)) deep]
    · rw [agree _ _ positive deep]

theorem foldCongr {α β : Type} {f g : β → α → β} {P : β → Prop} {xs : List α} {b : β} (start : P b)
    (kept : ∀ b, P b → ∀ x ∈ xs, P (f b x)) (same : ∀ b, P b → ∀ x ∈ xs, f b x = g b x) :
    xs.foldl f b = xs.foldl g b := by
  induction xs generalizing b with
  | nil => rfl
  | cons x r ih =>
    rw [List.foldl_cons, List.foldl_cons, ← same b start x List.mem_cons_self]
    exact ih (kept b start x List.mem_cons_self)
      (fun b held y mem => kept b held y (List.mem_cons_of_mem _ mem))
      (fun b held y mem => same b held y (List.mem_cons_of_mem _ mem))

theorem levelCongr (merges : ∀ x y, (merge x y).depth ≤ max x.depth y.depth)
    (agree : ∀ x y, x.depth < bound → y.depth < bound → merge x y = merge' x y)
    (deep : target.depth ≤ bound) (deep' : source.depth ≤ bound) :
    mergeLevel merge target source = mergeLevel merge' target source := by
  cases source with
  | obj members =>
    have each : ∀ e ∈ members, e.2.depth < bound :=
      fun e mem => Nat.lt_of_lt_of_le (Value.depthOfMember mem) deep'
    refine congrArg Value.obj (foldCongr (P := fun acc : Members => ∀ e ∈ acc, e.2.depth < bound)
      (membersBelow deep) (fun acc kept e mem => ?_) fun acc kept e mem => ?_)
    · exact applyBelow merges kept (each e mem) e.1
    · exact applyCongr agree kept (each e mem) e.1
  | arr items =>
    have fresh : ∀ x ∈ items, merge .null x = merge' .null x := by
      intro x mem
      have small := Nat.lt_of_lt_of_le (Value.depthOfItem mem) deep'
      exact agree _ _ (Nat.zero_lt_of_lt small) small
    cases target with
    | arr old =>
      refine congrArg Value.arr (List.foldl_ext _ _ _ fun acc x mem => ?_)
      rw [fresh x mem]
    | _ => exact congrArg Value.arr (List.map_congr_left fresh)
  | _ => rfl

end Levels

theorem withinEnough {level level' : Nat} (target source : Value) (deep : target.depth < level)
    (deep' : source.depth < level) (more : target.depth < level') (more' : source.depth < level') :
    mergeWithin level target source = mergeWithin level' target source := by
  -- one level down both values are less deep, and both counts are one less
  induction level generalizing level' target source with
  | zero => omega
  | succ level ih =>
    cases level' with
    | zero => omega
    | succ level' =>
      rw [mergeWithinLevel, mergeWithinLevel]
      have agree : ∀ x y, x.depth < min level level' → y.depth < min level level' →
          mergeWithin level x y = mergeWithin level' x y :=
        fun x y small small' => ih x y (by omega) (by omega) (by omega) (by omega)
      exact levelCongr (withinBelow level) agree (by omega) (by omega)

theorem mergeIs (target source : Value) : merge target source = mergeLevel merge target source := by
  rw [merge, mergeWithinLevel]
  refine levelCongr (withinBelow _) (fun x y small small' => ?_) (Nat.le_max_left _ _)
    (Nat.le_max_right _ _)
  exact withinEnough x y small small' (by omega) (by omega)

theorem mergeObject (target : Value) (members : Members) : merge target (.obj members) =
    .obj (members.foldl (fun acc e => applyMember merge acc e.1 e.2) (target.members?.getD [])) :=
  mergeIs target _

theorem mergeLists (old items : List Value) : merge (.arr old) (.arr items) =
    .arr (items.foldl (fun acc x => addNew acc (merge .null x)) old) :=
  mergeIs _ _

theorem mergeList {target : Value} (unlike : target.items? = none) (items : List Value) :
    merge target (.arr items) = .arr (items.map (merge .null)) := by
  rw [mergeIs]
  cases target with
  | arr _ => contradiction
  | _ => rfl

theorem mergeLeaf {source : Value} (noItems : source.items? = none)
    (noMembers : source.members? = none) (target : Value) : merge target source = source := by
  rw [mergeIs]
  cases source with
  | arr _ => contradiction
  | obj _ => contradiction
  | _ => rfl

end ApiGraph.Merge
