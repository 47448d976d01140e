import ApiGraph.Proofs.DeepMerge
import ApiGraph.Proofs.Writes

/-! Directives of a fragment. A directive is used up by the merge that reads it: what is written is
merged into nothing before, on every way into the document, so that no directive is left there. And it
reaches no further than the names it gives: beside them an object, and the document around the object,
stays what it was. -/
namespace ApiGraph.Merge
open Json ApiGraph.Tree

def directedMember (e : String × Value) : Bool :=
  decide (Directive.ofKey (Directive.ofKey e.1).name = .plain (Directive.ofKey e.1).name) &&
  match Directive.ofKey e.1, e.2 with
  | .rename _, .str new => decide (Directive.ofKey new = .plain new)
  | _, _ => true

def directedOnce (v : Value) : Bool := v.everyObject fun members => members.all directedMember

theorem directedList {items : List Value} :
    directedOnce (.arr items) = true ↔ ∀ x ∈ items, directedOnce x = true := Value.everyObjectList

theorem directedObject {members : Members} : directedOnce (.obj members) = true ↔
    ∀ e ∈ members, directedMember e = true ∧ directedOnce e.2 = true := by
  rw [directedOnce, Value.everyObjectHere, List.all_eq_true, ← forall₂_and]
  rfl

theorem directedName {key name : String} {v : Value} (once : directedMember (key, v) = true)
    (names : (Directive.ofKey key).name = name) : Directive.ofKey name = .plain name := by
  have first := (Bool.and_eq_true_iff.mp once).1
  simpa only [names, decide_eq_true_eq] using first

theorem directedText {key old new : String} (once : directedMember (key, .str new) = true)
    (renames : Directive.ofKey key = .rename old) : Directive.ofKey new = .plain new := by
  simpa [renames] using (Bool.and_eq_true_iff.mp once).2

theorem undirectedOnce {v : Value} (plain : undirected v = true) : directedOnce v = true := by
  induction v using Value.fromParts with
  | items xs ih => exact directedList.mpr fun x mem => ih x mem (undirectedList.mp plain x mem)
  | members es ih =>
    refine directedObject.mpr fun e mem => ?_
    obtain ⟨key, inner⟩ := undirectedObject.mp plain e mem
    exact ⟨by simp [directedMember, key, Directive.name], ih e mem inner⟩
  | leaf v noItems noMembers =>
    cases v with
    | arr _ => contradiction
    | obj _ => contradiction
    | _ => rfl

section Undirected
variable {merge : Value → Value → Value}
  (merges : ∀ x y, undirected x = true → directedOnce y = true → undirected (merge x y) = true)
include merges

theorem applyUndirected {target : Members} (before : undirected (.obj target) = true)
    {e : String × Value} (once : directedMember e = true) (inner : directedOnce e.2 = true) :
    undirected (.obj (applyMember merge target e.1 e.2)) = true := by
  have there : ∀ {k x}, x = .null ∨ (k, x) ∈ target → undirected x = true := by
    rintro k x (rfl | mem)
    · rfl
    · exact (undirectedObject.mp before _ mem).2
  have erased : ∀ name, undirected (.obj (Entries.erase name target)) = true := fun name =>
    undirectedObject.mpr fun e mem => undirectedObject.mp before e (List.mem_of_mem_eraseP mem)
  obtain ⟨key, v⟩ := e
  have made := applied merge target key v
  generalize applyMember merge target key v = after at made
  cases made with
  | left => exact before
  | erased name => exact erased name
  | written names held =>
    exact undirectedPut before (directedName once names) (merges _ _ (there held) inner)
  | moved renames text found held =>
    subst text
    -- the moved value is the document's own, so it has no directive at all
    exact undirectedPut (erased _) (directedText once renames)
      (merges _ _ (there held) (undirectedOnce (there (.inr found))))
  | overlaid names list found =>
    subst list
    refine undirectedPut before (directedName once names) (undirectedList.mpr fun x mem => ?_)
    rcases memOverlay mem with old | new
    · exact undirectedList.mp (there (.inr found)) x old
    · obtain ⟨y, inside, rfl⟩ := List.mem_map.mp new
      exact merges _ _ rfl (directedList.mp inner y inside)

theorem levelUndirected {target source : Value} (before : undirected target = true)
    (once : directedOnce source = true) : undirected (mergeLevel merge target source) = true := by
  cases source with
  | obj members =>
    have start : undirected (.obj (target.members?.getD [])) = true := by
      cases target with
      | obj old => exact before
      | _ => rfl
    refine List.foldlRecOn (motive := fun acc : Members => undirected (.obj acc) = true) members _
      start fun acc kept e mem => ?_
    obtain ⟨here, inner⟩ := directedObject.mp once e mem
    exact applyUndirected merges kept here inner
  | arr items =>
    have each : ∀ x ∈ items, undirected (merge .null x) = true :=
      fun x mem => merges _ _ rfl (directedList.mp once x mem)
    cases target with
    | arr old =>
      refine List.foldlRecOn (motive := fun acc : List Value => undirected (.arr acc) = true) items _
        before fun acc kept x mem => undirectedList.mpr fun y listed => ?_
      rcases memAddNew listed with there | rfl
      · exact undirectedList.mp kept y there
      · exact each x mem
    | _ =>
      refine undirectedList.mpr fun y mem => ?_
      obtain ⟨x, inside, rfl⟩ := List.mem_map.mp mem
      exact each x inside
  | _ => rfl

end Undirected

theorem mergeUndirected {target source : Value} (before : undirected target = true)
    (once : directedOnce source = true) : undirected (merge target source) = true := by
  have within : ∀ level x y, undirected x = true → directedOnce y = true →
      undirected (mergeWithin level x y) = true := by
    intro level
    induction level with
    | zero => exact fun x y before _ => before
    | succ level ih =>
      intro x y before once
      rw [mergeWithinLevel]
      exact levelUndirected ih before once
  exact within _ _ _ before once

theorem undirectedFragments {fragments : List Value}
    (plain : ∀ v ∈ fragments, undirected v = true) : undirected (mergeFragments fragments) = true :=
  List.foldlRecOn (motive := fun acc : Value => undirected acc = true) fragments _ rfl
    fun _ kept v mem => mergeUndirected kept (undirectedOnce (plain v mem))

/- Every directive is used up, at any depth and in any number of fragments. -/
theorem noDirectiveLeft {fragments : List Value}
    (once : ∀ v ∈ fragments, directedOnce v = true) : undirected (mergeFragments fragments) = true :=
  List.foldlRecOn (motive := fun acc : Value => undirected acc = true) fragments _ rfl
    fun _ kept v mem => mergeUndirected kept (once v mem)

def directedFragments : List Value :=
  [.obj [("tags", .arr [.obj [("!name", .str "notes")]]), ("list", .arr [.bool true])],
   .obj [("!tags", .arr [.obj [("^name", .str "title"), ("=name", .arr [.null])]]),
     ("=list", .arr [.obj [("!x", .obj [("=y", .null)])]]), ("^list", .str "entries"),
     ("info", .obj [("!gone", .null)])]]

theorem directedUsed : (∀ v ∈ directedFragments, directedOnce v = true) ∧
    undirected (mergeFragments directedFragments) = true := by
  have once : ∀ v ∈ directedFragments, directedOnce v = true := by decide
  exact ⟨once, noDirectiveLeft once⟩

end ApiGraph.Merge
