import ApiGraph.Proofs.BuiltGraph

/-! Groups and the methods listed under them. A group has the name of a tag and stands there, no two
have one name, and a method is listed once, under one group. -/
namespace ApiGraph.Build
open Json Resolve ApiGraph.Graph

structure Grouped (doc : Value) (g : Graph) : Prop where
  names : (g.apis.map Api.name).Nodup
  tags : ∀ a ∈ g.apis, ∃ tag, Tree.get? a.location doc = some tag ∧ refOf tag = none ∧
    (tag.textAt? "name").getD "" = a.name
  listed : (g.apis.flatMap Api.methods).Nodup
  known : ∀ id ∈ g.apis.flatMap Api.methods, id.index < g.methods.length

def Api.listing (id : MethodId) (a : Api) : Api := { a with methods := a.methods ++ [id] }

section Lists
variable {α β : Type}

theorem modifyMap {f : α → α} {p : α → β} (same : ∀ x, p (f x) = p x) (xs : List α) (i : Nat) :
    (xs.modify i f).map p = xs.map p := by
  apply List.ext_getElem?
  intro j
  rw [List.getElem?_map, List.getElem?_map, List.getElem?_modify]
  cases xs[j]? with
  | none => rfl
  | some x => by_cases h : i = j <;> simp [h, same]

theorem enlistPerm (apis : List Api) {i : Nat} (inside : i < apis.length) (id : MethodId) :
    ((apis.modify i (Api.listing id)).flatMap Api.methods).Perm
      (id :: apis.flatMap Api.methods) := by
  induction apis generalizing i with
  | nil => simp at inside
  | cons a r ih =>
    cases i with
    | zero =>
      simp only [List.modify_zero_cons, List.flatMap_cons, Api.listing, List.append_assoc,
        List.singleton_append]
      exact List.perm_middle
    | succ i =>
      have inner := ih (i := i) (by simpa using inside)
      simp only [List.modify_succ_cons, List.flatMap_cons]
      exact (List.Perm.append_left _ inner).trans List.perm_middle

end Lists

namespace Grouped
variable {doc : Value} {g g' : Graph}

theorem empty : Grouped doc .empty where
  names := List.nodup_nil
  tags _ mem := by cases mem
  listed := List.nodup_nil
  known _ mem := by cases mem

theorem grow (h : Grouped doc g) (apis : g'.apis = g.apis)
    (methods : g.methods.length ≤ g'.methods.length) : Grouped doc g' where
  names := apis ▸ h.names
  tags := apis ▸ h.tags
  listed := apis ▸ h.listed
  known id mem := by
    have before := h.known id (apis ▸ mem)
    omega

theorem addApi (h : Grouped doc g) {l : Location} {v : Value} (at_ : Tree.get? l doc = some v)
    (plain : refOf v = none) {name : String} (named : v.textAt? "name" = some name)
    (fresh : name ∉ g.apis.map Api.name) : Grouped doc (g.addApi ⟨l, name, []⟩).2 where
  names := by
    simp only [Graph.addApi, List.map_append, List.map_cons, List.map_nil]
    exact List.nodup_append.mpr ⟨h.names, by simp, by simpa using fresh⟩
  tags a mem := by
    rcases List.mem_append.mp mem with old | new
    · exact h.tags a old
    · rw [List.mem_singleton.mp new]
      exact ⟨v, at_, plain, by rw [named]; rfl⟩
  listed := by simpa [Graph.addApi] using h.listed
  known id mem := h.known id (by simpa [Graph.addApi] using mem)

theorem enlist (h : Grouped doc g) (api : ApiId) {id : MethodId} (inside : id.index < g.methods.length)
    (fresh : id ∉ g.apis.flatMap Api.methods) : Grouped doc (g.enlist api id) := by
  have apis : (g.enlist api id).apis = g.apis.modify api.index (Api.listing id) := rfl
  by_cases there : api.index < g.apis.length
  · have perm := enlistPerm g.apis there id
    refine ⟨?_, fun a mem => ?_, ?_, fun id' mem => ?_⟩
    · have same : (g.apis.modify api.index (Api.listing id)).map Api.name = g.apis.map Api.name :=
        modifyMap (f := Api.listing id) (fun _ => rfl) g.apis api.index
      rw [apis, same]
      exact h.names
    · rw [apis] at mem
      obtain ⟨i, found⟩ := List.getElem?_of_mem mem
      rw [List.getElem?_modify] at found
      obtain ⟨a', held, rfl⟩ := Option.map_eq_some_iff.mp found
      have tag := h.tags a' (List.mem_of_getElem? held)
      split
      · exact tag
      · exact tag
    · rw [apis]
      exact perm.nodup_iff.mpr (List.nodup_cons.mpr ⟨fresh, h.listed⟩)
    · rcases List.mem_cons.mp (perm.mem_iff.mp (apis ▸ mem)) with rfl | old
      · exact inside
      · exact h.known id' old
  · have same : (g.enlist api id).apis = g.apis := by
      rw [apis, List.modify_eq_self (by omega)]
    exact h.grow same (Nat.le_refl _)

end Grouped

section Walk
variable {cx : Setting} {g g' : Graph}

theorem unnamed {name : String} (h : g.apiIdNamed name = none) : name ∉ g.apis.map Api.name := by
  intro mem
  obtain ⟨a, inside, rfl⟩ := List.mem_map.mp mem
  have missing := List.findIdx?_eq_none_iff.mp (Option.map_eq_none_iff.mp h) a inside
  simp at missing

theorem apiNamedGroups {name : String} {id : ApiId}
    (before : Grouped cx.doc g) (run : apiNamed cx name g = .ok (id, g')) : Grouped cx.doc g' := by
  cases apiNamedSource run with
  | known _ same | held _ _ _ same => exact same ▸ before
  | made new tag _ added =>
    obtain ⟨v, at_, plain, named⟩ := tag.at_
    exact added ▸ before.addApi at_ plain named (unnamed new)

theorem visitOperationGroups (lawful : cx.doc.lawful = true) {f : Declaration.Found}
    (at_ : Tree.get? (f.item.child f.verb) cx.doc = some f.operation) {u : PUnit}
    (before : Grouped cx.doc g) (run : visitOperation cx f g = .ok (u, g')) :
    Grouped cx.doc g' := by
  cases visitOperationSource run with
  | omitted _ same => exact same ▸ before
  | dropped _ grouped _ => exact apiNamedGroups before grouped
  | @made api m result m' _ grouped _ node listed =>
    have groups := apiNamedGroups before grouped
    obtain ⟨_, _, apis, outcome⟩ := methodNodeBuilds lawful at_ node
    rcases outcome with ⟨e, rfl, methods⟩ | ⟨method, rfl, methods⟩
    · have same : m.methods.length = m'.methods.length := by rw [methods]
      have after : Grouped cx.doc m' := groups.grow apis (Nat.le_of_eq same)
      exact listed ▸ after.grow rfl (Nat.le_refl _)
    · have longer : m'.methods.length = m.methods.length + 1 := by simp [methods]
      have after := groups.grow apis (by omega)
      have fresh : ⟨m.methods.length⟩ ∉ m'.apis.flatMap Api.methods := by
        intro mem
        have inside := groups.known _ (apis ▸ mem)
        simp at inside
      have enlisted : Grouped cx.doc (m'.enlist api ⟨m.methods.length⟩) :=
        after.enlist api (by simp [longer]) fresh
      exact listed ▸ enlisted

theorem walkGroups (lawful : cx.doc.lawful = true) {u : PUnit}
    (run : walk cx .empty = .ok (u, g)) : Grouped cx.doc g := by
  simp only [walk, runBind, runLift, mapErrorOk] at run
  obtain ⟨found, _, ⟨operations, same⟩, _, m, visited, run⟩ := run
  rw [same] at visited
  obtain ⟨_, runs⟩ := runForM.mp visited
  have visits : Grouped cx.doc m := by
    refine runs.keeps (R := fun g g' => Grouped cx.doc g → Grouped cx.doc g') (fun _ h => h)
      (fun h h' before => h' (h before)) ?_ .empty
    intro f mem _ _ _ one before
    exact visitOperationGroups lawful (operationAt operations mem) before one
  cases all : cx.config.allModels with
  | false =>
    simp only [all, Bool.false_eq_true, if_false, runPure] at run
    exact run.2 ▸ visits
  | true =>
    simp only [all, if_true] at run
    have last := ((registerAllTrips run).grows lawful).edits.keepsMethods (by simp)
    exact visits.grow last.1 (Nat.le_of_eq (by rw [last.2.1]))

end Walk
end ApiGraph.Build
