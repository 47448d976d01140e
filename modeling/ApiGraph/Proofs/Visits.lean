import ApiGraph.Proofs.Accounts

/-! When things came to be. What a graph holds in the end and did not hold at the start was added by
one of the visits of its walk: every method and every report goes back to the visit of one operation,
amid a walk that started from nothing. -/
namespace ApiGraph.Build
open Json ApiGraph.Graph Declaration

section Turns
variable {α β : Type} {f : α → Walk β} {g g' : Graph}

theorem Runs.turn {P : Graph → Prop} {xs : List α} {ys : List β} (runs : Runs f xs g ys g')
    (before : ¬ P g) (after : P g') : ∃ done x rest ys₁ y ys₂ m m', xs = done ++ x :: rest ∧
      Runs f done g ys₁ m ∧ f x m = .ok (y, m') ∧ Runs f rest m' ys₂ g' ∧ ¬ P m ∧ P m' := by
  induction runs with
  | nil => exact absurd after before
  | @cons x xs y ys g m g' head tail ih =>
    by_cases here : P m
    · exact ⟨[], x, xs, [], y, ys, g, m, rfl, .nil g, head, tail, before, here⟩
    · obtain ⟨done, x', rest, ys₁, y', ys₂, n, n', rfl, first, turn, last, old, new⟩ := ih here after
      exact ⟨x :: done, x', rest, y :: ys₁, y', ys₂, n, n', rfl, .cons head first, turn, last, old,
        new⟩

end Turns

section Visits
variable {cx : Setting} {g g' : Graph} {found : List Found}

theorem apiNamedKeeps {name : String} {id : ApiId}
    (run : apiNamed cx name g = .ok (id, g')) :
    g'.methods = g.methods ∧ g'.skipped = g.skipped := by
  cases apiNamedSource run with
  | known _ same | held _ _ _ same => exact same ▸ ⟨rfl, rfl⟩
  | made _ _ _ added => exact added ▸ ⟨rfl, rfl⟩

theorem visitsBuild (lawful : cx.doc.lawful = true) {fs : List Found} {us : List PUnit}
    (at_ : ∀ f ∈ fs, Tree.get? f.place cx.doc = some f.operation)
    (runs : Runs (visitOperation cx) fs g us g') : Builds .whole cx .all g g' :=
  runs.keeps .refl .trans fun f mem _ _ _ run => (visitOperationBuilds lawful (at_ f mem) run).1

structure Making (cx : Setting) (g : Graph) (f : Found) (result : Except OperationError MethodId)
    (start after : Graph) : Prop where
  at_ : Tree.get? f.place cx.doc = some f.operation
  earlier : Builds .whole cx .all .empty start
  run : methodNode cx (planOf cx.config f) f.operation start = .ok (result, after)
  later : Builds .whole cx .all after g

/- A walk is the visits of its operations and a registration of types. -/
structure Walked (cx : Setting) (found : List Found) (m g : Graph) : Prop where
  visits : ∃ us, Runs (visitOperation cx) found .empty us m
  rest : Builds .whole cx .all m g
  methods : g.methods = m.methods
  skipped : g.skipped = m.skipped
  apis : g.apis = m.apis

theorem walkSource (lawful : cx.doc.lawful = true)
    (operations : Declaration.operations cx.doc = .ok found) {u : PUnit}
    (run : walk cx .empty = .ok (u, g)) : ∃ m, Walked cx found m g := by
  simp only [walk, runBind, runLift, mapErrorOk] at run
  obtain ⟨_, _, ⟨again, same⟩, _, m, visited, run⟩ := run
  rw [operations] at again
  cases again
  rw [same] at visited
  refine ⟨m, ?_⟩
  cases all : cx.config.allModels with
  | false =>
    simp only [all, Bool.false_eq_true, if_false, runPure] at run
    obtain ⟨_, rfl⟩ := run
    exact ⟨runForM.mp visited, .refl _, rfl, rfl, rfl⟩
  | true =>
    simp only [all, if_true] at run
    have trips := registerAllTrips run
    obtain ⟨apis, methods, skipped⟩ := (trips.grows lawful).edits.keepsMethods (by simp)
    exact ⟨runForM.mp visited, (Builds.schemas lawful trips).widen (.inr (.inr rfl)), methods,
      skipped, apis⟩

namespace Walked
variable {m : Graph}

theorem turn (lawful : cx.doc.lawful = true)
    (operations : Declaration.operations cx.doc = .ok found) (w : Walked cx found m g)
    {P : Graph → Prop} (nothing : ¬ P .empty) (held : P m)
    (read : ∀ {a b : Graph}, b.methods = a.methods → b.skipped = a.skipped → P b → P a) :
    ∃ f ∈ found, ∃ api result start after, Making cx g f result start after ∧
      ¬ P start ∧ P (recorded f api after result) := by
  have at_ := fun f (mem : f ∈ found) => operationAt operations mem
  obtain ⟨us, runs⟩ := w.visits
  obtain ⟨done, f, rest, _, _, _, before, end_, rfl, first, here, last, old, new⟩ :=
    runs.turn nothing held
  have mem : f ∈ done ++ f :: rest := by simp
  have earlier := visitsBuild lawful (fun f mem => at_ f (List.mem_append_left _ mem)) first
  have later := visitsBuild lawful
    (fun f mem => at_ f (List.mem_append_right _ (List.mem_cons_of_mem _ mem))) last
  cases visitOperationSource here with
  | omitted _ same => exact absurd (same ▸ new) old
  | dropped _ grouped _ =>
    obtain ⟨methods, skipped⟩ := apiNamedKeeps grouped
    exact absurd (read methods skipped new) old
  | @made api start result after _ grouped _ node listed =>
    obtain ⟨methods, skipped⟩ := apiNamedKeeps grouped
    have groups : Builds .whole cx .all before start ∧ _ := apiNamedBuilds grouped
    have listing : Builds .whole cx .all after end_ := by
      cases result with
      | ok id => exact listed ▸ .edit (.enlist api id) rfl rfl rfl rfl rfl
      | error e => exact listed ▸ .edit (.skip _) rfl rfl rfl rfl rfl
    exact ⟨f, mem, api, result, start, after,
      ⟨at_ f mem, earlier.trans groups.1, node, (listing.trans later).trans w.rest⟩,
      fun held => old (read methods skipped held), listed ▸ new⟩

theorem methodMade (lawful : cx.doc.lawful = true)
    (operations : Declaration.operations cx.doc = .ok found) (w : Walked cx found m g)
    {method : Method} (mem : method ∈ g.methods) : ∃ f ∈ found, ∃ id start after,
      Making cx g f (.ok id) start after ∧ after.methods = start.methods ++ [method] := by
  obtain ⟨f, inside, api, result, start, after, making, old, new⟩ :=
    w.turn lawful operations (P := fun g => method ∈ g.methods) (by simp [Graph.empty])
      (w.methods ▸ mem) fun methods _ held => methods ▸ held
  obtain ⟨_, _, outcome⟩ := methodNodeRecords lawful making.at_ making.run
  refine ⟨f, inside, ?_⟩
  rcases outcome with ⟨e, rfl, methods⟩ | ⟨made, _, rfl, methods⟩
  · exact absurd (methods ▸ new) old
  · change method ∈ after.methods at new
    rw [methods] at new
    rcases List.mem_append.mp new with earlier | last
    · exact absurd earlier old
    · rw [List.mem_singleton.mp last]
      exact ⟨_, start, after, making, methods⟩

theorem reportMade (lawful : cx.doc.lawful = true)
    (operations : Declaration.operations cx.doc = .ok found) (w : Walked cx found m g)
    {s : Skipped} (mem : s ∈ g.skipped) : ∃ f ∈ found, ∃ e start after,
      Making cx g f (.error e) start after ∧ s = ⟨f.id, f.place, e.message⟩ := by
  obtain ⟨f, inside, api, result, start, after, making, old, new⟩ :=
    w.turn lawful operations (P := fun g => s ∈ g.skipped) (by simp [Graph.empty])
      (w.skipped ▸ mem) fun _ skipped held => skipped ▸ held
  obtain ⟨_, skipped, _⟩ := methodNodeRecords lawful making.at_ making.run
  refine ⟨f, inside, ?_⟩
  cases result with
  | ok id => exact absurd (skipped ▸ new) old
  | error e =>
    rcases List.mem_append.mp new with earlier | last
    · exact absurd (skipped ▸ earlier) old
    · exact ⟨e, start, after, making, List.mem_singleton.mp last⟩

end Walked
end Visits
end ApiGraph.Build
