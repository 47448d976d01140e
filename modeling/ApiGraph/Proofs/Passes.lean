import ApiGraph.Proofs.Meetings
import Mathlib.Algebra.Order.Group.Multiset
import Mathlib.Tactic.Abel

/-! A walk as a pass over its document: which schemas it met, in which order, and which node it found
or made for each. The schemas that are met are those that the nodes ask for, each as often as it is
asked for, and those that are registered last. -/
namespace ApiGraph.Build
open Json Resolve ApiGraph.Graph Declaration

structure Meeting where
  value : Value
  place : Location
  id : SchemaId

namespace Meeting

def pair (m : Meeting) : Value × Location := (m.value, m.place)

def byReference (m : Meeting) : Bool := (refOf m.value).isSome

end Meeting

/- A walk from one graph to another with the schemas that it met: it found a node where the schema
stands, or it made one. -/
inductive Pass (cx : Setting) : Graph → List Meeting → Graph → Prop
  | done (g : Graph) : Pass cx g [] g
  | beside {g m g' log} (e : Edit .whole g m) (same : m.skeleton = g.skeleton)
      (rest : Pass cx m log g') : Pass cx g log g'
  | found {g g' v place r id log} (resolved : resolve cx.doc v = .ok r)
      (held : g.schemaAt (r.locationOr place) = some id) (rest : Pass cx g log g') :
      Pass cx g (⟨v, place, id⟩ :: log) g'
  | made {g g' v place r c log} (resolved : resolve cx.doc v = .ok r)
      (free : g.schemaAt (r.locationOr place) = none)
      (told : Classify.classify r.value (r.locationOr place) = .ok c)
      (rest : Pass cx (g.plant (newSchema c r.value (r.locationOr place)
        (r.location?.bind Location.last?))) log g') :
      Pass cx g (⟨v, place, ⟨g.schemas.length⟩⟩ :: log) g'

namespace Pass
variable {cx : Setting} {g m g' : Graph} {log log' : List Meeting}

theorem trans (h : Pass cx g log m) (h' : Pass cx m log' g') : Pass cx g (log ++ log') g' := by
  induction h with
  | done => exact h'
  | beside e same _ ih => exact .beside e same (ih h')
  | found resolved held _ ih => exact .found resolved held (ih h')
  | made resolved free told _ ih => exact .made resolved free told (ih h')

theorem edits (h : Pass cx g log g') : Edits .whole g g' := by
  induction h with
  | done => exact .refl
  | beside e _ _ ih => exact .head e ih
  | found _ _ _ ih => exact ih
  | made _ free _ _ ih => exact .head (.schema _ newSchemaNamed free) ih

end Pass

theorem modifiedFlat {α β : Type} {xs : List α} {i : Nat} {f : α → α} {h : α → List β}
    (same : ∀ x, h (f x) = h x) : (xs.modify i f).flatMap h = xs.flatMap h := by
  have mapped : (xs.modify i f).map h = xs.map h := by
    refine List.ext_getElem? fun j => ?_
    rw [List.getElem?_map, List.getElem?_map, List.getElem?_modify]
    cases xs[j]? with
    | none => rfl
    | some x => by_cases here : i = j <;> simp [here, same]
  rw [List.flatMap_def, List.flatMap_def, mapped]

section Asked
variable (cx : Setting) (g : Graph)

theorem askedPlant (s : Schema) : (asked cx (g.plant s) : Multiset (Value × Location)) =
    asked cx g + schemaAsks cx s.location := by
  have others : (g.plant s).parameters = g.parameters ∧ (g.plant s).bodies = g.bodies ∧
      (g.plant s).responses = g.responses := by
    unfold plant
    split <;> exact ⟨rfl, rfl, rfl⟩
  obtain ⟨parameters, bodies, responses⟩ := others
  simp only [asked, plantSchemas, parameters, bodies, responses, List.flatMap_append,
    List.flatMap_singleton, ← Multiset.coe_add]
  abel

theorem askedParameter (p : Parameter) :
    (asked cx (g.addParameter p).2 : Multiset (Value × Location)) =
      asked cx g + parameterAsks cx p.location := by
  simp only [asked, addParameter, List.flatMap_append, List.flatMap_singleton, ← Multiset.coe_add]
  abel

theorem askedBody (b : RequestBody) : (asked cx (g.addBody b).2 : Multiset (Value × Location)) =
    asked cx g + bodyAsks cx b.location := by
  simp only [asked, addBody, List.flatMap_append, List.flatMap_singleton, ← Multiset.coe_add]
  abel

theorem askedResponse (r : Response) :
    (asked cx (g.addResponse r).2 : Multiset (Value × Location)) =
      asked cx g + responseAsks cx r := by
  simp only [asked, addResponse, List.flatMap_append, List.flatMap_singleton, ← Multiset.coe_add]
  abel

theorem askedFill (id : SchemaId) (c : Children) :
    asked cx (g.setSchema id (·.withChildren c)) = asked cx g := by
  simp only [asked, setSchema]
  rw [modifiedFlat]
  exact fun _ => rfl

theorem askedCarry (id : ParameterId) (schema : Option SchemaId) :
    asked cx (g.setParameter id fun p => { p with schema := schema }) = asked cx g := by
  simp only [asked, setParameter]
  rw [modifiedFlat]
  exact fun _ => rfl

theorem askedFile (id : BodyId) (schemas : List (String × List SchemaId)) :
    asked cx (g.setBody id fun b => { b with schemas := schemas }) = asked cx g := by
  simp only [asked, setBody]
  rw [modifiedFlat]
  exact fun _ => rfl

theorem askedSettle (id : ResponseId) (schemas : List SchemaId) (hasAny : Bool) :
    asked cx (g.setResponse id fun r => { r with schemas := schemas, hasAny := hasAny }) =
      asked cx g := by
  simp only [asked, setResponse]
  rw [modifiedFlat]
  exact fun _ => rfl

end Asked

/- A pass that was sent for `es` meets these and whatever its new nodes ask for. -/
def Meets (cx : Setting) (es : List (Value × Location)) (g g' : Graph) : Prop :=
  ∃ log, Pass cx g log g' ∧
    (log.map Meeting.pair : Multiset (Value × Location)) + asked cx g = es + asked cx g'

theorem askedMet {met before more after : Multiset (Value × Location)}
    (h : met + (before + more) = more + after) : met + before = after := by
  rw [← add_assoc, add_comm _ more] at h
  exact add_left_cancel h

namespace Meets
variable {cx : Setting} {g a m g' : Graph} {es es' : List (Value × Location)}

theorem refl (g : Graph) : Meets cx [] g g := ⟨[], .done g, rfl⟩

theorem trans (h : Meets cx es g m) (h' : Meets cx es' m g') : Meets cx (es ++ es') g g' := by
  obtain ⟨log, pass, balance⟩ := h
  obtain ⟨log', pass', balance'⟩ := h'
  refine ⟨log ++ log', pass.trans pass', ?_⟩
  simp only [List.map_append, ← Multiset.coe_add]
  calc (log.map Meeting.pair + log'.map Meeting.pair : Multiset (Value × Location)) + asked cx g
    _ = log'.map Meeting.pair + (log.map Meeting.pair + asked cx g) := by abel
    _ = es + (log'.map Meeting.pair + asked cx m) := by rw [balance]; abel
    _ = es + es' + asked cx g' := by rw [balance', add_assoc]

theorem beside (e : Edit .whole g g') (same : g'.skeleton = g.skeleton)
    (asks : asked cx g' = asked cx g) : Meets cx [] g g' :=
  ⟨[], .beside e same (.done _), by rw [asks]; rfl⟩

theorem complete (h : Meets cx es g m) (e : Edit .whole m g') (same : g'.skeleton = m.skeleton)
    (asks : asked cx g' = asked cx m) : Meets cx es g g' := by
  have both := h.trans (.beside e same asks)
  rwa [List.append_nil] at both

theorem node (added : Edit .whole g a) (same : a.skeleton = g.skeleton)
    (asks : (asked cx a : Multiset (Value × Location)) = asked cx g + es) (h : Meets cx es a g') :
    Meets cx [] g g' := by
  obtain ⟨log, pass, balance⟩ := h
  rw [asks] at balance
  exact ⟨log, .beside added same pass, (askedMet balance).trans (zero_add _).symm⟩

end Meets

theorem Runs.meets {α β : Type} {cx : Setting} {f : α → Walk β} {p : α → Value × Location}
    {xs : List α} {ys : List β} {g g' : Graph} (runs : Runs f xs g ys g')
    (each : ∀ x ∈ xs, ∀ {g y g'}, f x g = .ok (y, g') → Meets cx [p x] g g') :
    Meets cx (xs.map p) g g' := by
  induction runs with
  | nil g => exact .refl g
  | cons head _ ih =>
    exact (each _ List.mem_cons_self head).trans
      (ih fun x mem _ _ _ => each x (List.mem_cons_of_mem _ mem))

section Nodes
variable {cx : Setting} {g g' : Graph} {v : Value} {l : Location}

theorem schemaNodeMeets (lawful : cx.doc.lawful = true) {steps : Nat} {id : SchemaId}
    (read : ReadAt cx.doc v l) (run : schemaNode cx steps v l g = .ok (id, g')) :
    Meets cx [(v, l)] g g' := by
  induction steps generalizing v l g g' id with
  | zero => exact (runThrow.mp run).elim
  | succ steps ih =>
    obtain ⟨r, resolved, ⟨held, rfl⟩ | ⟨free, c, told, rfl, filled⟩⟩ := runSchemaNode.mp run
    · exact ⟨[⟨v, l, id⟩], .found resolved held (.done _), rfl⟩
    · have at_ := resolvedAt read resolved
      obtain ⟨_, ids, k, m, runs, rfl⟩ := fillSchemaRuns filled
      have inner := runs.meets (p := id) fun e mem _ _ _ one =>
        ih (readAt (contentsAt lawful at_ mem)) one
      rw [List.map_id] at inner
      obtain ⟨log, pass, balance⟩ := inner.complete (.fill _ k) (fillSkeleton m _ k)
        (askedFill cx m _ k)
      have asks : schemaAsks cx (r.locationOr l) = contents c.shape r.value (r.locationOr l) := by
        simp [schemaAsks, at_, told]
      have planted := askedPlant cx g (newSchema c r.value (r.locationOr l)
        (r.location?.bind Location.last?))
      rw [planted, newSchema, asks] at balance
      refine ⟨_, .made resolved free told pass, ?_⟩
      rw [← askedMet balance, ← add_assoc]
      rfl

theorem Toured.meets (lawful : cx.doc.lawful = true) {es : List (Value × Location)}
    (h : Toured cx es g g') : Meets cx es g g' := by
  obtain ⟨ids, runs⟩ := h.runs
  have met := runs.meets (p := id) fun e mem _ _ _ one =>
    schemaNodeMeets lawful (readAt (h.read e mem)) one
  rwa [List.map_id] at met

theorem parameterNodeMeets (lawful : cx.doc.lawful = true) (at_ : Tree.get? l cx.doc = some v)
    {id : ParameterId} (run : parameterNode cx l v g = .ok (id, g')) : Meets cx [] g g' := by
  obtain ⟨_, rfl⟩ | ⟨free, rfl, p, schema, m, placed, _, visited, rfl⟩ := runParameterNode run
  · exact .refl _
  · have met := (headerAtTours lawful at_ _ _ _ visited).meets lawful
    have asks : parameterAsks cx p.location = headerSchemas cx.doc cx.bound v l := by
      rw [parameterAsks, placed, at_]
      rfl
    refine .node (.parameter (by simp) p (placed ▸ free)) rfl (asks ▸ askedParameter cx g p) ?_
    exact met.complete (.carry (by simp) _ schema) rfl (askedCarry cx m _ schema)

theorem bodyNodeMeets (lawful : cx.doc.lawful = true) (at_ : Tree.get? l cx.doc = some v)
    {name : String} {preferred : List String} {id : BodyId}
    (run : bodyNode cx l v name preferred g = .ok (id, g')) : Meets cx [] g g' := by
  obtain ⟨_, rfl⟩ | ⟨free, rfl, b, _, m, schemas, placed, _, _, _, visited, _, rfl⟩ :=
    runBodyNode run
  · exact .refl _
  · have met := (mediaOfContentTours lawful at_ _ _ _ visited).meets lawful
    have asks : bodyAsks cx b.location = contentSchemas cx l (contentOf v) := by
      rw [bodyAsks, placed, at_]
      rfl
    refine .node (.body (by simp) b (placed ▸ free)) rfl (asks ▸ askedBody cx g b) ?_
    exact met.complete (.file (by simp) _ schemas) rfl (askedFile cx m _ schemas)

theorem responseNodeMeets (lawful : cx.doc.lawful = true) {preferred : List ResponseCode}
    {id : ResponseId} (run : responseNode cx l preferred g = .ok (id, g')) : Meets cx [] g g' := by
  obtain ⟨_, rfl⟩ | ⟨free, rfl, r, carried, m, rfl, rfl, _, visited, rfl⟩ := runResponseNode run
  · exact .refl _
  · have codes : Tours cx (responseAsks cx r)
        (r.preferred.foldlM (visitCode cx r.location) ⟨[], r.hasAny⟩) :=
      Tours.foldlM (fun code _ acc => visitCodeTours lawful code acc) _
    have met := (codes _ _ _ visited).meets lawful
    refine .node (.response (by simp) r free) rfl (askedResponse cx g r) ?_
    exact met.complete (.settle (by simp) _ _ _) rfl (askedSettle cx m _ _ _)

end Nodes

section Operations
variable {cx : Setting} {g g' : Graph}

theorem inputNodeMeets (lawful : cx.doc.lawful = true) {plan : InputPlan}
    (sound : SoundInput cx plan) {i : MethodInput} (run : inputNode cx plan g = .ok (i, g')) :
    Meets cx [] g g' := by
  cases plan with
  | parameter p =>
    simp only [inputNode, runBind, runPure] at run
    obtain ⟨_, _, made, _, rfl⟩ := run
    exact parameterNodeMeets lawful sound.1 made
  | body b =>
    simp only [inputNode, runBind, runPure] at run
    obtain ⟨_, _, made, _, rfl⟩ := run
    exact bodyNodeMeets lawful sound.1 made

theorem inputNodesMeet (lawful : cx.doc.lawful = true) {plans : List InputPlan}
    (sound : ∀ p ∈ plans, SoundInput cx p) {result : Except OperationError (List MethodInput)}
    (run : inputNodes cx plans g = .ok (result, g')) : Meets cx [] g g' := by
  induction plans generalizing g result with
  | nil =>
    obtain ⟨_, rfl⟩ := runPure.mp run
    exact .refl _
  | cons plan more ih =>
    obtain ⟨here, moreSound⟩ := List.forall_mem_cons.mp sound
    obtain ⟨i, m, first, ⟨_, _, _, rfl⟩ | ⟨_, rest, others, _⟩⟩ := runInputNodes.mp run
    · exact inputNodeMeets lawful here first
    · exact (inputNodeMeets lawful here first).trans (ih moreSound others)

theorem apiNamedMeets {name : String} {id : ApiId}
    (run : apiNamed cx name g = .ok (id, g')) : Meets cx [] g g' := by
  cases apiNamedSource run with
  | known _ same | held _ _ _ same => exact same ▸ .refl _
  | made _ _ free added => exact added ▸ .beside (.api _ free) rfl rfl

theorem methodNodeMeets (lawful : cx.doc.lawful = true) {plan : MethodPlan} {operation : Value}
    (at_ : Tree.get? plan.location cx.doc = some operation)
    {result : Except OperationError MethodId}
    (run : methodNode cx plan operation g = .ok (result, g')) : Meets cx [] g g' := by
  cases methodNodeSource run with
  | failed asked _ visited => exact inputNodesMeet lawful (sortedSound at_ asked) visited
  | made asked _ visited settled _ added =>
    have inputs := inputNodesMeet lawful (sortedSound at_ asked) visited
    exact (inputs.trans (responseNodeMeets lawful settled)).trans
      (added ▸ .beside (.method _) rfl rfl)

theorem visitOperationMeets (lawful : cx.doc.lawful = true) {f : Found}
    (at_ : Tree.get? (f.item.child f.verb) cx.doc = some f.operation) {u : PUnit}
    (run : visitOperation cx f g = .ok (u, g')) : Meets cx [] g g' := by
  cases visitOperationSource run with
  | omitted _ same => exact same ▸ .refl _
  | dropped _ grouped _ => exact apiNamedMeets grouped
  | @made api m result m' _ grouped _ node listed =>
    have made := (apiNamedMeets grouped).trans (methodNodeMeets lawful at_ node)
    cases result with
    | ok id => exact made.complete (listed ▸ .enlist api id) (listed ▸ rfl) (listed ▸ rfl)
    | error e => exact made.complete (listed ▸ .skip _) (listed ▸ rfl) (listed ▸ rfl)

def models (cx : Setting) : List (Value × Location) :=
  (modelPlaces cx).map fun l => (reference l.toPointer, l)

theorem modelsMeet (lawful : cx.doc.lawful = true) {u : PUnit}
    (run : (modelPlaces cx).forM (Hydrate.registerAt cx) g = .ok (u, g')) :
    Meets cx (models cx) g g' := by
  obtain ⟨_, runs⟩ := runForM.mp run
  refine runs.meets fun l _ _ _ _ one => ?_
  simp only [Hydrate.registerAt, runBind, runPure] at one
  obtain ⟨_, _, registered, _, rfl⟩ := one
  exact schemaNodeMeets lawful (readReference _ _ _) registered

theorem walkMeets (lawful : cx.doc.lawful = true) {u : PUnit}
    (run : walk cx .empty = .ok (u, g)) :
    ∃ log, Pass cx .empty log g ∧ (log.map Meeting.pair).Perm (models cx ++ asked cx g) := by
  obtain ⟨found, operations, _⟩ := walkBuilds lawful run
  obtain ⟨m, _, visits, last⟩ := (walkParts operations).mp run
  have met : Meets cx [] .empty m := visits.keeps .refl .trans fun f mem _ _ _ one =>
    visitOperationMeets lawful (operationAt operations mem) one
  obtain ⟨log, pass, balance⟩ := met.trans (modelsMeet lawful last)
  refine ⟨log, pass, Multiset.coe_eq_coe.mp ?_⟩
  rw [← Multiset.coe_add]
  exact (add_zero _).symm.trans balance

end Operations
end ApiGraph.Build
