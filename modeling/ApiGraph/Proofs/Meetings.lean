import ApiGraph.Proofs.Remaking

/-! The schemas that a node asks for. What a schema contains can be listed, and so can what a
parameter, a body or a response carries, from the document alone. A walk that makes the node visits
the schemas of its list, in this order, and each is read at its own place. -/
namespace ApiGraph.Build
open Json Resolve ApiGraph.Graph

def followed {α : Type} (doc raw : Value) (list : Resolved → List α) : List α :=
  match resolve doc raw with
  | .ok r => list r
  | .error _ => []

def mediaSchemas (doc : Value) (header : Value → Location → List (Value × Location)) (media : Value)
    (l : Location) : List (Value × Location) :=
  optionWithin l "schema" (media.get? "schema") ++
    ((media.membersAt? "encoding").getD []).flatMap fun e =>
      ((e.2.membersAt? "headers").getD []).flatMap fun h =>
        followed doc h.2 fun r => header r.value (r.locationOr (l.join ["encoding", e.1, "headers", h.1]))

def headerSchemas (doc : Value) : Nat → Value → Location → List (Value × Location)
  | 0, _, _ => []
  | steps + 1, v, l => match v.membersAt? "content" with
    | some content => content.flatMap fun e =>
        mediaSchemas doc (headerSchemas doc steps) e.2 (l.join ["content", e.1])
    | none => optionWithin l "schema" (v.get? "schema")

def contentSchemas (cx : Setting) (l : Location) (content : Members) : List (Value × Location) :=
  content.flatMap fun e =>
    mediaSchemas cx.doc (headerSchemas cx.doc cx.bound) e.2 (l.join ["content", e.1])

def responseHeaders (cx : Setting) (l : Location) (response : Value) : List (Value × Location) :=
  ((response.membersAt? "headers").getD []).flatMap fun e => followed cx.doc e.2 fun r =>
    headerSchemas cx.doc cx.bound r.value (r.locationOr (l.join ["headers", e.1]))

def codeSchemas (cx : Setting) (l : Location) (code : ResponseCode) : List (Value × Location) :=
  match Tree.get? (l.child code.code) cx.doc with
  | none => []
  | some raw => followed cx.doc raw fun r =>
      contentSchemas cx (r.locationOr (l.child code.code)) (contentOf r.value) ++
        responseHeaders cx (r.locationOr (l.child code.code)) r.value

/- These schemas were visited, in this order, and each stands at its place. -/
structure Toured (cx : Setting) (es : List (Value × Location)) (g g' : Graph) : Prop where
  read : ∀ e ∈ es, Tree.get? e.2 cx.doc = some e.1
  runs : ∃ ids, Runs (fun e => schemaAt cx e.1 e.2) es g ids g'

theorem Toured.append {cx : Setting} {es es' : List (Value × Location)} {g m g' : Graph}
    (h : Toured cx es g m) (h' : Toured cx es' m g') : Toured cx (es ++ es') g g' where
  read e mem := (List.mem_append.mp mem).elim (h.read e) (h'.read e)
  runs := by
    obtain ⟨_, runs⟩ := h.runs
    obtain ⟨_, runs'⟩ := h'.runs
    exact ⟨_, runs.append runs'⟩

def Tours {α : Type} (cx : Setting) (es : List (Value × Location)) (x : Walk α) : Prop :=
  ∀ g a g', x g = .ok (a, g') → Toured cx es g g'

namespace Tours
variable {cx : Setting} {α β : Type} {es es' : List (Value × Location)} {x : Walk α}

theorem pure (a : α) : Tours cx [] (Pure.pure a : Walk α) := by
  intro g b g' run
  obtain ⟨_, rfl⟩ := runPure.mp run
  exact ⟨by simp, [], .nil _⟩

theorem bind {f : α → Walk β} (first : Tours cx es x) (rest : ∀ a, Tours cx es' (f a)) :
    Tours cx (es ++ es') (x >>= f) := by
  intro g b g' run
  obtain ⟨a, m, run, run'⟩ := runBind.mp run
  exact (first _ _ _ run).append (rest a _ _ _ run')

theorem result {f : α → β} (first : Tours cx es x) :
    Tours cx es (x >>= fun a => Pure.pure (f a)) := by
  have both := first.bind fun a => Tours.pure (f a)
  rwa [List.append_nil] at both

theorem mapM {f : α → Walk β} {xs : List α} {es : α → List (Value × Location)}
    (each : ∀ x ∈ xs, Tours cx (es x) (f x)) : Tours cx (xs.flatMap es) (xs.mapM f) := by
  induction xs with
  | nil =>
    rw [List.mapM_nil]
    exact .pure []
  | cons x xs ih =>
    rw [List.mapM_cons, List.flatMap_cons]
    have rest := ih fun y mem => each y (List.mem_cons_of_mem _ mem)
    exact (each x List.mem_cons_self).bind fun y => rest.result

theorem forM {f : α → Walk PUnit} {xs : List α} {es : α → List (Value × Location)}
    (each : ∀ x ∈ xs, Tours cx (es x) (f x)) : Tours cx (xs.flatMap es) (xs.forM f) := by
  induction xs with
  | nil => exact Tours.pure PUnit.unit
  | cons x xs ih =>
    rw [List.flatMap_cons]
    have rest := ih fun y mem => each y (List.mem_cons_of_mem _ mem)
    exact (each x List.mem_cons_self).bind fun _ => rest

theorem foldlM {f : β → α → Walk β} {xs : List α} {es : α → List (Value × Location)}
    (each : ∀ x ∈ xs, ∀ b, Tours cx (es x) (f b x)) (b : β) :
    Tours cx (xs.flatMap es) (xs.foldlM f b) := by
  induction xs generalizing b with
  | nil =>
    rw [List.foldlM_nil]
    exact .pure b
  | cons x xs ih =>
    rw [List.foldlM_cons, List.flatMap_cons]
    have rest := ih fun y mem => each y (List.mem_cons_of_mem _ mem)
    exact (each x List.mem_cons_self b).bind rest

theorem resolve {f : Resolved → Walk β} {raw : Value} {es : Resolved → List (Value × Location)}
    (each : ∀ r, resolve cx.doc raw = .ok r → Tours cx (es r) (f r)) :
    Tours cx (followed cx.doc raw es) (cx.resolve raw >>= f) := by
  intro g b g' run
  simp only [runBind, runResolve] at run
  obtain ⟨r, _, ⟨resolved, rfl⟩, run⟩ := run
  rw [followed, resolved]
  exact each r resolved _ _ _ run

theorem option {v : Value} {l : Location} (at_ : Tree.get? l cx.doc = some v) (key : String) :
    Tours cx (optionWithin l key (v.get? key)) (visitOption (schemaAt cx) l key (v.get? key)) := by
  refine fun g id g' run => ⟨fun e mem => ?_, visitOptionRuns run⟩
  obtain ⟨held, place⟩ := memOptionWithin mem
  exact place ▸ Tree.childAt at_ held

end Tours

section Carried
variable {cx : Setting} {v : Value} {l : Location}

theorem resolvedHeaderTours {header : Value → Location → Walk (Option SchemaId)}
    {list : Value → Location → List (Value × Location)}
    (each : ∀ {v l}, Tree.get? l cx.doc = some v → Tours cx (list v l) (header v l)) {raw : Value}
    (at_ : Tree.get? l cx.doc = some raw) :
    Tours cx (followed cx.doc raw fun r => list r.value (r.locationOr l))
      (do let r ← cx.resolve raw; let _ ← header r.value (r.locationOr l)) :=
  Tours.resolve fun _ resolved => (each (resolvedAt (readAt at_) resolved)).result

theorem mediaSchemaTours (lawful : cx.doc.lawful = true)
    {header : Value → Location → Walk (Option SchemaId)}
    {list : Value → Location → List (Value × Location)}
    (each : ∀ {v l}, Tree.get? l cx.doc = some v → Tours cx (list v l) (header v l))
    (at_ : Tree.get? l cx.doc = some v) :
    Tours cx (mediaSchemas cx.doc list v l) (mediaSchema cx header v l) := by
  have encodings : Tours cx (((v.membersAt? "encoding").getD []).flatMap fun e =>
      ((e.2.membersAt? "headers").getD []).flatMap fun h => followed cx.doc h.2 fun r =>
        list r.value (r.locationOr (l.join ["encoding", e.1, "headers", h.1])))
      (visitEncodings cx header v l) := by
    refine Tours.forM fun e mem => Tours.forM fun h mem' => ?_
    have place := encodingHeadersAt lawful (encodingsAt lawful at_ mem) mem'
    rw [← joinFour] at place
    exact resolvedHeaderTours each place
  exact (Tours.option at_ "schema").bind fun schema => encodings.result

theorem headerSchemaTours (lawful : cx.doc.lawful = true) (steps : Nat)
    (at_ : Tree.get? l cx.doc = some v) :
    Tours cx (headerSchemas cx.doc steps v l) (headerSchema cx steps v l) := by
  induction steps generalizing v l with
  | zero => exact fun _ _ _ run => (runThrow.mp run).elim
  | succ steps ih =>
    unfold headerSchemas headerSchema
    cases held : v.membersAt? "content" with
    | none => exact Tours.option at_ "schema"
    | some content =>
      refine Tours.result (Tours.mapM fun e mem => ?_)
      have place := Tree.memberAt lawful at_ held mem
      rw [← joinTwo] at place
      exact mediaSchemaTours lawful ih place

theorem headerAtTours (lawful : cx.doc.lawful = true) (at_ : Tree.get? l cx.doc = some v) :
    Tours cx (headerSchemas cx.doc cx.bound v l) (headerAt cx v l) :=
  headerSchemaTours lawful cx.bound at_

theorem mediaAtTours (lawful : cx.doc.lawful = true) (at_ : Tree.get? l cx.doc = some v) :
    Tours cx (mediaSchemas cx.doc (headerSchemas cx.doc cx.bound) v l) (mediaAt cx v l) :=
  mediaSchemaTours lawful (headerAtTours lawful) at_

theorem mediaOfContentTours (lawful : cx.doc.lawful = true) (at_ : Tree.get? l cx.doc = some v) :
    Tours cx (contentSchemas cx l (contentOf v)) (mediaOfContent cx l (contentOf v)) := by
  refine Tours.mapM fun e mem => Tours.result ?_
  have place := contentAt lawful at_ mem
  rw [← joinTwo] at place
  exact mediaAtTours lawful place

theorem visitResponseMediaTours (lawful : cx.doc.lawful = true) {e : String × Value}
    (at_ : Tree.get? (l.join ["content", e.1]) cx.doc = some e.2) (code : ResponseCode)
    (acc : Build.Carried) :
    Tours cx (mediaSchemas cx.doc (headerSchemas cx.doc cx.bound) e.2 (l.join ["content", e.1]))
      (visitResponseMedia cx code l acc e.1 e.2) := by
  intro g acc' g' run
  simp only [visitResponseMedia, runBind] at run
  obtain ⟨found, m, visited, run⟩ := run
  have same : g' = m := by
    cases found with
    | none => exact (runPure.mp run).2
    | some id =>
      simp only [runBind, runGet] at run
      obtain ⟨_, _, ⟨rfl, rfl⟩, run⟩ := run
      split at run <;> exact (runPure.mp run).2
  exact same ▸ mediaAtTours lawful at_ _ _ _ visited

theorem visitResponseContentTours (lawful : cx.doc.lawful = true)
    (at_ : Tree.get? l cx.doc = some v) (code : ResponseCode) (acc : Build.Carried) :
    Tours cx (contentSchemas cx l (contentOf v)) (visitResponseContent cx code l v acc) := by
  have place := fun e mem => contentAt (e := e) lawful at_ mem
  unfold visitResponseContent
  simp only [contentSchemas, contentOf] at place ⊢
  cases held : v.membersAt? "content" with
  | none => exact Tours.pure acc
  | some content =>
    rw [held] at place
    refine Tours.foldlM (fun e mem acc => ?_) _
    exact visitResponseMediaTours lawful (joinTwo l "content" e.1 ▸ place e mem) code acc

theorem visitHeadersTours (lawful : cx.doc.lawful = true) (at_ : Tree.get? l cx.doc = some v) :
    Tours cx (responseHeaders cx l v) (visitHeaders cx l v) := by
  refine Tours.forM fun e mem => ?_
  have place := encodingHeadersAt lawful at_ mem
  rw [← joinTwo] at place
  exact resolvedHeaderTours (headerAtTours lawful) place

theorem visitCodeTours (lawful : cx.doc.lawful = true) (code : ResponseCode)
    (acc : Build.Carried) : Tours cx (codeSchemas cx l code) (visitCode cx l acc code) := by
  unfold codeSchemas visitCode
  cases at_ : Tree.get? (l.child code.code) cx.doc with
  | none =>
    simp only [at_]
    exact Tours.pure acc
  | some raw =>
    simp only [at_]
    refine Tours.resolve fun r resolved => ?_
    have here := resolvedAt (readAt at_) resolved
    exact (visitResponseContentTours lawful here code acc).bind fun _ =>
      (visitHeadersTours lawful here).result

end Carried

def schemaAsks (cx : Setting) (l : Location) : List (Value × Location) :=
  match Tree.get? l cx.doc with
  | none => []
  | some v => match Classify.classify v l with
    | .ok c => contents c.shape v l
    | .error _ => []

def parameterAsks (cx : Setting) (l : Location) : List (Value × Location) :=
  (Tree.get? l cx.doc).elim [] fun v => headerSchemas cx.doc cx.bound v l

def bodyAsks (cx : Setting) (l : Location) : List (Value × Location) :=
  (Tree.get? l cx.doc).elim [] fun v => contentSchemas cx l (contentOf v)

def responseAsks (cx : Setting) (r : Response) : List (Value × Location) :=
  r.preferred.flatMap (codeSchemas cx r.location)

def asked (cx : Setting) (g : Graph) : List (Value × Location) :=
  g.schemas.flatMap (schemaAsks cx ·.location) ++
    (g.parameters.flatMap (parameterAsks cx ·.location) ++
      (g.bodies.flatMap (bodyAsks cx ·.location) ++ g.responses.flatMap (responseAsks cx)))

end ApiGraph.Build
