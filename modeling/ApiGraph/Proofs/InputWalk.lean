import ApiGraph.Proofs.Filing

/-! Walks through what operations carry. Parameters, bodies and responses are added with their
schemas; a body has filed its schemas and a response has gathered its own when the walk ends. -/
namespace ApiGraph.Build
open Json Resolve ApiGraph.Graph

def SoundCode (cx : Setting) (l : Location) (code : ResponseCode) : Prop :=
  ∃ raw r, Tree.get? (l.child code.code) cx.doc = some raw ∧
    Resolve.resolve cx.doc raw = .ok r ∧ code.media = mediaOf cx r.value

def Demands (cx : Setting) (l : Location) (code : ResponseCode) (v : Value) (place : Location) :
    Prop :=
  ∃ raw r m, Tree.get? (l.child code.code) cx.doc = some raw ∧
    Resolve.resolve cx.doc raw = .ok r ∧ m ∈ code.mediaTypes ∧
    declaredSchema (contentOf r.value) m = some v ∧
    place = schemaPlace (r.locationOr (l.child code.code)) m

structure SettledResponse (cx : Setting) (g : Graph) (r : Response) : Prop where
  codes : ∀ code ∈ r.preferred, SoundCode cx r.location code
  schemas : Gathered cx.doc g (fun v l => ∃ code ∈ r.preferred, Demands cx r.location code v l)
    r.schemas

theorem SettledResponse.mono {cx : Setting} {g g' : Graph} {r : Response}
    (kept : g.schemas <+: g'.schemas) (h : SettledResponse cx g r) : SettledResponse cx g' r :=
  ⟨h.codes, h.schemas.mono kept⟩

theorem Adds.one {α : Type} {nodes : Graph → List α} {P : Graph → α → Prop} {g g' : Graph} {x : α}
    (added : nodes g' = nodes g ++ [x]) (holds : Indexed g → P g' x) : Adds nodes P g g' where
  kept := added ▸ List.prefix_append _ _
  fresh indexed i y outside found := by
    rw [added, List.getElem?_append_right outside] at found
    have : x = y := by
      cases place : i - (nodes g).length with
      | zero => simpa [place] using found
      | succ _ => simp [place] at found
    exact this ▸ holds indexed

/- One thing that a walk does: it visits a schema, or it changes nodes of other kinds. -/
inductive Leg (cx : Setting) : Graph → Graph → Prop
  | trip {g g'} (t : Trip cx g g') : Leg cx g g'
  | other {g g'} (e : Edit .whole g g') (schemas : g'.schemas = g.schemas)
      (types : g'.types = g.types) : Leg cx g g'

def Legs (cx : Setting) : Graph → Graph → Prop := Relation.ReflTransGen (Leg cx)

theorem Trips.legs {cx : Setting} {g g' : Graph} (h : Trips cx g g') : Legs cx g g' :=
  Relation.ReflTransGen.mono (fun _ _ => .trip) _ _ h

def Ran {α : Type} (x : Walk α) (nodes : List Schema) : Prop :=
  ∃ g a g', Indexed g ∧ x g = .ok (a, g') ∧ KeepsPlaces g'.schemas nodes

theorem Ran.mono {α : Type} {x : Walk α} {nodes nodes' : List Schema}
    (keeps : KeepsPlaces nodes nodes') (h : Ran x nodes) : Ran x nodes' := by
  obtain ⟨g, a, g', indexed, run, places⟩ := h
  exact ⟨g, a, g', indexed, run, places.trans keeps⟩

structure ParameterFacts (cx : Setting) (v : Value) (p : Parameter) : Prop where
  identity : paramIdentity v = some (p.name, p.wire.place)
  required : p.required = flagAt v "required"
  default : ∃ m, parameterDefault cx v m = .ok (p.default, m)

structure BodyFacts (cx : Setting) (v : Value) (b : RequestBody) : Prop where
  required : b.required = flagAt v "required"
  default : ∃ m, bodyDefault cx b.location (contentOf v) b.preferred m = .ok (b.default, m)

def MadeParameter (cx : Setting) (g : Graph) (p : Parameter) : Prop :=
  ∃ v, Tree.get? p.location cx.doc = some v ∧ refOf v = none ∧ ParameterFacts cx v p ∧
    Ran (headerAt cx v p.location) g.schemas

def mediaOfContent (cx : Setting) (l : Location) (content : Members) :
    Walk (List (String × Option SchemaId)) :=
  content.mapM fun (mediaType, media) => do
    return (mediaType, ← mediaAt cx media (l.join ["content", mediaType]))

def MadeBody (cx : Setting) (g : Graph) (b : RequestBody) : Prop :=
  ∃ v, Tree.get? b.location cx.doc = some v ∧ refOf v = none ∧ BodyFacts cx v b ∧
    Ran (mediaOfContent cx b.location (contentOf v)) g.schemas

def MadeResponse (cx : Setting) (g : Graph) (r : Response) : Prop :=
  ∃ acc, Ran (r.preferred.foldlM (visitCode cx r.location) acc) g.schemas

structure Sites where
  parameter : Location → Prop
  body : Location → Prop
  response : Location → Prop

def Sites.all : Sites := ⟨fun _ => True, fun _ => True, fun _ => True⟩

/- What a walk does to the nodes of every kind that it finishes. -/
structure Builds (k : Scope) (cx : Setting) (sites : Sites) (g g' : Graph) : Prop where
  grows : Grows k cx.doc g g'
  legs : Legs cx g g'
  parameters : Adds Graph.parameters (fun g p => sites.parameter p.location ∧ MadeParameter cx g p) g g'
  bodies : Adds Graph.bodies
    (fun g b => sites.body b.location ∧ FiledBody cx g b ∧ MadeBody cx g b) g g'
  responses : Adds Graph.responses
    (fun g r => sites.response r.location ∧ SettledResponse cx g r ∧ MadeResponse cx g r) g g'

namespace Builds
variable {k k' : Scope} {cx : Setting} {sites : Sites} {g m g' : Graph}

theorem refl (g : Graph) : Builds k cx sites g g :=
  ⟨.refl g, Relation.ReflTransGen.refl, .none rfl, .none rfl, .none rfl⟩

theorem trans (h : Builds k cx sites g m) (h' : Builds k cx sites m g') :
    Builds k cx sites g g' where
  grows := h.grows.trans h'.grows
  legs := Relation.ReflTransGen.trans h.legs h'.legs
  parameters := by
    refine h.parameters.trans h'.parameters h.grows.indexed fun {p} made => ?_
    obtain ⟨site, v, at_, plain, facts, ran⟩ := made
    exact ⟨site, v, at_, plain, facts, ran.mono h'.grows.keepsPlaces⟩
  bodies := by
    refine h.bodies.trans h'.bodies h.grows.indexed fun {b} made => ?_
    obtain ⟨site, files, v, at_, plain, facts, ran⟩ := made
    exact ⟨site, files.mono h'.grows.schemas.kept, v, at_, plain, facts,
      ran.mono h'.grows.keepsPlaces⟩
  responses := by
    refine h.responses.trans h'.responses h.grows.indexed fun {r} made => ?_
    obtain ⟨site, settled, acc, ran⟩ := made
    exact ⟨site, settled.mono h'.grows.schemas.kept, acc, ran.mono h'.grows.keepsPlaces⟩

theorem widen (within : k.Within k') (h : Builds k cx sites g g') :
    Builds k' cx sites g g' :=
  ⟨h.grows.widen within, h.legs, h.parameters, h.bodies, h.responses⟩

theorem anywhere (h : Builds k cx sites g g') : Builds k cx .all g g' where
  grows := h.grows
  legs := h.legs
  parameters := ⟨h.parameters.kept, fun indexed i p outside found =>
    ⟨trivial, (h.parameters.fresh indexed i p outside found).2⟩⟩
  bodies := ⟨h.bodies.kept, fun indexed i b outside found =>
    ⟨trivial, (h.bodies.fresh indexed i b outside found).2⟩⟩
  responses := ⟨h.responses.kept, fun indexed i r outside found =>
    ⟨trivial, (h.responses.fresh indexed i r outside found).2⟩⟩

theorem responsesWithin (h : Builds k cx sites g g') (indexed : Indexed g) {r : Response}
    (mem : r ∈ g'.responses) : r ∈ g.responses ∨ sites.response r.location :=
  (h.responses.source indexed mem).imp_right And.left

theorem schemas (lawful : cx.doc.lawful = true) (h : Trips cx g g') :
    Builds .inputs cx sites g g' :=
  have grows := h.grows lawful
  have same := grows.edits.keepsInputs
  ⟨grows.widen (.inl rfl), h.legs, .none same.1, .none same.2.1, .none same.2.2⟩

theorem edit (e : Edit .whole g g') (schemas : g'.schemas = g.schemas)
    (types : g'.types = g.types) (parameters : g'.parameters = g.parameters)
    (bodies : g'.bodies = g.bodies) (responses : g'.responses = g.responses) :
    Builds .whole cx sites g g' :=
  ⟨.edit e schemas, .single (.other e schemas types), .none parameters, .none bodies,
    .none responses⟩

end Builds

theorem Trips.between {cx : Setting} {g m m' g' : Graph} (made : Edit .inputs g m)
    (schemas : m.schemas = g.schemas) (types : m.types = g.types) (trips : Trips cx m m')
    (done : Edit .inputs m' g') (schemas' : g'.schemas = m'.schemas)
    (types' : g'.types = m'.types) : Legs cx g g' := by
  have wide : Scope.Within .inputs .whole := .inr (.inr rfl)
  have first : Leg cx g m := .other (made.widen wide) schemas types
  have last : Leg cx m' g' := .other (done.widen wide) schemas' types'
  exact (Relation.ReflTransGen.head first trips.legs).tail last

section Inputs
variable {cx : Setting} {sites : Sites} {g g' : Graph} {v : Value} {l : Location}

theorem parameterDefaultAsks (cx : Setting) (v : Value) : Asks (parameterDefault cx v) := by
  unfold parameterDefault
  split
  · exact Asks.pure none
  · exact (Asks.resolve cx _).bind fun r => Asks.pure _

theorem setAddedParameter {g m : Graph} {p : Parameter} (added : m.parameters = g.parameters ++ [p])
    (f : Parameter → Parameter) :
    (m.setParameter ⟨g.parameters.length⟩ f).parameters = g.parameters ++ [f p] := by
  rw [setParameter, added]
  exact modifyMiddle g.parameters [] p f

theorem runParameterNode {id : ParameterId} (run : parameterNode cx l v g = .ok (id, g')) :
    (g.nodeAt l = some (.parameter id) ∧ g' = g) ∨
      ((∀ id, g.nodeAt l ≠ some (.parameter id)) ∧ id = ⟨g.parameters.length⟩ ∧ ∃ p schema m,
        p.location = l ∧ ParameterFacts cx v p ∧
        headerAt cx v l (g.addParameter p).2 = .ok (schema, m) ∧
        g' = m.setParameter id fun p => { p with schema := schema }) := by
  simp only [parameterNode, runBind, runGet] at run
  obtain ⟨_, m, ⟨rfl, rfl⟩, run⟩ := run
  change StateT.run _ _ = _ at run
  split at run
  · rename_i old found
    obtain ⟨rfl, rfl⟩ := runPure.mp run
    exact .inl ⟨found, rfl⟩
  · rename_i free
    split at run
    · exact (runThrow.mp run).elim
    · rename_i name place identity
      simp only [StateT.run, runBind, runGet, runSet, runModify, runPure] at run
      obtain ⟨default, _, kept, _, _, ⟨rfl, rfl⟩, _, _, rfl, schema, m', visited, _, _, rfl, rfl, rfl⟩ :=
        run
      cases (parameterDefaultAsks cx v _ _ _ kept).1
      exact .inr ⟨free, rfl, _, schema, m', rfl, ⟨identity, rfl, _, kept⟩, visited, rfl⟩

theorem parameterNodeBuilds (lawful : cx.doc.lawful = true) (at_ : Tree.get? l cx.doc = some v)
    (plain : refOf v = none) (site : sites.parameter l) {id : ParameterId}
    (run : parameterNode cx l v g = .ok (id, g')) : Builds .inputs cx sites g g' ∧
      (Indexed g → g'.location? (.parameter id) = some l) := by
  obtain ⟨found, rfl⟩ | ⟨free, rfl, p, schema, m, placed, facts, visited, rfl⟩ := runParameterNode run
  · exact ⟨.refl _, fun indexed => indexed.placed found⟩
  · have added : Edit .inputs g (g.addParameter p).2 := .parameter (by simp) _ (placed ▸ free)
    have done : Edit .inputs m (m.setParameter (g.addParameter p).1
      fun p => { p with schema := schema }) := .carry (by simp) _ schema
    have trips := headerAtTravels lawful at_ _ _ _ visited
    have grows := trips.grows lawful
    obtain ⟨parameters, bodies, responses⟩ := grows.edits.keepsInputs
    have after := setAddedParameter parameters fun p => { p with schema := schema }
    refine ⟨⟨(Grows.edit added rfl).trans ((grows.widen (.inl rfl)).trans (.edit done rfl)),
      trips.between added rfl rfl done rfl rfl, .one after fun indexed => ?_, .none bodies,
      .none responses⟩, fun _ => ?_⟩
    · have indexed' := Edits.indexed (.single added) indexed
      subst placed
      exact ⟨site, v, at_, plain, ⟨facts.identity, facts.required, facts.default⟩, _, _, _, indexed',
        visited, .refl _⟩
    · simp [location?, parameter?, after, placed]

theorem preferredSchemasAsks (cx : Setting) (l : Location) (content : Members)
    (preferred : List String) : Asks (preferredSchemas cx l content preferred) := by
  unfold preferredSchemas
  refine (Asks.mapM (fun mediaType => ?_) preferred).bind fun found => Asks.pure _
  split
  · exact Asks.pure none
  · exact (Asks.resolve cx _).bind fun r => Asks.pure _

theorem bodyDefaultAsks (cx : Setting) (l : Location) (content : Members)
    (preferred : List String) : Asks (bodyDefault cx l content preferred) := by
  unfold bodyDefault
  refine (preferredSchemasAsks cx l content preferred).bind fun found => ?_
  split
  · exact Asks.pure _
  · exact Asks.pure none

theorem contentAt {v : Value} {e : String × Value} (lawful : cx.doc.lawful = true)
    (at_ : Tree.get? l cx.doc = some v) (mem : e ∈ contentOf v) :
    Tree.get? ((l.child "content").child e.1) cx.doc = some e.2 := by
  cases held : v.membersAt? "content" with
  | none => simp [contentOf, held] at mem
  | some content =>
    simp only [contentOf, held, Option.getD_some] at mem
    exact Tree.memberAt lawful at_ held mem

theorem contentOnce {v : Value} (lawful : v.lawful = true) :
    (Entries.keys (contentOf v)).Nodup := by
  cases held : v.membersAt? "content" with
  | none => simp [contentOf, held, Entries.keys]
  | some content =>
    simp only [contentOf, held, Option.getD_some]
    have inside : (Value.obj content).lawful = true := by
      cases v with
      | obj members =>
        exact (Value.lawfulObject.mp lawful).2 _ (Entries.mem_of_lookup (Value.membersAtSome held))
      | _ => simp [Value.membersAt?, Value.get?] at held
    exact (Value.lawfulObject.mp inside).1

theorem mediaOfContentTrips (lawful : cx.doc.lawful = true) (at_ : Tree.get? l cx.doc = some v)
    {byMedia : List (String × Option SchemaId)}
    (run : mediaOfContent cx l (contentOf v) g = .ok (byMedia, g')) : Trips cx g g' := by
  refine (runMapM.mp run).keeps (R := Trips cx) .refl .trans ?_
  intro e mem _ _ _ one
  simp only [runBind, runPure, joinTwo] at one
  obtain ⟨id, _, visited, _, rfl⟩ := one
  exact (mediaAtTrips lawful (contentAt lawful at_ mem) visited).1

theorem mediaOfContentMirrors (lawful : cx.doc.lawful = true) (at_ : Tree.get? l cx.doc = some v)
    {byMedia : List (String × Option SchemaId)}
    (run : mediaOfContent cx l (contentOf v) g = .ok (byMedia, g')) (indexed : Indexed g) :
    ∀ m, MirrorsOption cx.doc g'.schemas (schemaPlace l m) (declaredSchema (contentOf v) m)
      ((byMedia.filterMap fun e => e.2.map fun id => (e.1, id)).lookup m) := by
  have step : Grows .schemas cx.doc g g' ∧ (Indexed g → List.Forall₂ (fun e e' => e'.1 = e.1 ∧
      MirrorsOption cx.doc g'.schemas (schemaPlace l e.1) (e.2.get? "schema") e'.2)
      (contentOf v) byMedia) := by
    refine (runMapM.mp run).grows (P := fun nodes e e' => e'.1 = e.1 ∧
      MirrorsOption cx.doc nodes (schemaPlace l e.1) (e.2.get? "schema") e'.2) ?_ ?_
    · intro _ _ _ _ keeps e
      exact ⟨e.1, e.2.mono keeps⟩
    · rintro ⟨name, media⟩ mem _ _ _ one
      simp only [runBind, runPure, joinTwo] at one
      obtain ⟨id, _, visited, rfl, rfl⟩ := one
      obtain ⟨trips, stands⟩ := mediaAtTrips lawful (contentAt lawful at_ mem) visited
      exact ⟨trips.grows lawful, fun indexed => ⟨rfl, stands indexed⟩⟩
  have once := contentOnce (Tree.lawfulAt lawful at_)
  exact foundMirrors once (step.2 indexed)

theorem setAddedBody {g m : Graph} {b : RequestBody} (added : m.bodies = g.bodies ++ [b])
    (f : RequestBody → RequestBody) :
    (m.setBody ⟨g.bodies.length⟩ f).bodies = g.bodies ++ [f b] := by
  rw [setBody, added]
  exact modifyMiddle g.bodies [] b f

theorem runBodyNode {name : String} {preferred : List String} {id : BodyId}
    (run : bodyNode cx l v name preferred g = .ok (id, g')) :
    (g.nodeAt l = some (.body id) ∧ g' = g) ∨
      ((∀ id, g.nodeAt l ≠ some (.body id)) ∧ id = ⟨g.bodies.length⟩ ∧ ∃ b byMedia m schemas,
        b.location = l ∧ b.name = name ∧ b.preferred = preferred ∧ BodyFacts cx v b ∧
        mediaOfContent cx l (contentOf v) (g.addBody b).2 = .ok (byMedia, m) ∧
        schemas =
          fileSchemas cx m (byMedia.filterMap fun e => e.2.map fun id => (e.1, id)) preferred ∧
        g' = m.setBody id fun b => { b with schemas := schemas }) := by
  simp only [bodyNode, runBind, runGet] at run
  obtain ⟨_, m, ⟨rfl, rfl⟩, run⟩ := run
  change StateT.run _ _ = _ at run
  split at run
  · rename_i old found
    obtain ⟨rfl, rfl⟩ := runPure.mp run
    exact .inl ⟨found, rfl⟩
  · rename_i free
    simp only [StateT.run, runBind, runGet, runSet, runModify, runPure] at run
    obtain ⟨default, _, kept, _, _, ⟨rfl, rfl⟩, _, _, rfl, byMedia, m', visited, _, _, rfl, rfl, rfl⟩ :=
      run
    cases (bodyDefaultAsks cx l _ preferred _ _ _ kept).1
    refine .inr ⟨free, rfl, ⟨l, name, flagAt v "required", preferred, [], default⟩, byMedia, m',
      _, rfl, rfl, rfl, ⟨rfl, _, kept⟩, visited, rfl, rfl⟩

theorem bodyNodeBuilds (lawful : cx.doc.lawful = true) (at_ : Tree.get? l cx.doc = some v)
    (plain : refOf v = none) (site : sites.body l) {name : String} {preferred : List String}
    (ranked : preferred = Preference.mediaTypes cx.requestPatterns (Entries.keys (contentOf v)))
    {id : BodyId} (run : bodyNode cx l v name preferred g = .ok (id, g')) :
    Builds .inputs cx sites g g' ∧ (Indexed g → ∃ b, g'.body? id = some b ∧ b.location = l ∧
      ((b.name = name ∧ b.preferred = preferred) ∨ g.nodeAt l = some (.body id))) := by
  obtain ⟨found, rfl⟩ |
    ⟨free, rfl, b, byMedia, m, schemas, placed, named, prefers, facts, visited, filed, rfl⟩ :=
    runBodyNode run
  · refine ⟨.refl _, fun indexed => ?_⟩
    obtain ⟨b, held, placed⟩ := Option.map_eq_some_iff.mp (indexed.placed found)
    exact ⟨b, held, placed, .inr found⟩
  · have trips := mediaOfContentTrips lawful at_ visited
    have added : Edit .inputs g (g.addBody b).2 := .body (by simp) _ (placed ▸ free)
    have done : Edit .inputs m (m.setBody (g.addBody b).1 fun b => { b with schemas := schemas }) :=
      .file (by simp) _ _
    have grows := trips.grows lawful
    obtain ⟨parameters, bodies, responses⟩ := grows.edits.keepsInputs
    have after := setAddedBody bodies fun b => { b with schemas := schemas }
    refine ⟨⟨(Grows.edit added rfl).trans ((grows.widen (.inl rfl)).trans (.edit done rfl)),
      trips.between added rfl rfl done rfl rfl, .none parameters,
      .one after fun indexed => ?_, .none responses⟩, fun _ => ?_⟩
    · obtain ⟨picked, picks, same⟩ := fileSchemasPicks lawful m
        (byMedia.filterMap fun e => e.2.map fun id => (e.1, id)) preferred
      have indexed' := Edits.indexed (.single added) indexed
      have mirrors := mediaOfContentMirrors lawful at_ visited indexed'
      subst placed prefers filed
      exact ⟨site, ⟨v, at_, ranked, _, picked, mirrors, picks, same⟩,
        v, at_, plain, ⟨facts.required, facts.default⟩, _, _, _, indexed', visited, .refl _⟩
    · simp [body?, after, placed, named, prefers]

end Inputs

section Responses
variable {cx : Setting} {sites : Sites} {g g' : Graph} {v : Value} {l : Location} {α : Type}

def Collects (cx : Setting) (demand : Value → Location → Prop) (f : Carried → Walk Carried) :
    Prop :=
  ∀ {acc g acc' g'}, f acc g = .ok (acc', g') → Trips cx g g' ∧
    (Indexed g → ∀ {asked : Value → Location → Prop}, Gathered cx.doc g asked acc.schemas →
      Gathered cx.doc g' (fun v l => asked v l ∨ demand v l) acc'.schemas)

theorem Folds.collects (lawful : cx.doc.lawful = true) {P : α → Value → Location → Prop}
    {f : Carried → α → Walk Carried} {xs : List α} {acc acc' : Carried} (folds : Folds f acc xs g acc' g')
    (each : ∀ x ∈ xs, Collects cx (P x) (f · x)) :
    Trips cx g g' ∧
      (Indexed g → ∀ {asked : Value → Location → Prop}, Gathered cx.doc g asked acc.schemas →
        Gathered cx.doc g' (fun v l => asked v l ∨ ∃ x ∈ xs, P x v l) acc'.schemas) := by
  induction folds with
  | nil => exact ⟨.refl _, fun _ _ gathered => gathered.congr (by simp)⟩
  | cons head _ ih =>
    obtain ⟨trips, collects⟩ := each _ List.mem_cons_self head
    obtain ⟨more, rest⟩ := ih fun x mem => each x (List.mem_cons_of_mem _ mem)
    refine ⟨trips.trans more, fun indexed asked gathered => ?_⟩
    exact (rest ((trips.grows lawful).indexed indexed) (collects indexed gathered)).congr (by simp [or_assoc])

def MediaDemand (code : ResponseCode) (l : Location) (e : String × Value) (v : Value)
    (place : Location) : Prop :=
  e.1 ∈ code.mediaTypes ∧ e.2.get? "schema" = some v ∧ place = schemaPlace l e.1

theorem visitResponseMediaCollects (lawful : cx.doc.lawful = true) (code : ResponseCode)
    {e : String × Value}
    (at_ : Tree.get? ((l.child "content").child e.1) cx.doc = some e.2) :
    Collects cx (MediaDemand code l e) fun acc => visitResponseMedia cx code l acc e.1 e.2 := by
  intro acc g acc' g' run
  simp only [visitResponseMedia, runBind, joinTwo] at run
  obtain ⟨found, m, visited, run⟩ := run
  obtain ⟨trips, mirrors⟩ := mediaAtTrips lawful at_ visited
  have grows := trips.grows lawful
  cases found with
  | none =>
    obtain ⟨rfl, rfl⟩ := runPure.mp run
    refine ⟨trips, fun indexed asked gathered => (gathered.mono grows.schemas.kept).congr ?_⟩
    intro v place
    have bare : e.2.get? "schema" = none := by
      have := mirrors indexed
      cases held : e.2.get? "schema" with
      | none => rfl
      | some v => simp [held, MirrorsOption] at this
    simp [MediaDemand, bare]
  | some id =>
    simp only [runBind, runGet] at run
    obtain ⟨_, m, ⟨rfl, rfl⟩, run⟩ := run
    have result : g' = m ∧ acc'.schemas =
        if code.mediaTypes.contains e.1 && !acc.schemas.any (m.schemasMatch cx.doc · id) then
          acc.schemas ++ [id] else acc.schemas := by
      cases choice : code.mediaTypes.contains e.1 && !acc.schemas.any (m.schemasMatch cx.doc · id)
        <;> simp only [isNew, choice, Bool.false_eq_true, if_true, if_false, runPure] at run ⊢
        <;> exact ⟨run.2, by rw [run.1]⟩
    obtain ⟨rfl, result⟩ := result
    refine ⟨trips, fun indexed asked gathered => ?_⟩
    obtain ⟨x, s, held, stands, _⟩ := mirroredNode (mirrors indexed)
    have before := gathered.mono grows.schemas.kept
    rw [result]
    cases accepted : code.mediaTypes.contains e.1 with
    | false =>
      have outside : e.1 ∉ code.mediaTypes := by simpa using accepted
      exact before.congr fun v place => by simp [MediaDemand, outside]
    | true =>
      have inside : e.1 ∈ code.mediaTypes := by simpa using accepted
      have after := before.add lawful stands
      cases known : acc.schemas.any (g'.schemasMatch cx.doc · id) <;> rw [known] at after
      · exact after.congr fun v place => by simp [MediaDemand, inside, held, schemaPlace, eq_comm]
      · exact after.congr fun v place => by simp [MediaDemand, inside, held, schemaPlace, eq_comm]

def ContentDemand (code : ResponseCode) (l : Location) (response v : Value) (place : Location) :
    Prop :=
  ∃ m ∈ code.mediaTypes, declaredSchema (contentOf response) m = some v ∧ place = schemaPlace l m

theorem visitResponseContentCollects (lawful : cx.doc.lawful = true) (code : ResponseCode)
    (at_ : Tree.get? l cx.doc = some v) :
    Collects cx (ContentDemand code l v) fun acc => visitResponseContent cx code l v acc := by
  intro acc g acc' g' run
  cases held : v.membersAt? "content" with
  | none =>
    simp only [visitResponseContent, held, runPure] at run
    obtain ⟨rfl, rfl⟩ := run
    refine ⟨.refl _, fun indexed asked gathered => gathered.congr fun v place => ?_⟩
    simp [ContentDemand, contentOf, held, declaredSchema]
  | some content =>
    simp only [visitResponseContent, held] at run
    have same : contentOf v = content := by simp [contentOf, held]
    have once := contentOnce (Tree.lawfulAt lawful at_)
    rw [same] at once
    obtain ⟨trips, collects⟩ := (runFoldlM.mp run).collects lawful (P := MediaDemand code l)
      fun e mem => visitResponseMediaCollects lawful code (Tree.memberAt lawful at_ held mem)
    refine ⟨trips, fun indexed asked gathered => (collects indexed gathered).congr ?_⟩
    intro w place
    refine or_congr_right ⟨?_, ?_⟩
    · rintro ⟨e, mem, inside, schema, rfl⟩
      refine ⟨e.1, inside, ?_, rfl⟩
      simp [declaredSchema, same, Entries.lookupOfMem once mem, schema]
    · rintro ⟨m, inside, declared, rfl⟩
      obtain ⟨media, found, schema⟩ := Option.bind_eq_some_iff.mp (same ▸ declared)
      exact ⟨(m, media), Entries.mem_of_lookup found, inside, schema, rfl⟩

theorem visitHeadersTravels (lawful : cx.doc.lawful = true) (at_ : Tree.get? l cx.doc = some v) :
    Travels cx (visitHeaders cx l v) := by
  refine Travels.forM fun e mem => ?_
  simp only [joinTwo]
  exact resolvedHeaderTravels (headerAtTravels lawful) (encodingHeadersAt lawful at_ mem)

theorem visitCodeCollects (lawful : cx.doc.lawful = true) (code : ResponseCode) :
    Collects cx (Demands cx l code) fun acc => visitCode cx l acc code := by
  intro acc g acc' g' run
  cases at_ : Tree.get? (l.child code.code) cx.doc with
  | none =>
    simp only [visitCode, at_, runPure] at run
    obtain ⟨rfl, rfl⟩ := run
    refine ⟨.refl _, fun indexed asked gathered => gathered.congr fun v place => ?_⟩
    simp [Demands, at_]
  | some raw =>
    simp only [visitCode, at_, runBind, runResolve, runPure] at run
    obtain ⟨r, _, ⟨resolved, rfl⟩, acc₁, m, content, _, _, headers, rfl, rfl⟩ := run
    have here := resolvedAt (readAt at_) resolved
    obtain ⟨trips, collects⟩ := visitResponseContentCollects lawful code here content
    have more := visitHeadersTravels lawful here _ _ _ headers
    refine ⟨trips.trans more, fun indexed asked gathered =>
      ((collects indexed gathered).mono (more.grows lawful).schemas.kept).congr fun v place => ?_⟩
    simp [ContentDemand, Demands, at_, resolved]

theorem setAddedResponse {m : Graph} {r : Response} (added : m.responses = g.responses ++ [r])
    (f : Response → Response) :
    (m.setResponse ⟨g.responses.length⟩ f).responses = g.responses ++ [f r] := by
  rw [setResponse, added]
  exact modifyMiddle g.responses [] r f

theorem runResponseNode {preferred : List ResponseCode} {id : ResponseId}
    (run : responseNode cx l preferred g = .ok (id, g')) :
    (g.nodeAt l = some (.response id) ∧ g' = g) ∨
      ((∀ id, g.nodeAt l ≠ some (.response id)) ∧ id = ⟨g.responses.length⟩ ∧ ∃ r carried m,
        r.location = l ∧ r.preferred = preferred ∧ r.hasAny = preferred.any (·.media == .any) ∧
        preferred.foldlM (visitCode cx l) ⟨[], r.hasAny⟩ (g.addResponse r).2 = .ok (carried, m) ∧
        g' = m.setResponse id fun r =>
          { r with schemas := carried.schemas, hasAny := carried.hasAny }) := by
  simp only [responseNode, runBind, runGet] at run
  obtain ⟨_, m, ⟨rfl, rfl⟩, run⟩ := run
  change StateT.run _ _ = _ at run
  split at run
  · rename_i old found
    obtain ⟨rfl, rfl⟩ := runPure.mp run
    exact .inl ⟨found, rfl⟩
  · rename_i free
    simp only [StateT.run, runBind, runGet, runSet, runModify, runPure] at run
    obtain ⟨_, _, ⟨rfl, rfl⟩, _, _, rfl, carried, m', visited, _, _, rfl, rfl, rfl⟩ := run
    exact .inr ⟨free, rfl, ⟨l, preferred, [], _, _⟩, carried, m', rfl, rfl, rfl, visited, rfl⟩

theorem responseNodeBuilds (lawful : cx.doc.lawful = true) {preferred : List ResponseCode}
    (codes : ∀ code ∈ preferred, SoundCode cx l code) (site : sites.response l) {id : ResponseId}
    (run : responseNode cx l preferred g = .ok (id, g')) : Builds .inputs cx sites g g' ∧
      (Indexed g → ∃ r, g'.response? id = some r ∧ r.location = l ∧
        (r.preferred = preferred ∨ g.nodeAt l = some (.response id))) := by
  obtain ⟨found, rfl⟩ | ⟨free, rfl, r, carried, m, placed, prefers, _, visited, rfl⟩ :=
    runResponseNode run
  · refine ⟨.refl _, fun indexed => ?_⟩
    obtain ⟨r, held, placed⟩ := Option.map_eq_some_iff.mp (indexed.placed found)
    exact ⟨r, held, placed, .inr found⟩
  · obtain ⟨trips, collects⟩ := (runFoldlM.mp visited).collects lawful (P := Demands cx l)
      fun code _ => visitCodeCollects lawful code
    have added : Edit .inputs g (g.addResponse r).2 := .response (by simp) _ (placed ▸ free)
    have done : Edit .inputs m (m.setResponse (g.addResponse r).1 fun r =>
        { r with schemas := carried.schemas, hasAny := carried.hasAny }) :=
      .settle (by simp) _ _ _
    have grows := trips.grows lawful
    obtain ⟨parameters, bodies, responses⟩ := grows.edits.keepsInputs
    have after := setAddedResponse responses fun r =>
      { r with schemas := carried.schemas, hasAny := carried.hasAny }
    refine ⟨⟨(Grows.edit added rfl).trans ((grows.widen (.inl rfl)).trans (.edit done rfl)),
      trips.between added rfl rfl done rfl rfl, .none parameters, .none bodies,
      .one after fun indexed => ?_⟩, fun _ => ?_⟩
    · have indexed' := Edits.indexed (.single added) indexed
      have gathered := collects indexed' .nil
      subst placed prefers
      exact ⟨site, ⟨codes, gathered.congr fun v place => by simp⟩,
        _, _, _, _, indexed', visited, .refl _⟩
    · simp [response?, after, placed, prefers]

end Responses
end ApiGraph.Build
