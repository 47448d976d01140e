import ApiGraph.Proofs.BodyVerdicts
import ApiGraph.Proofs.Rehydration

/-! What a walk has made can be made again from another graph: the group of a name, the nodes of an
operation's inputs and its method. Whether a body is refused does not depend on the graph that it is
made in, so an operation that was built in one is built in the other. -/
namespace ApiGraph.Build
open Json Resolve ApiGraph.Graph Declaration

section Groups
variable {cx : Setting} {g g' : Graph} {name : String} {l : Location}

theorem Tagged.one {l' : Location} (h : Tagged cx name l) (h' : Tagged cx name l') : l' = l := by
  obtain ⟨_, _, run⟩ := h
  obtain ⟨_, _, run'⟩ := h'
  exact Option.some.inj ((findTagAsks cx name _).one run run')

def AllTagged (cx : Setting) (g : Graph) : Prop := ∀ a ∈ g.apis, Tagged cx a.name a.location

theorem AllTagged.named (tagged : AllTagged cx g) {id : ApiId}
    (run : apiNamed cx name g = .ok (id, g')) :
    AllTagged cx g' ∧ ∃ l, Tagged cx name l := by
  cases apiNamedSource run with
  | known listed same =>
    subst same
    obtain ⟨k, found, rfl⟩ := Option.map_eq_some_iff.mp listed
    obtain ⟨inside, same, _⟩ := List.findIdx?_eq_some_iff_getElem.mp found
    exact ⟨tagged, _, eq_of_beq same ▸ tagged _ (List.getElem_mem inside)⟩
  | held _ tag _ same => exact ⟨same ▸ tagged, _, tag⟩
  | made _ tag _ added =>
    subst added
    refine ⟨fun a mem => ?_, _, tag⟩
    rcases List.mem_append.mp mem with old | new
    · exact tagged a old
    · exact List.mem_singleton.mp new ▸ tag

theorem AllTagged.same (tagged : AllTagged cx g)
    (apis : g'.apis.map (fun a => (a.name, a.location)) = g.apis.map fun a => (a.name, a.location)) :
    AllTagged cx g' := by
  intro a mem
  have told : (a.name, a.location) ∈ g'.apis.map fun a => (a.name, a.location) :=
    List.mem_map_of_mem mem
  rw [apis] at told
  obtain ⟨a', inside, same⟩ := List.mem_map.mp told
  obtain ⟨name, placed⟩ := Prod.mk.inj same
  rw [← name, ← placed]
  exact tagged a' inside

theorem apiNamedSucceeds (tag : Tagged cx name l) :
    Succeeds (fun _ => True) (apiNamed cx name) := by
  obtain ⟨v, at_, plain, _⟩ := tag.at_
  have made : Succeeds (fun _ => True) (apiAt cx l) := by
    unfold apiAt
    refine Succeeds.get fun m => ?_
    split
    · exact Succeeds.pure _
    · have found : Succeeds (fun _ => True) (cx.resolveAt l) := fun m _ =>
        ⟨_, m, runResolveAt.mpr ⟨resolveAtFinal at_ plain, rfl⟩, trivial⟩
      exact found.bind fun e => Succeeds.put (fun _ _ => trivial) fun _ => Succeeds.pure _
  obtain ⟨_, _, sought⟩ := tag
  intro m _
  cases known : m.apiIdNamed name with
  | some id =>
    refine ⟨id, m, ?_, trivial⟩
    simp only [apiNamed, runBind, runGet]
    exact ⟨m, m, ⟨rfl, rfl⟩, by simp only [known, runPure, and_self]⟩
  | none =>
    obtain ⟨id, m', run, _⟩ := made m trivial
    refine ⟨id, m', ?_, trivial⟩
    simp only [apiNamed, runBind, runGet]
    refine ⟨m, m, ⟨rfl, rfl⟩, ?_⟩
    simp only [known, runBind]
    exact ⟨_, _, (findTagAsks cx name _ _ _ _ sought).2 m, run⟩

end Groups

section Refusals
variable {doc v w : Value} {g h : Graph} {p q : Location} {a b a' b' : SchemaId}

theorem placeTold {nodes nodes' : List Schema} {s s' : Schema} (mirrors : Mirrors doc nodes s v)
    (mirrors' : Mirrors doc nodes' s' w) (same : s'.location = s.location) :
    s'.baseType = s.baseType ∧ s'.format = s.format := by
  have at_ := mirrors'.located
  rw [same, mirrors.located] at at_
  cases at_
  obtain ⟨c, told, base, format, _⟩ := mirrors.classified
  obtain ⟨c', told', base', format', _⟩ := mirrors'.classified
  rw [same, told] at told'
  cases told'
  exact ⟨base'.trans base.symm, format'.trans format.symm⟩

theorem matchElsewhere (lawful : doc.lawful = true) (mirrored : Mirrored doc g.schemas)
    (mirrored' : Mirrored doc h.schemas) (left : StandsFor doc g.schemas v p a)
    (right : StandsFor doc g.schemas w q b) (left' : StandsFor doc h.schemas v p a')
    (right' : StandsFor doc h.schemas w q b') (alike : g.schemasMatch doc a b = true) :
    h.schemasMatch doc a' b' = true := by
  obtain ⟨r, s, resolved, found, placed⟩ := left
  obtain ⟨r₁, t, resolved₁, found₁, placed₁⟩ := right
  obtain ⟨r', s', again, found', placed'⟩ := left'
  obtain ⟨r₁', t', again₁, found₁', placed₁'⟩ := right'
  cases resolved.symm.trans again
  cases resolved₁.symm.trans again₁
  obtain ⟨x, mirrors⟩ := mirrored s (List.mem_of_getElem? found)
  obtain ⟨y, mirrors₁⟩ := mirrored t (List.mem_of_getElem? found₁)
  have agrees : s.baseType = t.baseType ∧ s.format = t.format ∧ Agreement.agree x y = true := by
    rcases schemasMatchIff.mp alike with rfl | ⟨s₂, t₂, x₂, y₂, held, held₁, base, format, at_, at₁, agrees⟩
    · cases found.symm.trans found₁
      cases mirrors.located.symm.trans mirrors₁.located
      exact ⟨rfl, rfl, agreeRefl x (Tree.lawfulAt lawful mirrors.located)⟩
    · cases found.symm.trans held
      cases found₁.symm.trans held₁
      cases mirrors.located.symm.trans at_
      cases mirrors₁.located.symm.trans at₁
      exact ⟨base, format, agrees⟩
  have same : s'.location = s.location := placed'.trans placed.symm
  have same₁ : t'.location = t.location := placed₁'.trans placed₁.symm
  obtain ⟨x', mirrors'⟩ := mirrored' s' (List.mem_of_getElem? found')
  obtain ⟨y', mirrors₁'⟩ := mirrored' t' (List.mem_of_getElem? found₁')
  obtain ⟨base, format⟩ := placeTold mirrors mirrors' same
  obtain ⟨base₁, format₁⟩ := placeTold mirrors₁ mirrors₁' same₁
  refine schemasMatchIff.mpr (.inr ⟨s', t', x, y, found', found₁', ?_, ?_, same ▸ mirrors.located,
    same₁ ▸ mirrors₁.located, agrees.2.2⟩)
  · rw [base, base₁, agrees.1]
  · rw [format, format₁, agrees.2.1]

theorem filedBody {cx : Setting} {k : Scope} {sites : Sites}
    (builds : Builds k cx sites .empty g) {b : RequestBody} (mem : b ∈ g.bodies) :
    FiledBody cx g b ∧ MadeBody cx g b := by
  obtain ⟨i, found⟩ := List.getElem?_of_mem mem
  exact (builds.bodies.fresh emptyIndexed i b (Nat.zero_le _) found).2

theorem refusalAgrees {cx : Setting} (lawful : cx.doc.lawful = true)
    (builds : Builds .whole cx .all .empty g) (builds' : Builds .whole cx .all .empty h)
    {b b' : RequestBody} (mem : b ∈ g.bodies) (mem' : b' ∈ h.bodies)
    (same : b'.location = b.location) {role : Role} (accepted : b.refusal role = none) :
    b'.refusal role = none := by
  obtain ⟨⟨v, at_, files⟩, _⟩ := filedBody builds mem
  obtain ⟨⟨v', at', files'⟩, _⟩ := filedBody builds' mem'
  rw [same, at_] at at'
  cases at'
  have mirrored := mirroredSchemas builds
  have mirrored' := mirroredSchemas builds'
  have refused := refusalIff lawful mirrored files role
  refine Option.eq_none_iff_forall_ne_some.mpr fun e told => ?_
  rcases (refusalIff lawful mirrored' files' role e).mp told with ⟨rfl, none⟩ | ⟨rfl, server, differ⟩
  · have impossible := (refused (.noAcceptableBody b.location)).mpr (.inl ⟨rfl, none⟩)
    simp [accepted] at impossible
  · obtain ⟨m, x, m', x', i, j, carries, carries', left, right, apart⟩ := differ
    rw [same] at left right
    have stands : ∀ {m x}, CarriesSchema cx.requestPatterns (contentOf v) m x →
        ∃ id, StandsFor cx.doc g.schemas x (schemaPlace b.location m) id := by
      intro m x carries
      have inside : m ∈ b.preferred := by
        rw [files.ranked, Preference.memMediaTypes]
        exact carries.1
      exact (filedDistinct lawful mirrored files).listed m inside x carries.2
    obtain ⟨i₀, left₀⟩ := stands carries
    obtain ⟨j₀, right₀⟩ := stands carries'
    have apart₀ : g.schemasMatch cx.doc i₀ j₀ = false := by
      by_contra alike
      rw [matchElsewhere lawful mirrored mirrored' left₀ right₀ left right (by simpa using alike)]
        at apart
      contradiction
    have impossible := (refused (.ambiguousBody b.location)).mpr (.inr ⟨rfl, server, m, x, m', x',
      i₀, j₀, carries, carries', left₀, right₀, apart₀⟩)
    simp [accepted] at impossible

end Refusals

section Methods
variable {cx : Setting} {g g' h : Graph}

theorem wider {g m g' : Graph} (builds : Builds .whole cx .all g m)
    (more : Builds .inputs cx .all m g') : Builds .whole cx .all g g' :=
  builds.trans (more.widen (.inr (.inr rfl)))

theorem inputNodeRepeats (lawful : cx.doc.lawful = true) {plan : InputPlan}
    (sound : SoundInput cx plan) (builds : Builds .whole cx .all .empty g)
    (builds' : Builds .whole cx .all .empty h) {i : MethodInput}
    (run : inputNode cx plan g = .ok (i, g')) (accepted : inputError cx.config.role g' i = none) :
    ∃ i' h', inputNode cx plan h = .ok (i', h') ∧ inputError cx.config.role h' i' = none := by
  obtain ⟨made, node⟩ := inputNodeBuilds lawful sound run
  have after := wider builds made.anywhere
  have there := node (builds.grows.indexed emptyIndexed)
  cases there with
  | @parameter p id stands =>
    obtain ⟨n, held, placed⟩ := Option.map_eq_some_iff.mp stands
    have source := (after.parameters.fresh emptyIndexed _ n (Nat.zero_le _) held).2
    obtain ⟨id', h', again, _⟩ := parameterNodeSucceeds lawful
      (anyKept lawful (mirroredSchemas after)) source (.refl _) trivial (placed ▸ sound.1) h trivial
    rw [placed] at again
    refine ⟨.parameter id', h', ?_, rfl⟩
    simp only [inputNode, runBind, runPure]
    exact ⟨id', h', again, rfl, rfl⟩
  | @body b id stands =>
    obtain ⟨n, held, placed⟩ := Option.map_eq_some_iff.mp stands
    have mem : n ∈ g'.bodies := List.mem_of_getElem? held
    obtain ⟨⟨v, at_, files⟩, source⟩ := filedBody after mem
    rw [placed, sound.1] at at_
    cases at_
    have succeeds : Succeeds (fun _ => True) (bodyNode cx n.location b.value b.name n.preferred) :=
      bodyNodeSucceeds lawful (anyKept lawful (mirroredSchemas after)) source (.refl _) trivial
        trivial (placed ▸ sound.1)
    obtain ⟨id', h', again, _⟩ := succeeds h trivial
    rw [placed, files.ranked, ← sound.2.2] at again
    have again' : inputNode cx (.body b) h = .ok (.body id', h') := by
      simp only [inputNode, runBind, runPure]
      exact ⟨id', h', again, rfl, rfl⟩
    obtain ⟨made', node'⟩ := inputNodeBuilds lawful sound again'
    cases node' (builds'.grows.indexed emptyIndexed) with
    | body stands' =>
      obtain ⟨n', held', placed'⟩ := Option.map_eq_some_iff.mp stands'
      refine ⟨_, h', again', (bodyErrorOf held').trans ?_⟩
      exact refusalAgrees lawful after (wider builds' made'.anywhere) mem (List.mem_of_getElem? held')
        (placed'.trans placed.symm) ((bodyErrorOf held).symm.trans accepted)

theorem inputNodesRepeat (lawful : cx.doc.lawful = true) {plans : List InputPlan}
    (sound : ∀ p ∈ plans, SoundInput cx p) (builds : Builds .whole cx .all .empty g)
    (builds' : Builds .whole cx .all .empty h) {inputs : List MethodInput}
    (run : inputNodes cx plans g = .ok (.ok inputs, g')) :
    ∃ inputs' h', inputNodes cx plans h = .ok (.ok inputs', h') := by
  induction plans generalizing g h inputs with
  | nil => exact ⟨[], h, rfl⟩
  | cons plan more ih =>
    obtain ⟨here, moreSound⟩ := List.forall_mem_cons.mp sound
    obtain ⟨i, m, rest, first, accepted, others, rfl⟩ := runAcceptedInputs.mp run
    obtain ⟨i', n, again, accepted'⟩ := inputNodeRepeats lawful here builds builds' first accepted
    have after := wider builds (inputNodeBuilds lawful here first).1.anywhere
    have after' := wider builds' (inputNodeBuilds lawful here again).1.anywhere
    obtain ⟨rest', h', others'⟩ := ih moreSound after after' others
    exact ⟨_, h', runAcceptedInputs.mpr ⟨i', n, rest', again, accepted', others', rfl⟩⟩

theorem inputNodesAnswer (lawful : cx.doc.lawful = true) {plans : List InputPlan}
    (sound : ∀ p ∈ plans, SoundInput cx p) {result : Except OperationError (List MethodInput)}
    (indexed : Indexed g) (run : inputNodes cx plans g = .ok (result, g')) :
    ∀ r ∈ g'.responses, r ∈ g.responses := by
  induction plans generalizing g result with
  | nil =>
    obtain ⟨_, rfl⟩ := runPure.mp run
    exact fun r mem => mem
  | cons plan more ih =>
    obtain ⟨here, moreSound⟩ := List.forall_mem_cons.mp sound
    obtain ⟨i, m, first, others⟩ := runInputNodes.mp run
    obtain ⟨builds, _⟩ := inputNodeBuilds lawful here first
    have silent : ∀ r ∈ m.responses, r ∈ g.responses := fun r mem =>
      (builds.responsesWithin indexed mem).resolve_right (by cases plan <;> exact id)
    rcases others with ⟨_, _, _, rfl⟩ | ⟨_, rest, others, _⟩
    · exact silent
    · exact fun r mem => silent r (ih moreSound (builds.grows.indexed indexed) others r mem)

theorem sortedInputsAnswer (lawful : cx.doc.lawful = true) (indexed : Indexed g) {l : Location}
    {operation : Value} (at_ : Tree.get? l cx.doc = some operation) {plans : List InputPlan}
    (asked : inputPlans cx operation l g = .ok (plans, g))
    {result : Except OperationError (List MethodInput)}
    (visited : inputNodes cx (Preference.sortInputs InputPlan.order plans) g = .ok (result, g')) :
    Indexed g' ∧ ∀ r ∈ g'.responses, r ∈ g.responses :=
  have sound := sortedSound at_ asked
  ⟨(inputNodesBuilds lawful sound visited).1.grows.indexed indexed,
    inputNodesAnswer lawful sound indexed visited⟩

/- A method's node adds the response of its own operation alone. -/
theorem methodNodeAnswers (lawful : cx.doc.lawful = true) (indexed : Indexed g) {plan : MethodPlan}
    {operation : Value} (at_ : Tree.get? plan.location cx.doc = some operation)
    {result : Except OperationError MethodId}
    (run : methodNode cx plan operation g = .ok (result, g')) :
    (∀ r ∈ g'.responses, r ∈ g.responses ∨ r.location = plan.location.child "responses") ∧
      ((∃ e, result = .error e) → ∀ r ∈ g'.responses, r ∈ g.responses) := by
  cases methodNodeSource run with
  | failed asked _ visited =>
    have still := (sortedInputsAnswer lawful indexed at_ asked visited).2
    exact ⟨fun r mem => .inl (still r mem), fun _ => still⟩
  | @made plans preferred _ m response m' _ asked ranked visited settled _ added =>
    obtain ⟨indexed', still⟩ := sortedInputsAnswer lawful indexed at_ asked visited
    have codes := (preferredResponsesSound at_ ranked).2
    have settles : Builds .inputs cx
        ⟨fun _ => True, fun _ => True, (· = plan.location.child "responses")⟩ m m' ∧ _ :=
      responseNodeBuilds lawful codes rfl settled
    refine ⟨fun r mem => ?_, by simp⟩
    rw [added] at mem
    exact (settles.1.responsesWithin indexed' mem).imp_left (still r)

theorem methodNodeRepeats (lawful : cx.doc.lawful = true) {plan : MethodPlan} {operation : Value}
    (at_ : Tree.get? plan.location cx.doc = some operation)
    (builds : Builds .whole cx .all .empty g) (builds' : Builds .whole cx .all .empty h)
    (fresh : ∀ r ∈ g.responses, r.location ≠ plan.location.child "responses") {id : MethodId}
    (run : methodNode cx plan operation g = .ok (.ok id, g')) :
    ∃ id' h', methodNode cx plan operation h = .ok (.ok id', h') := by
  have indexed := builds.grows.indexed emptyIndexed
  cases methodNodeSource run with
  | @made plans preferred inputs m response m' secured asked ranked visited settled extracted added =>
    have sound := sortedSound at_ asked
    obtain ⟨inputs', n, again⟩ := inputNodesRepeat lawful sound builds builds' visited
    have after := wider builds (inputNodesBuilds lawful sound visited).1
    have codes := (preferredResponsesSound at_ ranked).2
    have settles : Builds .inputs cx .all m m' ∧ _ :=
      responseNodeBuilds lawful codes trivial settled
    obtain ⟨r, held, placed, own⟩ := settles.2 (after.grows.indexed emptyIndexed)
    -- the response was not there before, so it was made of these codes
    have preferred' : r.preferred = preferred := by
      rcases own with own | old
      · exact own
      · obtain ⟨r₀, found, same⟩ :=
          Option.map_eq_some_iff.mp ((after.grows.indexed emptyIndexed).placed old)
        have before := inputNodesAnswer lawful sound indexed visited r₀ (List.mem_of_getElem? found)
        exact absurd same (fresh r₀ before)
    have last := wider after settles.1
    have made := (last.responses.fresh emptyIndexed _ r (Nat.zero_le _) held).2.2
    obtain ⟨response', n', answered, _⟩ := responseNodeSucceeds lawful
      (anyKept lawful (mirroredSchemas last)) made (.refl _) trivial n trivial
    rw [placed, preferred'] at answered
    let method := plan.method inputs' response' secured
    refine ⟨(n'.addMethod method).1, (n'.addMethod method).2, ?_⟩
    simp only [methodNode, runBind]
    refine ⟨plans, h, (inputPlansAsks cx operation plan.location _ _ _ asked).2 h, preferred, h,
      (preferredResponsesAsks cx plan.verb operation _ _ _ ranked).2 h, _, n, again, ?_⟩
    simp only [security, runBind, runLift, mapErrorOk, runGet, runSet, runPure]
    exact ⟨response', n', answered, secured, n', ⟨extracted, rfl⟩, n', n', ⟨rfl, rfl⟩, ⟨⟩, _, rfl, rfl,
      rfl⟩

end Methods

def modelPlaces (cx : Setting) : List Location :=
  if cx.config.allModels then
    (((Tree.get? ⟨["components", "schemas"]⟩ cx.doc).bind Value.members?).getD []).map fun e =>
      ⟨["components", "schemas", e.1]⟩
  else []

section Models
variable {cx : Setting} {g m h : Graph} {found : List Found}

theorem registerAllPlaces (all : cx.config.allModels = true) :
    registerAll cx = (modelPlaces cx).forM (Hydrate.registerAt cx) := by
  let place (e : String × Value) : Location := ⟨["components", "schemas", e.1]⟩
  have places : ∀ schemas : Members, (schemas.map place).forM (Hydrate.registerAt cx) =
      schemas.forM fun e => Hydrate.registerAt cx (place e) := fun _ => List.forM_map
  rw [registerAll, modelPlaces, if_pos all]
  refine Eq.trans ?_ (places _).symm
  cases held : Tree.get? ⟨["components", "schemas"]⟩ cx.doc with
  | none => rfl
  | some v => cases v <;> rfl

theorem walkParts (operations : Declaration.operations cx.doc = .ok found) {u : PUnit} :
    walk cx .empty = .ok (u, g) ↔ ∃ m us, Runs (visitOperation cx) found .empty us m ∧
      (modelPlaces cx).forM (Hydrate.registerAt cx) m = .ok (u, g) := by
  have last : (if cx.config.allModels then registerAll cx else pure ⟨⟩) =
      (modelPlaces cx).forM (Hydrate.registerAt cx) := by
    cases all : cx.config.allModels with
    | true => exact registerAllPlaces all
    | false =>
      rw [modelPlaces, all]
      rfl
  simp only [walk, runBind, runLift, mapErrorOk, operations, Except.ok.injEq, last]
  constructor
  · rintro ⟨_, _, ⟨rfl, rfl⟩, _, m, visited, rest⟩
    obtain ⟨us, runs⟩ := runForM.mp visited
    exact ⟨m, us, runs, rest⟩
  · rintro ⟨m, us, runs, rest⟩
    exact ⟨found, _, ⟨rfl, rfl⟩, ⟨⟩, m, runForM.mpr ⟨us, runs⟩, rest⟩

theorem modelsTravel (cx : Setting) : Travels cx ((modelPlaces cx).forM (Hydrate.registerAt cx)) :=
  Travels.forM fun l _ => Hydrate.registerAtTravels cx l

theorem modelsKeep (lawful : cx.doc.lawful = true) {u : PUnit}
    (run : (modelPlaces cx).forM (Hydrate.registerAt cx) m = .ok (u, g)) :
    g.apis = m.apis ∧ g.methods = m.methods ∧ g.skipped = m.skipped :=
  ((modelsTravel cx _ _ _ run).grows lawful).edits.keepsMethods (by simp)

theorem registerRepeats (lawful : cx.doc.lawful = true) {nodes : List Schema}
    (mirrored : Mirrored cx.doc nodes) {l : Location} (ran : Ran (registerType cx l) nodes) :
    Succeeds (fun _ => True) (registerType cx l) := by
  obtain ⟨g, id, g', indexed, run, keeps⟩ := ran
  have read := readReference cx.doc l.toPointer l
  obtain ⟨r, s, resolved, held, placed⟩ := ((schemaAtVisits lawful read run).2 indexed).mono keeps
  have at_ := resolvedAt read resolved
  have known : Known cx.doc nodes r.value (r.locationOr l) :=
    ⟨at_, id, ⟨r.value, none⟩, s, resolvePlain (resolvedPlain resolved), held, placed⟩
  intro m _
  obtain ⟨id', m', again, _⟩ :=
    (referenceEnds (g := m) (knownPermits lawful mirrored) resolved known).succeeds
  exact ⟨id', m', again, trivial⟩

theorem modelsRepeat (lawful : cx.doc.lawful = true) (indexed : Indexed m)
    (mirrored : Mirrored cx.doc g.schemas)
    (run : (modelPlaces cx).forM (Hydrate.registerAt cx) m = .ok (⟨⟩, g)) (h : Graph) :
    ∃ h', (modelPlaces cx).forM (Hydrate.registerAt cx) h = .ok (⟨⟩, h') := by
  have ran : Ran ((modelPlaces cx).forM (Hydrate.registerAt cx)) g.schemas :=
    ⟨m, ⟨⟩, g, indexed, run, KeepsPlaces.refl _⟩
  have each := ran.forM lawful fun l _ => Hydrate.registerAtTravels cx l
  have again : Succeeds (fun _ => True) ((modelPlaces cx).forM (Hydrate.registerAt cx)) := by
    refine Succeeds.forM fun l mem => ?_
    have own : Travels cx (registerType cx l) := fun _ _ _ run => .single (.register run)
    have one := ((each l mem).bind lawful own fun _ => Travels.pure _).1
    exact (registerRepeats lawful mirrored one).bind fun _ => Succeeds.pure _
  obtain ⟨_, h', done, _⟩ := again h trivial
  exact ⟨h', done⟩

end Models

end ApiGraph.Build
