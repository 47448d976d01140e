import ApiGraph.Proofs.InputWalk
import ApiGraph.Proofs.Written

/-! The walk through all operations. What is planned for an operation is read off the document, so
every node that the walk makes is one that the document declares, and the walk as a whole finishes
what it adds. -/
namespace ApiGraph.Build
open Json Resolve ApiGraph.Graph

def SoundParam (cx : Setting) (p : ParamPlan) : Prop :=
  Tree.get? p.location cx.doc = some p.value ∧ refOf p.value = none

def SoundBody (cx : Setting) (b : BodyPlan) : Prop :=
  Tree.get? b.location cx.doc = some b.value ∧ refOf b.value = none ∧
    b.preferred = Preference.mediaTypes cx.requestPatterns (Entries.keys (contentOf b.value))

def SoundInput (cx : Setting) : InputPlan → Prop
  | .parameter p => SoundParam cx p
  | .body b => SoundBody cx b

theorem memOfList {α β : Type} [BEq α] [LawfulBEq α] {es : List (α × β)} {e : α × β}
    (mem : e ∈ Entries.ofList es) : e ∈ es := by
  suffices all : ∀ (acc : List (α × β)), e ∈ es.foldl (fun acc e => Entries.put e.1 e.2 acc) acc →
      e ∈ acc ∨ e ∈ es by
    exact (all [] mem).resolve_left (by simp)
  clear mem
  induction es with
  | nil => exact fun acc mem => .inl mem
  | cons e' r ih =>
    intro acc mem
    rcases ih _ mem with held | later
    · rcases Entries.memPut held with rfl | old
      · exact .inr List.mem_cons_self
      · exact .inl old
    · exact .inr (List.mem_cons_of_mem _ later)

section Plans
variable {cx : Setting} {g g' : Graph} {v : Value} {l : Location}

theorem paramPlanSound {raw : Value} (at_ : Tree.get? l cx.doc = some raw)
    {plan : Option ((ParamIn × String) × ParamPlan)}
    (run : paramPlan cx raw l g = .ok (plan, g')) :
    g' = g ∧ ∀ e, plan = some e → SoundParam cx e.2 := by
  simp only [paramPlan, runBind, runResolve] at run
  obtain ⟨r, m, ⟨resolved, rfl⟩, run⟩ := run
  cases identity : paramIdentity r.value with
  | none =>
    simp only [identity, runPure] at run
    obtain ⟨rfl, rfl⟩ := run
    exact ⟨rfl, fun _ impossible => by contradiction⟩
  | some named =>
    obtain ⟨name, place⟩ := named
    simp only [identity, runBind, runPure] at run
    obtain ⟨default, _, kept, rfl, rfl⟩ := run
    refine ⟨(parameterDefaultAsks cx _ _ _ _ kept).1, ?_⟩
    intro e same
    cases same
    exact ⟨resolvedAt (readAt at_) resolved, resolvedPlain resolved⟩

theorem paramPlansOfSound {plans : List ((ParamIn × String) × ParamPlan)}
    (run : paramPlansOf cx l g = .ok (plans, g')) :
    g' = g ∧ ∀ e ∈ plans, SoundParam cx e.2 := by
  cases here : Tree.get? (l.child "parameters") cx.doc with
  | none =>
    simp only [paramPlansOf, here, runPure] at run
    obtain ⟨rfl, rfl⟩ := run
    exact ⟨rfl, by simp⟩
  | some v =>
    cases v with
    | arr items =>
      simp only [paramPlansOf, here, runBind, runPure] at run
      obtain ⟨found, m, visited, rfl, rfl⟩ := run
      have step := (runMapM.mp visited).still
        (P := fun _ plan => ∀ e, plan = some e → SoundParam cx e.2) ?_
      · refine ⟨step.1, fun e mem => ?_⟩
        obtain ⟨plan, inside, same⟩ := List.mem_filterMap.mp mem
        obtain ⟨_, _, sound⟩ := partner step.2 inside
        exact sound e same
      · rintro ⟨raw, i⟩ mem _ _ _ one
        have element := Tree.elementAt here (List.mk_mem_zipIdx_iff_getElem?.mp mem)
        exact paramPlanSound element one
    | _ =>
      simp only [paramPlansOf, here, runPure] at run
      obtain ⟨rfl, rfl⟩ := run
      exact ⟨rfl, by simp⟩

theorem paramPlansSound {item operation : Location}
    {plans : List ParamPlan} (run : paramPlans cx item operation g = .ok (plans, g')) :
    g' = g ∧ ∀ p ∈ plans, SoundParam cx p := by
  simp only [paramPlans, runBind, runPure] at run
  obtain ⟨shared, _, run₁, own, _, run₂, rfl, rfl⟩ := run
  obtain ⟨rfl, sound₁⟩ := paramPlansOfSound run₁
  obtain ⟨rfl, sound₂⟩ := paramPlansOfSound run₂
  refine ⟨rfl, fun p mem => ?_⟩
  obtain ⟨e, inside, rfl⟩ := List.mem_map.mp mem
  exact (List.mem_append.mp (memOfList inside)).elim (sound₁ e) (sound₂ e)

theorem bodyPlanSound {operation : Value} (at_ : Tree.get? l cx.doc = some operation)
    {taken : List String} {body : Option BodyPlan}
    (run : bodyPlan cx operation l taken g = .ok (body, g')) :
    g' = g ∧ ∀ b, body = some b → SoundBody cx b := by
  cases held : operation.get? "requestBody" with
  | none =>
    simp only [bodyPlan, held, runPure] at run
    obtain ⟨rfl, rfl⟩ := run
    exact ⟨rfl, fun _ impossible => by contradiction⟩
  | some raw =>
    simp only [bodyPlan, held, runBind, runResolve] at run
    obtain ⟨r, m, ⟨resolved, rfl⟩, run⟩ := run
    cases declared : r.value.membersAt? "content" with
    | none =>
      simp only [declared, runPure] at run
      obtain ⟨rfl, rfl⟩ := run
      exact ⟨rfl, fun _ impossible => by contradiction⟩
    | some content =>
      simp only [declared, runBind, runPure] at run
      obtain ⟨default, _, kept, rfl, rfl⟩ := run
      refine ⟨(bodyDefaultAsks cx _ _ _ _ _ _ kept).1, ?_⟩
      intro b same
      cases same
      refine ⟨resolvedAt (readAt (Tree.childAt at_ held)) resolved, resolvedPlain resolved, ?_⟩
      simp [contentOf, declared]

theorem inputPlansSound {operation : Value}
    (at_ : Tree.get? l cx.doc = some operation) {plans : List InputPlan}
    (run : inputPlans cx operation l g = .ok (plans, g')) :
    g' = g ∧ ∀ p ∈ plans, SoundInput cx p := by
  simp only [inputPlans, runBind, runPure] at run
  obtain ⟨params, _, run₁, body, _, run₂, rfl, rfl⟩ := run
  obtain ⟨rfl, params⟩ := paramPlansSound run₁
  obtain ⟨rfl, body⟩ := bodyPlanSound at_ run₂
  refine ⟨rfl, fun p mem => ?_⟩
  rcases List.mem_append.mp mem with param | rest
  · obtain ⟨q, inside, rfl⟩ := List.mem_map.mp param
    exact params q inside
  · obtain ⟨b, inside, rfl⟩ := List.mem_map.mp rest
    exact body b (Option.mem_toList.mp inside)

theorem sortedSound {operation : Value}
    (at_ : Tree.get? l cx.doc = some operation) {plans : List InputPlan}
    (run : inputPlans cx operation l g = .ok (plans, g')) :
    ∀ p ∈ Preference.sortInputs InputPlan.order plans, SoundInput cx p :=
  fun p mem => (inputPlansSound at_ run).2 p ((Stable.sortPerm _ plans).mem_iff.mp mem)

theorem preferredResponsesSound {operation : Value} (at_ : Tree.get? l cx.doc = some operation)
    {verb : String} {codes : List ResponseCode}
    (run : preferredResponses cx verb operation g = .ok (codes, g')) :
    g' = g ∧ ∀ code ∈ codes, SoundCode cx (l.child "responses") code := by
  cases held : operation.membersAt? "responses" with
  | none =>
    simp only [preferredResponses, held, runPure] at run
    obtain ⟨rfl, rfl⟩ := run
    exact ⟨rfl, by simp⟩
  | some responses =>
    simp only [preferredResponses, held, runBind, runPure] at run
    obtain ⟨ranked, m, visited, rfl, rfl⟩ := run
    have here := Tree.childAt at_ (Value.membersAtSome held)
    have step := (runMapM.mp visited).still
      (P := fun _ ranked => ∀ code, ranked = some code → SoundCode cx (l.child "responses") code) ?_
    · refine ⟨step.1, fun code mem => ?_⟩
      obtain ⟨ranked, inside, same⟩ := List.mem_filterMap.mp mem
      obtain ⟨_, _, sound⟩ := partner step.2 inside
      exact sound code same
    · intro name _ g _ g' one
      cases found : responses.lookup name with
      | none =>
        simp only [found, runPure] at one
        obtain ⟨rfl, rfl⟩ := one
        exact ⟨rfl, fun _ impossible => by contradiction⟩
      | some raw =>
        simp only [found, runBind, runResolve, runPure] at one
        obtain ⟨r, _, ⟨resolved, rfl⟩, rfl, rfl⟩ := one
        refine ⟨rfl, ?_⟩
        rintro code same
        cases same
        exact ⟨raw, r, Tree.childAt here found, resolved, rfl⟩

end Plans

section Asks
variable (cx : Setting)

theorem paramPlanAsks (raw : Value) (l : Location) : Asks (paramPlan cx raw l) := by
  unfold paramPlan
  refine (Asks.resolve cx raw).bind fun r => ?_
  split
  · exact Asks.pure none
  · exact (parameterDefaultAsks cx r.value).bind fun default => Asks.pure _

theorem paramPlansOfAsks (owner : Location) : Asks (paramPlansOf cx owner) := by
  unfold paramPlansOf
  dsimp only
  split
  · refine (Asks.mapM (fun e => ?_) _).bind fun plans => Asks.pure _
    exact paramPlanAsks cx e.1 _
  · exact Asks.pure []

theorem bodyPlanAsks (operation : Value) (l : Location) (taken : List String) :
    Asks (bodyPlan cx operation l taken) := by
  unfold bodyPlan
  split
  · exact Asks.pure none
  · refine (Asks.resolve cx _).bind fun r => ?_
    split
    · exact Asks.pure none
    · exact (bodyDefaultAsks cx _ _ _).bind fun default => Asks.pure _

theorem inputPlansAsks (operation : Value) (l : Location) : Asks (inputPlans cx operation l) := by
  have params : ∀ item, Asks (paramPlans cx item l) := fun item =>
    (paramPlansOfAsks cx item).bind fun shared =>
      (paramPlansOfAsks cx l).bind fun own => Asks.pure _
  exact (params _).bind fun params => (bodyPlanAsks cx operation l _).bind fun body => Asks.pure _

theorem preferredResponsesAsks (verb : String) (operation : Value) :
    Asks (preferredResponses cx verb operation) := by
  unfold preferredResponses
  split
  · exact Asks.pure []
  · refine (Asks.mapM (fun code => ?_) _).bind fun ranked => Asks.pure _
    split
    · exact Asks.pure none
    · exact (Asks.resolve cx _).bind fun r => Asks.pure _

theorem findTagAsks (name : String) (tags : List (Value × Nat)) :
    Asks (findTag cx name tags) := by
  induction tags with
  | nil => exact Asks.pure none
  | cons e more ih =>
    unfold findTag
    refine (Asks.resolve cx e.1).bind fun r => ?_
    split
    · exact Asks.pure _
    · exact ih

end Asks

section Nodes
variable {cx : Setting} {g g' : Graph} {l : Location}

theorem apiAtSource {v : Value} (at_ : Tree.get? l cx.doc = some v) (plain : refOf v = none)
    {id : ApiId} (run : apiAt cx l g = .ok (id, g')) :
    (g.nodeAt l = some (.api id) ∧ g' = g) ∨
      ((∀ id, g.nodeAt l ≠ some (.api id)) ∧ id = ⟨g.apis.length⟩ ∧
        g' = (g.addApi ⟨l, (v.textAt? "name").getD "", []⟩).2) := by
  simp only [apiAt, runBind, runGet] at run
  obtain ⟨_, m, ⟨rfl, rfl⟩, run⟩ := run
  change StateT.run _ _ = _ at run
  split at run
  · rename_i old found
    obtain ⟨rfl, rfl⟩ := runPure.mp run
    exact .inl ⟨found, rfl⟩
  · rename_i free
    simp only [StateT.run, runBind, runResolveAt, runGet, runSet, runPure] at run
    obtain ⟨⟨tag, place⟩, _, ⟨resolved, rfl⟩, _, _, ⟨rfl, rfl⟩, _, _, rfl, rfl, rfl⟩ := run
    rw [resolveAtFinal at_ plain] at resolved
    cases resolved
    exact .inr ⟨fun id held => free id held, rfl, rfl⟩

theorem findTagSource {name : String} {tags : List (Value × Nat)}
    (at_ : ∀ e ∈ tags, Tree.get? ⟨["tags", toString e.2]⟩ cx.doc = some e.1)
    {found : Option Location} (run : findTag cx name tags g = .ok (found, g')) :
    g' = g ∧ ∀ l, found = some l → ∃ v, Tree.get? l cx.doc = some v ∧ refOf v = none ∧
      v.textAt? "name" = some name := by
  induction tags generalizing g with
  | nil =>
    simp only [findTag, runPure] at run
    obtain ⟨rfl, rfl⟩ := run
    exact ⟨rfl, fun _ impossible => by contradiction⟩
  | cons e more ih =>
    obtain ⟨tag, i⟩ := e
    simp only [findTag, runBind, runResolve] at run
    obtain ⟨r, m, ⟨resolved, rfl⟩, run⟩ := run
    by_cases named : r.value.textAt? "name" = some name
    · simp only [named, if_true, runPure] at run
      obtain ⟨rfl, rfl⟩ := run
      refine ⟨rfl, ?_⟩
      intro l same
      cases same
      exact ⟨r.value, resolvedAt (readAt (at_ _ List.mem_cons_self)) resolved,
        resolvedPlain resolved, named⟩
    · simp only [named, if_false] at run
      exact ih (fun e mem => at_ e (List.mem_cons_of_mem _ mem)) run

def Tagged (cx : Setting) (name : String) (l : Location) : Prop :=
  ∃ m m', findTag cx name ((cx.doc.itemsAt? "tags").getD []).zipIdx m = .ok (some l, m')

theorem Tagged.at_ {name : String} (h : Tagged cx name l) :
    ∃ v, Tree.get? l cx.doc = some v ∧ refOf v = none ∧ v.textAt? "name" = some name := by
  obtain ⟨_, _, run⟩ := h
  refine (findTagSource (fun e mem => ?_) run).2 l rfl
  obtain ⟨tag, i⟩ := e
  have inside := List.mk_mem_zipIdx_iff_getElem?.mp mem
  cases held : cx.doc.itemsAt? "tags" with
  | none => simp [held] at inside
  | some items =>
    rw [held] at inside
    exact Tree.itemAt (l := .root) rfl held inside

inductive GroupRun (cx : Setting) (name : String) (g g' : Graph) : ApiId → Prop
  | known {id} (listed : g.apiIdNamed name = some id) (same : g' = g) : GroupRun cx name g g' id
  | held {id} {l : Location} (new : g.apiIdNamed name = none) (tag : Tagged cx name l)
      (node : g.nodeAt l = some (.api id)) (same : g' = g) : GroupRun cx name g g' id
  | made {l : Location} (new : g.apiIdNamed name = none) (tag : Tagged cx name l)
      (free : ∀ id, g.nodeAt l ≠ some (.api id)) (added : g' = (g.addApi ⟨l, name, []⟩).2) :
      GroupRun cx name g g' ⟨g.apis.length⟩

theorem apiNamedSource {name : String} {id : ApiId}
    (run : apiNamed cx name g = .ok (id, g')) : GroupRun cx name g g' id := by
  simp only [apiNamed, runBind, runGet] at run
  obtain ⟨_, m, ⟨rfl, rfl⟩, run⟩ := run
  cases known : m.apiIdNamed name with
  | some old =>
    simp only [known, runPure] at run
    obtain ⟨rfl, rfl⟩ := run
    exact .known known rfl
  | none =>
    simp only [known, runBind] at run
    obtain ⟨found, m', sought, run⟩ := run
    obtain ⟨rfl, _⟩ := findTagAsks cx name _ _ _ _ sought
    cases found with
    | none => exact (runThrow.mp run).elim
    | some l =>
      have tag : Tagged cx name l := ⟨_, _, sought⟩
      obtain ⟨v, at_, plain, named⟩ := tag.at_
      rcases apiAtSource at_ plain run with ⟨held, rfl⟩ | ⟨free, rfl, rfl⟩
      · exact .held known tag held rfl
      · exact .made known tag free (by rw [named]; rfl)

theorem apiNamedBuilds {sites : Sites} {name : String} {id : ApiId}
    (run : apiNamed cx name g = .ok (id, g')) :
    Builds .whole cx sites g g' ∧ g'.methods = g.methods := by
  cases apiNamedSource run with
  | known _ same | held _ _ _ same => exact same ▸ ⟨.refl _, rfl⟩
  | made _ _ free added => exact added ▸ ⟨.edit (.api _ free) rfl rfl rfl rfl rfl, rfl⟩

def inputNode (cx : Setting) : InputPlan → Walk MethodInput
  | .parameter p => do return .parameter (← parameterNode cx p.location p.value)
  | .body b => do return .body (← bodyNode cx b.location b.value b.name b.preferred)

def inputError (role : Role) (g : Graph) : MethodInput → Option OperationError
  | .parameter _ => none
  | .body id => bodyError role g id

theorem runInputNodes {plan : InputPlan} {more : List InputPlan}
    {result : Except OperationError (List MethodInput)} :
    inputNodes cx (plan :: more) g = .ok (result, g') ↔ ∃ i m, inputNode cx plan g = .ok (i, m) ∧
      ((∃ e, inputError cx.config.role m i = some e ∧ result = .error e ∧ g' = m) ∨
        (inputError cx.config.role m i = none ∧
          ∃ rest, inputNodes cx more m = .ok (rest, g') ∧ result = rest.map (i :: ·))) := by
  cases plan with
  | parameter p =>
    simp only [inputNodes, inputNode, runBind, runPure]
    constructor
    · rintro ⟨id, m, first, rest, _, others, rfl, rfl⟩
      exact ⟨_, m, ⟨id, m, first, rfl, rfl⟩, .inr ⟨rfl, rest, others, rfl⟩⟩
    · rintro ⟨_, _, ⟨id, m, first, rfl, rfl⟩, ⟨e, failed, _⟩ | ⟨_, rest, others, rfl⟩⟩
      · contradiction
      · exact ⟨id, _, first, rest, g', others, rfl, rfl⟩
  | body b =>
    simp only [inputNodes, inputNode, runBind, runGet, runPure]
    constructor
    · rintro ⟨id, _, first, _, m, ⟨rfl, rfl⟩, run⟩
      refine ⟨_, m, ⟨id, m, first, rfl, rfl⟩, ?_⟩
      cases failed : bodyError cx.config.role m id with
      | some e =>
        simp only [failed, runPure] at run
        exact .inl ⟨e, failed, run.1, run.2⟩
      | none =>
        simp only [failed, runBind, runPure] at run
        obtain ⟨rest, _, others, rfl, rfl⟩ := run
        exact .inr ⟨failed, rest, others, rfl⟩
    · rintro ⟨_, _, ⟨id, m, first, rfl, rfl⟩, others⟩
      refine ⟨id, _, first, _, _, ⟨rfl, rfl⟩, ?_⟩
      rcases others with ⟨e, failed, rfl, rfl⟩ | ⟨accepted, rest, others, rfl⟩
      · change bodyError cx.config.role _ id = _ at failed
        simp only [failed]
        exact runPure.mpr ⟨rfl, rfl⟩
      · change bodyError cx.config.role _ id = _ at accepted
        simp only [accepted, runBind, runPure]
        exact ⟨rest, g', others, rfl, rfl⟩

theorem runAcceptedInputs {plan : InputPlan} {more : List InputPlan} {inputs : List MethodInput} :
    inputNodes cx (plan :: more) g = .ok (.ok inputs, g') ↔
      ∃ i m rest, inputNode cx plan g = .ok (i, m) ∧ inputError cx.config.role m i = none ∧
        inputNodes cx more m = .ok (.ok rest, g') ∧ inputs = i :: rest := by
  rw [runInputNodes]
  constructor
  · rintro ⟨i, m, first, ⟨_, _, failed, _⟩ | ⟨accepted, rest, others, same⟩⟩
    · contradiction
    · cases rest with
      | error e => simp [Except.map] at same
      | ok rest =>
        cases same
        exact ⟨i, m, rest, first, accepted, others, rfl⟩
  · rintro ⟨i, m, rest, first, accepted, others, rfl⟩
    exact ⟨i, m, first, .inr ⟨accepted, .ok rest, others, rfl⟩⟩

inductive InputNode (g : Graph) : InputPlan → MethodInput → Prop
  | parameter {p id} (stands : g.location? (.parameter id) = some p.location) :
      InputNode g (.parameter p) (.parameter id)
  | body {b id} (stands : g.location? (.body id) = some b.location) :
      InputNode g (.body b) (.body id)

theorem InputNode.mono {k : Scope} (e : Edits k g g') {plan : InputPlan} {i : MethodInput}
    (h : InputNode g plan i) : InputNode g' plan i := by
  cases h with
  | parameter stands => exact .parameter (e.keepsLocation stands)
  | body stands => exact .body (e.keepsLocation stands)

def inputSite : InputPlan → Sites
  | .parameter p => ⟨(· = p.location), fun _ => False, fun _ => False⟩
  | .body b => ⟨fun _ => False, (· = b.location), fun _ => False⟩

theorem inputNodeBuilds (lawful : cx.doc.lawful = true) {plan : InputPlan}
    (sound : SoundInput cx plan) {i : MethodInput} (run : inputNode cx plan g = .ok (i, g')) :
    Builds .inputs cx (inputSite plan) g g' ∧ (Indexed g → InputNode g' plan i) := by
  cases plan with
  | parameter p =>
    simp only [inputNode, runBind, runPure] at run
    obtain ⟨id, m, made, rfl, rfl⟩ := run
    have own : (inputSite (.parameter p)).parameter p.location := rfl
    obtain ⟨builds, stands⟩ := parameterNodeBuilds lawful sound.1 sound.2 own made
    exact ⟨builds, fun indexed => .parameter (stands indexed)⟩
  | body b =>
    simp only [inputNode, runBind, runPure] at run
    obtain ⟨id, m, made, rfl, rfl⟩ := run
    have own : (inputSite (.body b)).body b.location := rfl
    obtain ⟨builds, stands⟩ := bodyNodeBuilds lawful sound.1 sound.2.1 own sound.2.2 made
    refine ⟨builds, fun indexed => ?_⟩
    obtain ⟨b, held, placed, _⟩ := stands indexed
    exact .body (by simp [location?, held, placed])

def KnownInputs (g : Graph) (inputs : List MethodInput) : Prop :=
  ∀ i ∈ inputs, ∃ x, g.inputOutline i = some x

theorem KnownInputs.mono {k : Scope} (e : Edits k g g') {inputs : List MethodInput}
    (h : KnownInputs g inputs) : KnownInputs g' inputs := by
  intro i mem
  obtain ⟨x, told⟩ := h i mem
  exact ⟨x, e.keepsInput told⟩

theorem knownInputs {plans : List InputPlan} {inputs : List MethodInput}
    (nodes : List.Forall₂ (InputNode g) plans inputs) : KnownInputs g inputs := by
  intro i mem
  obtain ⟨plan, _, node⟩ := partner nodes mem
  cases node with
  | parameter stands =>
    obtain ⟨p, held, _⟩ := Option.map_eq_some_iff.mp stands
    exact ⟨.parameter p.location, by simp [inputOutline, held]⟩
  | body stands =>
    obtain ⟨b, held, _⟩ := Option.map_eq_some_iff.mp stands
    exact ⟨.request b.location b.name b.preferred, by simp [inputOutline, held]⟩

theorem inputNodesBuilds (lawful : cx.doc.lawful = true) {plans : List InputPlan}
    (sound : ∀ p ∈ plans, SoundInput cx p) {result : Except OperationError (List MethodInput)}
    (run : inputNodes cx plans g = .ok (result, g')) : Builds .inputs cx .all g g' ∧
      (Indexed g → ∀ inputs, result = .ok inputs → List.Forall₂ (InputNode g') plans inputs) := by
  induction plans generalizing g result with
  | nil =>
    obtain ⟨rfl, rfl⟩ := runPure.mp run
    refine ⟨.refl _, fun _ inputs same => ?_⟩
    cases same
    exact .nil
  | cons plan more ih =>
    obtain ⟨here, moreSound⟩ := List.forall_mem_cons.mp sound
    obtain ⟨i, m, first, ⟨e, _, rfl, rfl⟩ | ⟨_, rest, others, rfl⟩⟩ := runInputNodes.mp run
    · exact ⟨(inputNodeBuilds lawful here first).1.anywhere, fun _ _ impossible => by contradiction⟩
    · obtain ⟨builds, node⟩ := inputNodeBuilds lawful here first
      obtain ⟨builds', nodes⟩ := ih moreSound others
      refine ⟨builds.anywhere.trans builds', fun indexed inputs same => ?_⟩
      cases rest with
      | error e => simp [Except.map] at same
      | ok rest =>
        cases same
        -- the first input stays where it is while the others are made
        exact .cons ((node indexed).mono builds'.grows.edits)
          (nodes (builds.grows.indexed indexed) rest rfl)

structure MadeMethod (cx : Setting) (g : Graph) (m : Method) : Prop where
  inputs : KnownInputs g m.inputs
  response : ∃ r, g.response? m.response = some r ∧ r.location = m.location.child "responses"
  secured : ∃ s, Security.extract cx.doc m.location = .ok s

theorem MadeMethod.mono {k : Scope} (e : Edits k g g') {m : Method} (h : MadeMethod cx g m) :
    MadeMethod cx g' m where
  inputs := h.inputs.mono e
  response := by
    obtain ⟨r, held, placed⟩ := h.response
    obtain ⟨r', held', same, _⟩ := e.keepsResponse held
    exact ⟨r', held', same.trans placed⟩
  secured := h.secured

/- The methods that a walk adds stand at `places`, each at one of its own. -/
structure AddsMethods (cx : Setting) (places : List Location) (g g' : Graph) : Prop where
  made : Adds Graph.methods (MadeMethod cx) g g'
  places : ∃ ms, g'.methods = g.methods ++ ms ∧ (ms.map Method.location).Sublist places

theorem AddsMethods.none {places : List Location} (same : g'.methods = g.methods) :
    AddsMethods cx places g g' := ⟨.none same, [], by simp [same], List.nil_sublist _⟩

theorem AddsMethods.trans {m : Graph} {places places' : List Location} {k : Scope}
    (e : Edits k g m) (e' : Edits k m g') (h : AddsMethods cx places g m)
    (h' : AddsMethods cx places' m g') : AddsMethods cx (places ++ places') g g' where
  made := h.made.trans h'.made e.indexed fun made => made.mono e'
  places := by
    obtain ⟨ms, added, inside⟩ := h.places
    obtain ⟨ms', added', inside'⟩ := h'.places
    refine ⟨ms ++ ms', by rw [added', added, List.append_assoc], ?_⟩
    rw [List.map_append]
    exact inside.append inside'

inductive MethodRun (cx : Setting) (plan : MethodPlan) (operation : Value) (g g' : Graph) :
    Except OperationError MethodId → Prop
  | failed {plans preferred e} (asked : inputPlans cx operation plan.location g = .ok (plans, g))
      (ranked : preferredResponses cx plan.verb operation g = .ok (preferred, g))
      (visited : inputNodes cx (Preference.sortInputs InputPlan.order plans) g = .ok (.error e, g')) :
      MethodRun cx plan operation g g' (.error e)
  | made {plans preferred inputs m response m' secured}
      (asked : inputPlans cx operation plan.location g = .ok (plans, g))
      (ranked : preferredResponses cx plan.verb operation g = .ok (preferred, g))
      (visited : inputNodes cx (Preference.sortInputs InputPlan.order plans) g = .ok (.ok inputs, m))
      (settled : responseNode cx (plan.location.child "responses") preferred m = .ok (response, m'))
      (extracted : Security.extract cx.doc plan.location = .ok secured)
      (added : g' = (m'.addMethod (plan.method inputs response secured)).2) :
      MethodRun cx plan operation g g' (.ok ⟨m'.methods.length⟩)

theorem methodNodeSource {plan : MethodPlan} {operation : Value}
    {result : Except OperationError MethodId}
    (run : methodNode cx plan operation g = .ok (result, g')) :
    MethodRun cx plan operation g g' result := by
  simp only [methodNode, runBind] at run
  obtain ⟨plans, _, asked, preferred, _, ranked, found, m, visited, run⟩ := run
  obtain ⟨rfl, _⟩ := inputPlansAsks cx operation plan.location _ _ _ asked
  obtain ⟨rfl, _⟩ := preferredResponsesAsks cx plan.verb operation _ _ _ ranked
  cases found with
  | error e =>
    obtain ⟨rfl, rfl⟩ := runPure.mp run
    exact .failed asked ranked visited
  | ok inputs =>
    simp only [security, runBind, runLift, mapErrorOk, runGet, runSet, runPure] at run
    obtain ⟨response, _, settled, secured, _, ⟨extracted, rfl⟩, _, m', ⟨rfl, rfl⟩, _, _, rfl, rfl,
      rfl⟩ := run
    exact .made asked ranked visited settled extracted rfl

theorem methodNodeBuilds (lawful : cx.doc.lawful = true) {plan : MethodPlan} {operation : Value}
    (at_ : Tree.get? plan.location cx.doc = some operation)
    {result : Except OperationError MethodId}
    (run : methodNode cx plan operation g = .ok (result, g')) :
    Builds .whole cx .all g g' ∧ AddsMethods cx [plan.location] g g' ∧ g'.apis = g.apis ∧
      ((∃ e, result = .error e ∧ g'.methods = g.methods) ∨
        ∃ m, result = .ok ⟨g.methods.length⟩ ∧ g'.methods = g.methods ++ [m]) := by
  cases methodNodeSource run with
  | @failed _ _ e asked _ visited =>
    have inputs := (inputNodesBuilds lawful (sortedSound at_ asked) visited).1
    obtain ⟨apis, methods, _⟩ := inputs.grows.edits.keepsMethods (by simp)
    exact ⟨inputs.widen (.inr (.inr rfl)), .none methods, apis, .inl ⟨e, rfl, methods⟩⟩
  | @made _ _ listed m response m' secured asked ranked visited settled extracted added =>
    obtain ⟨inputs, nodes⟩ := inputNodesBuilds lawful (sortedSound at_ asked) visited
    have codes := (preferredResponsesSound at_ ranked).2
    have settles : Builds .inputs cx .all m m' ∧ _ :=
      responseNodeBuilds lawful codes trivial settled
    obtain ⟨responses, stands⟩ := settles
    obtain ⟨apis, methods, _⟩ := inputs.grows.edits.keepsMethods (by simp)
    obtain ⟨apis', methods', _⟩ := responses.grows.edits.keepsMethods (by simp)
    have builds := (inputs.trans responses).widen (.inr (.inr rfl))
    let method := plan.method listed response secured
    subst added
    have enters : Edit .whole m' (m'.addMethod method).2 := .method method
    have last : (m'.addMethod method).2.methods = g.methods ++ [method] := by
      rw [← methods, ← methods']
      rfl
    refine ⟨builds.trans (.edit enters rfl rfl rfl rfl rfl), ⟨.one last fun indexed => ?_,
      [method], last, List.Sublist.refl _⟩, apis'.trans apis, .inr ⟨method, ?_, last⟩⟩
    · obtain ⟨r, held, placed, _⟩ := stands (inputs.grows.indexed indexed)
      have known := (knownInputs (nodes indexed listed rfl)).mono responses.grows.edits
      have made : MadeMethod cx m' method := ⟨known, ⟨r, held, placed⟩, secured, extracted⟩
      exact made.mono (.single enters)
    · rw [← methods, ← methods']

def recorded (f : Declaration.Found) (api : ApiId) (g : Graph) :
    Except OperationError MethodId → Graph
  | .ok id => g.enlist api id
  | .error e => g.addSkipped ⟨f.id, f.item.child f.verb, e.message⟩

inductive Visited (cx : Setting) (f : Declaration.Found) (g g' : Graph) : Prop
  | omitted (out : cx.config.isOmitted f.id = true) (same : g' = g)
  | dropped {api} (out : cx.config.isOmitted f.id = false)
      (grouped : apiNamed cx (Operation.apiName f.operation f.pattern) g = .ok (api, g'))
      (taken : hasIdentifier g' api (Words.setCase f.id cx.config.operationCase) = true)
  | made {api m result m'} (out : cx.config.isOmitted f.id = false)
      (grouped : apiNamed cx (Operation.apiName f.operation f.pattern) g = .ok (api, m))
      (free : hasIdentifier m api (Words.setCase f.id cx.config.operationCase) = false)
      (node : methodNode cx ⟨f.item.child f.verb, f.pattern, Text.asciiLowercase f.verb, f.id,
        Words.setCase f.id cx.config.operationCase⟩ f.operation m = .ok (result, m'))
      (listed : g' = recorded f api m' result)

theorem visitOperationSource {f : Declaration.Found} {u : PUnit}
    (run : visitOperation cx f g = .ok (u, g')) : Visited cx f g g' := by
  unfold visitOperation at run
  cases out : cx.config.isOmitted f.id with
  | true =>
    simp only [out, if_true, runPure] at run
    obtain ⟨_, rfl⟩ := run
    exact .omitted out rfl
  | false =>
    simp only [out, Bool.false_eq_true, if_false, runBind, runGet] at run
    obtain ⟨api, _, grouped, _, m, ⟨rfl, rfl⟩, run⟩ := run
    cases taken : hasIdentifier m api (Words.setCase f.id cx.config.operationCase) with
    | true =>
      simp only [taken, if_true, runPure] at run
      obtain ⟨_, rfl⟩ := run
      exact .dropped out grouped taken
    | false =>
      simp only [taken, Bool.false_eq_true, if_false, runBind] at run
      obtain ⟨result, m', node, run⟩ := run
      cases result with
      | ok id => exact .made out grouped taken node (runModify.mp run)
      | error e => exact .made out grouped taken node (runModify.mp run)

theorem visitOperationBuilds (lawful : cx.doc.lawful = true) {f : Declaration.Found}
    (at_ : Tree.get? (f.item.child f.verb) cx.doc = some f.operation) {u : PUnit}
    (run : visitOperation cx f g = .ok (u, g')) :
    Builds .whole cx .all g g' ∧ AddsMethods cx [f.item.child f.verb] g g' := by
  cases visitOperationSource run with
  | omitted _ same =>
    subst same
    exact ⟨.refl _, .none rfl⟩
  | dropped _ grouped _ =>
    obtain ⟨builds, still⟩ := apiNamedBuilds grouped
    exact ⟨builds, .none still⟩
  | @made api m result m' _ grouped _ node listed =>
    have groups : Builds .whole cx .all g m ∧ _ := apiNamedBuilds grouped
    obtain ⟨builds, still⟩ := groups
    obtain ⟨more, places, _, _⟩ := methodNodeBuilds lawful at_ node
    have both := builds.trans more
    have added : AddsMethods cx ([] ++ [f.item.child f.verb]) g m' :=
      .trans builds.grows.edits more.grows.edits (.none still) places
    have last : Builds .whole cx .all m' g' ∧ g'.methods = m'.methods := by
      cases result with
      | ok id => exact listed ▸ ⟨.edit (.enlist api id) rfl rfl rfl rfl rfl, rfl⟩
      | error e => exact listed ▸ ⟨.edit (.skip _) rfl rfl rfl rfl rfl, rfl⟩
    have all : AddsMethods cx ([] ++ [f.item.child f.verb] ++ []) g g' :=
      .trans both.grows.edits last.1.grows.edits added (.none last.2)
    exact ⟨both.trans last.1, by simpa using all⟩

theorem registerAllTrips {u : PUnit} (run : registerAll cx g = .ok (u, g')) : Trips cx g g' := by
  unfold registerAll at run
  change StateT.run _ _ = _ at run
  split at run
  · obtain ⟨_, runs⟩ := runForM.mp run
    refine runs.keeps (R := Trips cx) .refl .trans ?_
    intro e _ _ _ _ one
    simp only [runBind, runPure] at one
    obtain ⟨id, _, registered, _, rfl⟩ := one
    exact .single (.register registered)
  · obtain ⟨_, rfl⟩ := runPure.mp run
    exact .refl _

theorem operationAt {doc : Value} {found : List Declaration.Found}
    (h : Declaration.operations doc = .ok found) {f : Declaration.Found} (mem : f ∈ found) :
    Tree.get? (f.item.child f.verb) doc = some f.operation := by
  cases items : Operation.pathItems doc with
  | error e => simp [Declaration.operations, items, bind, Except.bind] at h
  | ok items' =>
    simp only [Declaration.operations, items, bind, Except.bind, Except.ok.injEq] at h
    subst h
    obtain ⟨⟨pattern, l⟩, _, inside⟩ := List.mem_flatMap.mp mem
    simp only at inside
    split at inside
    · rename_i item at_
      obtain ⟨verb, _, made⟩ := List.mem_filterMap.mp inside
      obtain ⟨operation, held, rfl⟩ := Option.map_eq_some_iff.mp made
      exact Tree.childAt at_ held
    · cases inside

def operationPlaces (found : List Declaration.Found) : List Location :=
  found.map fun f => f.item.child f.verb

theorem walkBuilds (lawful : cx.doc.lawful = true) {u : PUnit}
    (run : walk cx g = .ok (u, g')) :
    ∃ found, Declaration.operations cx.doc = .ok found ∧ Builds .whole cx .all g g' ∧
      AddsMethods cx (operationPlaces found) g g' := by
  simp only [walk, runBind, runLift, mapErrorOk] at run
  obtain ⟨found, _, ⟨listed, same⟩, _, m, visited, run⟩ := run
  rw [same] at visited
  obtain ⟨_, runs⟩ := runForM.mp visited
  have visits : Builds .whole cx .all g m ∧ AddsMethods cx (operationPlaces found) g m := by
    have each := fun f (mem : f ∈ found) => operationAt listed mem
    clear listed run visited same
    induction runs with
    | nil => exact ⟨.refl _, .none rfl⟩
    | cons head _ ih =>
      obtain ⟨first, places⟩ := visitOperationBuilds lawful (each _ List.mem_cons_self) head
      obtain ⟨rest, places'⟩ := ih fun f mem => each f (List.mem_cons_of_mem _ mem)
      exact ⟨first.trans rest, .trans first.grows.edits rest.grows.edits places places'⟩
  cases all : cx.config.allModels with
  | false =>
    simp only [all, Bool.false_eq_true, if_false, runPure] at run
    obtain ⟨_, rfl⟩ := run
    exact ⟨found, listed, visits⟩
  | true =>
    simp only [all, if_true] at run
    have trips := registerAllTrips run
    have last : Builds .whole cx .all m g' := (Builds.schemas lawful trips).widen (.inr (.inr rfl))
    have same := (trips.grows lawful).edits.keepsMethods (by simp)
    have added : AddsMethods cx (operationPlaces found ++ []) g g' :=
      .trans visits.1.grows.edits last.grows.edits visits.2 (.none same.2.1)
    exact ⟨found, listed, visits.1.trans last, by simpa using added⟩

end Nodes

theorem graphOfSource {c : Config} {doc : Value} {g : Graph} (h : graphOf c doc = .ok g) :
    ∃ cx, Setting.make doc c = .ok cx ∧ walk cx .empty = .ok ((), g) := by
  cases made : Setting.make doc c with
  | error e => simp [graphOf, made, bind, Except.bind] at h
  | ok cx =>
    cases walked : (walk cx).run .empty with
    | error e => simp [graphOf, made, walked, bind, Except.bind] at h
    | ok result =>
      obtain ⟨u, g'⟩ := result
      simp only [graphOf, made, walked, bind, Except.bind, Except.ok.injEq] at h
      exact ⟨cx, rfl, h ▸ walked⟩

theorem settingSource {doc : Value} {c : Config} {cx : Setting}
    (h : Setting.make doc c = .ok cx) :
    ∃ request accept, c.requestPatterns = .ok request ∧ c.acceptPatterns = .ok accept ∧
      cx = ⟨doc, c, request, accept⟩ := by
  cases request : c.requestPatterns with
  | error e => simp [Setting.make, request, Except.mapError, bind, Except.bind] at h
  | ok patterns =>
    cases accept : c.acceptPatterns with
    | error e => simp [Setting.make, request, accept, Except.mapError, bind, Except.bind] at h
    | ok patterns' =>
      simp only [Setting.make, request, accept, Except.mapError, bind, Except.bind,
        Except.ok.injEq] at h
      exact ⟨patterns, patterns', rfl, rfl, h.symm⟩

theorem graphOfBuilds {c : Config} {doc : Value} {g : Graph} (lawful : doc.lawful = true)
    (h : graphOf c doc = .ok g) :
    ∃ cx found, Setting.make doc c = .ok cx ∧ Declaration.operations doc = .ok found ∧
      Builds .whole cx .all .empty g ∧ AddsMethods cx (operationPlaces found) .empty g := by
  obtain ⟨cx, made, walked⟩ := graphOfSource h
  obtain ⟨request, accept, _, _, rfl⟩ := settingSource made
  obtain ⟨found, listed, builds, places⟩ := walkBuilds lawful walked
  exact ⟨_, found, made, listed, builds, places⟩

theorem buildSource {c : Config} {doc doc' : Value} {g : Graph}
    (h : build c doc = (doc', .ok g)) :
    (∃ n, Declaration.declare c doc = .ok (doc', n)) ∧ graphOf c doc' = .ok g := by
  unfold build at h
  split at h
  · simp at h
  · rename_i declared n told
    simp only [Prod.mk.injEq] at h
    obtain ⟨rfl, built⟩ := h
    exact ⟨⟨n, told⟩, built⟩

theorem builtOfStated {c : Config} {doc : Value} {α : Type} {f : Graph → α} {x : α}
    (told : Declaration.declare c doc = .ok (doc, 0))
    (held : (graphOf c doc).toOption.map f = some x) : ∃ g, build c doc = (doc, .ok g) ∧ f g = x := by
  cases walked : graphOf c doc with
  | error e => simp [walked, Except.toOption] at held
  | ok g => exact ⟨g, by simp [build, told, walked], by simpa [walked, Except.toOption] using held⟩

end ApiGraph.Build
