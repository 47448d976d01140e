import ApiGraph.Proofs.BodyVerdicts
import Mathlib.Data.List.Find

/-! The names of bodies. A name is chosen among those that the parameters of an operation leave free,
and it stays with the node of the body: operations that share a body share the name that was chosen
for the first of them, whatever their own parameters are called. -/
namespace ApiGraph.Build
open Json Resolve ApiGraph.Graph Declaration Preference

def freeName (taken : List String) : String :=
  (bodyNames.find? fun name => !taken.contains name).getD "body"

def Fresh (name : String) (taken : List String) : Prop :=
  name ∉ taken ∨ ∀ n ∈ bodyNames, n ∈ taken

def TakesAlike (taken taken' : List String) : Prop := ∀ n ∈ bodyNames, (n ∈ taken ↔ n ∈ taken')

def Overtakes (taken taken' : List String) : Prop :=
  (∃ n ∈ bodyNames, n ∉ taken) ∧ freeName taken' ∈ taken

theorem bodyNameBare {v : Value} (bare : v.textAt? "x-body-name" = none) (taken : List String) :
    bodyName v taken = freeName taken := by
  unfold bodyName
  rw [bare]
  rfl

theorem freeNameAlike {taken taken' : List String} (alike : TakesAlike taken taken') :
    freeName taken = freeName taken' := by
  have same : (bodyNames.find? fun name => !taken.contains name) =
      bodyNames.find? fun name => !taken'.contains name := by
    refine List.find?_congr fun n mem => ?_
    have both := alike n mem
    rw [← List.contains_iff_mem, ← List.contains_iff_mem] at both
    rw [Bool.eq_iff_iff.mpr both]
  unfold freeName
  rw [same]

theorem bodyNameAlike (v : Value) {taken taken' : List String} (alike : TakesAlike taken taken') :
    bodyName v taken = bodyName v taken' := by
  cases stated : v.textAt? "x-body-name" with
  | some name => simp [bodyName, stated]
  | none => rw [bodyNameBare stated, bodyNameBare stated, freeNameAlike alike]

theorem freeNameFresh (taken : List String) : Fresh (freeName taken) taken := by
  unfold freeName
  cases free : bodyNames.find? fun name => !taken.contains name with
  | none => exact .inr fun n mem => by simpa using List.find?_eq_none.mp free n mem
  | some name => exact .inl (by simpa using List.find?_some free)

theorem freshIff {taken taken' : List String} :
    Fresh (freeName taken') taken ↔ ¬ Overtakes taken taken' := by
  unfold Fresh Overtakes
  push Not
  exact or_iff_not_imp_right.trans (by simp)

def declaredNames (doc : Value) (f : Found) : List String := (declaredKeys doc f).map Prod.snd

def parameterNames (g : Graph) (m : Method) : List String :=
  (m.inputs.filterMap (parameterKey g)).map Prod.snd

theorem declaredNamesOf {doc : Value} {f : Found} {g : Graph} {m : Method}
    (lists : ListsInputs doc f g m.inputs) {n : String} :
    n ∈ parameterNames g m ↔ n ∈ declaredNames doc f := by
  rw [parameterNames, declaredNames, (lists.parameters.map Prod.snd).mem_iff]
  simp

theorem declaredNamesAt {doc : Value} {f f' : Found} (same : f.place = f'.place) :
    declaredNames doc f = declaredNames doc f' := by
  have item : f.item = f'.item := by
    have path : f.item.segments ++ [f.verb] = f'.item.segments ++ [f'.verb] :=
      congrArg Location.segments same
    exact congrArg Location.mk (List.append_inj_left' path rfl)
  simp only [declaredNames, declaredKeys, item, same]

section Plans
variable {cx : Setting} {g g' : Graph}

theorem bodyPlanNamed {operation : Value} {l : Location} {taken : List String} {b : BodyPlan}
    (run : bodyPlan cx operation l taken g = .ok (some b, g')) : b.name = bodyName b.value taken := by
  cases held : operation.get? "requestBody" with
  | none => simp [bodyPlan, held, runPure] at run
  | some raw =>
    simp only [bodyPlan, held, runBind, runResolve] at run
    obtain ⟨r, _, ⟨_, rfl⟩, run⟩ := run
    cases declared : r.value.membersAt? "content" with
    | none => simp [declared, runPure] at run
    | some content =>
      simp only [declared, runBind, runPure, Option.some.injEq] at run
      obtain ⟨_, _, _, rfl, _⟩ := run
      rfl

theorem plannedName {f : Found} {plans : List InputPlan}
    (run : inputPlans cx f.operation f.place g = .ok (plans, g')) {b : BodyPlan}
    (mem : .body b ∈ plans) : b.name = bodyName b.value (declaredNames cx.doc f) := by
  have keys := (inputPlansSource run).keys
  simp only [inputPlans, runBind, runPure] at run
  obtain ⟨params, _, planned, body, _, chosen, rfl, _⟩ := run
  have none : (body.toList.map InputPlan.body).filterMap planKey = [] := by cases body <;> rfl
  have named : ∀ p ∈ params, p.value.textAt? "name" = (planKey (.parameter p)).map Prod.snd := by
    have item : (f.place.parent?).getD .root = f.item := by
      simp [Found.place, Location.parent?, Location.child, Location.isRoot]
    rw [item] at planned
    obtain ⟨_, es, rfl, parameters⟩ := paramPlansSource planned
    intro p inside
    obtain ⟨e, given, rfl⟩ := List.mem_map.mp inside
    have identity := (parameters.planned e given).identity
    simp only [planKey, identity, Option.map_some, Prod.swap_prod_mk]
    simp only [paramIdentity, bind, Option.bind_eq_some_iff] at identity
    obtain ⟨name, held, place, _, same⟩ := identity
    rw [held]
    cases same
    rfl
  cases body with
  | none => simp at mem
  | some b' =>
    have same : b = b' := by simpa using mem
    subst same
    rw [bodyPlanNamed chosen]
    refine bodyNameAlike _ fun n _ => ?_
    rw [List.filterMap_append, none, List.append_nil, List.filterMap_map] at keys
    have names : params.filterMap (·.value.textAt? "name") =
        (params.filterMap (planKey ∘ .parameter)).map Prod.snd := by
      rw [List.map_filterMap]
      exact List.filterMap_congr named
    rw [names, (keys.map Prod.snd).mem_iff, declaredNames]
    simp

end Plans

section Nodes
variable {cx : Setting} {g g' : Graph}

theorem Builds.bodiless {k : Scope} {sites : Sites} (h : Builds k cx sites g g') (indexed : Indexed g)
    (none : ∀ l, ¬ sites.body l) : g'.bodies = g.bodies := by
  obtain ⟨more, eq⟩ := h.bodies.kept
  cases more with
  | nil => simpa using eq.symm
  | cons b rest =>
    have last : g'.bodies[g.bodies.length]? = some b := by simp [← eq]
    exact (none _ (h.bodies.fresh indexed _ b (Nat.le_refl _) last).1).elim

theorem bodyKept (kept : g.bodies <+: g'.bodies) {id : BodyId} {b : RequestBody}
    (held : g.body? id = some b) : g'.body? id = some b := by
  obtain ⟨more, eq⟩ := kept
  rw [body?, ← eq, List.getElem?_append_left (List.getElem?_eq_some_iff.mp held).1]
  exact held

theorem bodyBefore (kept : g.bodies <+: g'.bodies) {i : Nat} {b : RequestBody}
    (held : g'.bodies[i]? = some b) : g.bodies[i]? = some b ∨ g.bodies.length ≤ i := by
  obtain ⟨more, eq⟩ := kept
  refine (Nat.lt_or_ge i g.bodies.length).imp_left fun old => ?_
  rw [← eq, List.getElem?_append_left old] at held
  exact held

theorem bodyNodeMakes (lawful : cx.doc.lawful = true) {l : Location} {v : Value}
    (at_ : Tree.get? l cx.doc = some v) {name : String} {preferred : List String} {id : BodyId}
    (run : bodyNode cx l v name preferred g = .ok (id, g')) : g'.bodies = g.bodies ∨
      ∃ b, id = ⟨g.bodies.length⟩ ∧ g'.bodies = g.bodies ++ [b] ∧ b.location = l ∧ b.name = name := by
  obtain ⟨_, rfl⟩ | ⟨_, rfl, b, byMedia, m, schemas, placed, named, _, _, visited, _, rfl⟩ :=
    runBodyNode run
  · exact .inl rfl
  · have trips := mediaOfContentTrips lawful at_ visited
    have bodies := (trips.grows lawful).edits.keepsInputs.2.1
    exact .inr ⟨_, rfl, setAddedBody bodies fun b => { b with schemas := schemas }, placed, named⟩

/- What the making of inputs does to the bodies: a new one has the name that was planned for it, and
it is among the inputs unless it is refused; those among the inputs are not refused. -/
structure MakesBodies (cx : Setting) (g : Graph) (plans : List InputPlan)
    (result : Except OperationError (List MethodInput)) (g' : Graph) : Prop where
  fresh : ∀ i b, g.bodies.length ≤ i → g'.bodies[i]? = some b → ∃ p, .body p ∈ plans ∧
    b.location = p.location ∧ b.name = p.name ∧
    (b.refusal cx.config.role = none → ∃ inputs, result = .ok inputs ∧ .body ⟨i⟩ ∈ inputs)
  known : ∀ inputs, result = .ok inputs → ∀ id, .body id ∈ inputs →
    ∃ b, g'.body? id = some b ∧ b.refusal cx.config.role = none

theorem memBodies {plans : List InputPlan} {b : BodyPlan} (mem : .body b ∈ plans) :
    b.location ∈ plans.filterMap planBody := List.mem_filterMap.mpr ⟨.body b, mem, rfl⟩

theorem MakesBodies.parameter {m : Graph} {p : ParamPlan} {plans : List InputPlan}
    {rest : Except OperationError (List MethodInput)} (makes : MakesBodies cx m plans rest g')
    (same : m.bodies = g.bodies) (id : ParameterId) :
    MakesBodies cx g (.parameter p :: plans) (rest.map (.parameter id :: ·)) g' := by
  refine ⟨fun i b outside held => ?_, fun inputs listed id' mem => ?_⟩
  · obtain ⟨p', mem, placed, named, accepted⟩ := makes.fresh i b (same ▸ outside) held
    refine ⟨p', List.mem_cons_of_mem _ mem, placed, named, fun free => ?_⟩
    obtain ⟨inputs, rfl, inside⟩ := accepted free
    exact ⟨_, rfl, List.mem_cons_of_mem _ inside⟩
  · cases rest with
    | error e => simp [Except.map] at listed
    | ok inputs' =>
      cases listed
      exact makes.known inputs' rfl id' (by simpa using mem)

theorem newBody (lawful : cx.doc.lawful = true) {p : BodyPlan}
    (at_ : Tree.get? p.location cx.doc = some p.value) {id : BodyId} {b : RequestBody}
    (made : bodyNode cx p.location p.value p.name p.preferred g = .ok (id, g'))
    (held : g'.body? id = some b) : ∀ i b', g.bodies.length ≤ i → g'.bodies[i]? = some b' →
      id = ⟨i⟩ ∧ b' = b ∧ b.name = p.name := by
  intro i b' outside held'
  rcases bodyNodeMakes lawful at_ made with same | ⟨new, rfl, added, _, named⟩
  · rw [same, List.getElem?_eq_none outside] at held'
    contradiction
  · rw [body?, added] at held
    obtain rfl : new = b := by simpa using held
    rw [added, List.getElem?_append_right outside] at held'
    obtain ⟨zero, rfl⟩ := List.getElem?_eq_some_iff.mp held'
    have last : i = g.bodies.length := by simp at zero; omega
    exact ⟨by rw [last], by simp, named⟩

theorem MakesBodies.body {m : Graph} {p : BodyPlan} {plans : List InputPlan}
    {inputs : List MethodInput} {id : BodyId} {b : RequestBody}
    (makes : MakesBodies cx m plans (.ok inputs) g') (later : m.bodies <+: g'.bodies)
    (others : ∀ {p}, .body p ∉ plans) (held : m.body? id = some b) (placed : b.location = p.location)
    (accepted : b.refusal cx.config.role = none)
    (new : ∀ i b', g.bodies.length ≤ i → m.bodies[i]? = some b' → id = ⟨i⟩ ∧ b' = b ∧ b.name = p.name) :
    MakesBodies cx g (.body p :: plans) (.ok (.body id :: inputs)) g' := by
  refine ⟨fun i b' outside held' => ?_, fun _ listed id' mem => ?_⟩
  · rcases bodyBefore later held' with old | outside'
    · obtain ⟨rfl, rfl, named⟩ := new i b' outside old
      exact ⟨p, List.mem_cons_self, placed, named, fun _ => ⟨_, rfl, List.mem_cons_self⟩⟩
    · obtain ⟨_, mem, _⟩ := makes.fresh i b' outside' held'
      exact (others mem).elim
  · cases listed
    rcases List.mem_cons.mp mem with same | inside
    · cases same
      exact ⟨b, bodyKept later held, accepted⟩
    · exact makes.known inputs rfl id' inside

theorem inputNodesMake (lawful : cx.doc.lawful = true) (indexed : Indexed g) {plans : List InputPlan}
    (sound : ∀ p ∈ plans, SoundInput cx p) (one : (plans.filterMap planBody).length ≤ 1)
    {result : Except OperationError (List MethodInput)}
    (run : inputNodes cx plans g = .ok (result, g')) : MakesBodies cx g plans result g' := by
  induction plans generalizing g result with
  | nil =>
    obtain ⟨rfl, rfl⟩ := runPure.mp run
    refine ⟨fun i b outside held => ?_, fun inputs same id mem => ?_⟩
    · rw [List.getElem?_eq_none outside] at held
      contradiction
    · cases same
      cases mem
  | cons plan more ih =>
    obtain ⟨here, moreSound⟩ := List.forall_mem_cons.mp sound
    obtain ⟨i, m, first, others⟩ := runInputNodes.mp run
    obtain ⟨builds, node⟩ := inputNodeBuilds lawful here first
    have indexed' := builds.grows.indexed indexed
    cases plan with
    | parameter p =>
      have same : m.bodies = g.bodies := builds.bodiless indexed fun _ => id
      simp only [inputNode, runBind, runPure] at first
      obtain ⟨id, _, _, rfl, rfl⟩ := first
      obtain ⟨_, impossible, _⟩ | ⟨_, rest, others, rfl⟩ := others
      · contradiction
      · have one' : (more.filterMap planBody).length ≤ 1 := by
          simpa [List.filterMap_cons, planBody] using one
        exact (ih indexed' moreSound one' others).parameter same id
    | body p =>
      have bodiless : more.filterMap planBody = [] := by
        simpa [planBody] using one
      have noBody : ∀ {b}, InputPlan.body b ∉ more := fun mem => by
        simpa [bodiless] using memBodies mem
      simp only [inputNode, runBind, runPure] at first
      obtain ⟨id, _, made, rfl, rfl⟩ := first
      cases node indexed with
      | body stands =>
        obtain ⟨b, held, placed⟩ := Option.map_eq_some_iff.mp stands
        have verdict : bodyError cx.config.role m id = b.refusal cx.config.role := bodyErrorOf held
        have new := newBody lawful here.1 made held
        rcases others with ⟨e, failed, rfl, rfl⟩ | ⟨accepted, rest, others, rfl⟩
        · refine ⟨fun i b' outside held' => ?_, fun _ impossible => by contradiction⟩
          obtain ⟨_, rfl, named⟩ := new i b' outside held'
          refine ⟨p, List.mem_cons_self, placed, named, fun free => ?_⟩
          change bodyError _ _ _ = _ at failed
          rw [verdict, free] at failed
          contradiction
        · have makes := ih indexed' moreSound (by simp [bodiless]) others
          have later := (inputNodesBuilds lawful moreSound others).1.bodies.kept
          cases rest with
          | error e =>
            obtain ⟨b, mem, _⟩ := inputNodesJudge lawful indexed' moreSound others
            exact (noBody mem).elim
          | ok inputs =>
            exact makes.body later noBody held placed (verdict ▸ accepted) new

end Nodes

def firstCarrier (g : Graph) (id : BodyId) : Option Method :=
  g.methods.find? fun m => decide (.body id ∈ m.inputs)

/- The first method with a body is that of an operation whose parameters leave the body its name. -/
structure NamedBy (doc : Value) (found : List Found) (g : Graph) (id : BodyId) (b : RequestBody)
    (first : Method) : Prop where
  carrier : firstCarrier g id = some first
  named : ∃ f ∈ found, first.location = f.place ∧
    ∃ v, Tree.get? b.location doc = some v ∧ b.name = bodyName v (declaredNames doc f)

structure BodiesNamed (cx : Setting) (found : List Found) (g : Graph) : Prop where
  known : ∀ m ∈ g.methods, ∀ id, .body id ∈ m.inputs →
    ∃ b, g.body? id = some b ∧ b.refusal cx.config.role = none
  named : ∀ id b, g.body? id = some b → b.refusal cx.config.role = none →
    ∃ first, NamedBy cx.doc found g id b first

section Visits
variable {cx : Setting} {g g' : Graph} {found : List Found} {f : Found}

theorem NamedBy.same {doc : Value} {id : BodyId} {b : RequestBody} {first : Method}
    (methods : g'.methods = g.methods) (h : NamedBy doc found g id b first) :
    NamedBy doc found g' id b first where
  carrier := by rw [firstCarrier, methods]; exact h.carrier
  named := h.named

theorem BodiesNamed.same (bodies : g'.bodies = g.bodies) (methods : g'.methods = g.methods)
    (h : BodiesNamed cx found g) : BodiesNamed cx found g' where
  known := by
    simp only [methods, body?, bodies]
    exact h.known
  named id b held accepted := by
    rw [body?, bodies] at held
    obtain ⟨first, named⟩ := h.named id b held accepted
    exact ⟨first, named.same methods⟩

theorem BodiesNamed.step {plans : List InputPlan} {result : Except OperationError (List MethodInput)}
    (h : BodiesNamed cx found g) (mem : f ∈ found)
    (chosen : ∀ p, .body p ∈ plans → Tree.get? p.location cx.doc = some p.value ∧
      p.name = bodyName p.value (declaredNames cx.doc f))
    (makes : MakesBodies cx g plans result g') (kept : g.bodies <+: g'.bodies) {ms : List Method}
    (added : g'.methods = g.methods ++ ms)
    (placed : ∀ m ∈ ms, m.location = f.place ∧ result = .ok m.inputs)
    (all : ∀ inputs, result = .ok inputs → ∃ m ∈ ms, m.inputs = inputs) :
    BodiesNamed cx found g' where
  known m inside id carried := by
    rw [added] at inside
    rcases List.mem_append.mp inside with old | new
    · obtain ⟨b, held, accepted⟩ := h.known m old id carried
      exact ⟨b, bodyKept kept held, accepted⟩
    · exact makes.known _ (placed m new).2 id carried
  named id b held accepted := by
    rcases bodyBefore kept held with old | outside
    · obtain ⟨first, carrier, named⟩ := h.named id b old accepted
      exact ⟨first, by rw [firstCarrier, added, List.find?_append, ← firstCarrier, carrier]; rfl, named⟩
    · obtain ⟨p, planned, there, named, listed⟩ := makes.fresh id.index b outside held
      obtain ⟨_, rfl, carried⟩ := listed accepted
      obtain ⟨m, new, rfl⟩ := all _ rfl
      -- a method that was made before carries none of the bodies made now
      have none : firstCarrier g id = none := by
        refine List.find?_eq_none.mpr fun m old carried => ?_
        obtain ⟨b, held, _⟩ := h.known m old id (of_decide_eq_true carried)
        exact absurd (List.getElem?_eq_some_iff.mp held).1 (by omega)
      have one : (ms.find? fun m => decide (.body id ∈ m.inputs)).isSome :=
        List.find?_isSome.mpr ⟨m, new, decide_eq_true carried⟩
      obtain ⟨first, sought⟩ := Option.isSome_iff_exists.mp one
      obtain ⟨at_, name⟩ := chosen p planned
      refine ⟨first, ?_, f, mem, (placed first (List.mem_of_find?_eq_some sought)).1, p.value,
        there ▸ at_, named.trans name⟩
      rw [firstCarrier, added, List.find?_append, ← firstCarrier, none]
      exact sought

theorem methodNodeNames (lawful : cx.doc.lawful = true) (indexed : Indexed g)
    (at_ : Tree.get? f.place cx.doc = some f.operation) (mem : f ∈ found)
    (h : BodiesNamed cx found g) {result : Except OperationError MethodId}
    (run : methodNode cx (planOf cx.config f) f.operation g = .ok (result, g')) :
    BodiesNamed cx found g' := by
  have inputs : ∀ {plans result m}, inputPlans cx f.operation f.place g = .ok (plans, g) →
      inputNodes cx (sortInputs InputPlan.order plans) g = .ok (result, m) →
      (∀ p, .body p ∈ sortInputs InputPlan.order plans → Tree.get? p.location cx.doc = some p.value ∧
        p.name = bodyName p.value (declaredNames cx.doc f)) ∧
      MakesBodies cx g (sortInputs InputPlan.order plans) result m := by
    intro plans result m asked visited
    have perm : (sortInputs InputPlan.order plans).Perm plans := Stable.sortPerm _ plans
    have sound := sortedSound at_ asked
    refine ⟨fun p mem => ⟨(sound _ mem).1, plannedName asked (perm.mem_iff.mp mem)⟩, ?_⟩
    refine inputNodesMake lawful indexed sound ?_ visited
    rw [(perm.filterMap planBody).length_eq, (inputPlansSource asked).bodies]
    cases declaredBody cx.doc f.operation f.place <;> simp
  cases methodNodeSource run with
  | @failed plans _ e asked _ visited =>
    obtain ⟨chosen, makes⟩ := inputs asked visited
    have builds := (inputNodesBuilds lawful (sortedSound at_ asked) visited).1
    have methods := (builds.grows.edits.keepsMethods (by simp)).2.1
    have added : g'.methods = g.methods ++ [] := by simpa using methods
    exact h.step mem chosen makes builds.bodies.kept added (by simp) fun _ impossible => by contradiction
  | @made plans preferred listed m response m' secured asked ranked visited settled _ added =>
    obtain ⟨chosen, makes⟩ := inputs asked visited
    have builds := (inputNodesBuilds lawful (sortedSound at_ asked) visited).1
    have codes := (preferredResponsesSound at_ ranked).2
    let sites : Sites := ⟨fun _ => False, fun _ => False, fun _ => True⟩
    have settles : Builds .inputs cx sites m m' ∧ _ := responseNodeBuilds lawful codes trivial settled
    have still : m'.bodies = m.bodies :=
      settles.1.bodiless (builds.grows.indexed indexed) fun _ => id
    have methods := (settles.1.grows.edits.keepsMethods (by simp)).2.1.trans
      (builds.grows.edits.keepsMethods (by simp)).2.1
    let method := (planOf cx.config f).method listed response secured
    have enters : g'.methods = g.methods ++ [method] := by rw [added, ← methods]; rfl
    have bodies : g'.bodies = m.bodies := added ▸ still
    have after : MakesBodies cx g (sortInputs InputPlan.order plans) (.ok listed) g' :=
      ⟨bodies ▸ makes.fresh, by simpa only [body?, bodies] using makes.known⟩
    refine h.step mem chosen after (bodies ▸ builds.bodies.kept) enters ?_ ?_
    · intro n inside
      rw [List.mem_singleton.mp inside]
      exact ⟨rfl, rfl⟩
    · rintro _ ⟨⟩
      exact ⟨method, List.mem_singleton_self _, rfl⟩

theorem visitNames (lawful : cx.doc.lawful = true) (indexed : Indexed g)
    (at_ : Tree.get? f.place cx.doc = some f.operation) (mem : f ∈ found)
    (h : BodiesNamed cx found g) {u : PUnit} (run : visitOperation cx f g = .ok (u, g')) :
    BodiesNamed cx found g' := by
  have grouped : ∀ {name id m}, apiNamed cx name g = .ok (id, m) → Indexed m ∧
      BodiesNamed cx found m := by
    intro name id m run
    let sites : Sites := ⟨fun _ => False, fun _ => False, fun _ => False⟩
    have groups : Builds .whole cx sites g m ∧ m.methods = g.methods := apiNamedBuilds run
    have still : m.bodies = g.bodies := groups.1.bodiless indexed fun _ => not_false
    exact ⟨groups.1.grows.indexed indexed, h.same still groups.2⟩
  cases visitOperationSource run with
  | omitted _ same => exact same ▸ h
  | dropped _ named _ => exact (grouped named).2
  | @made api m result m' _ named _ node listed =>
    obtain ⟨indexed', before⟩ := grouped named
    have after := methodNodeNames lawful indexed' at_ mem before node
    have still : g'.bodies = m'.bodies ∧ g'.methods = m'.methods := by
      cases result <;> exact listed ▸ ⟨rfl, rfl⟩
    exact after.same still.1 still.2

theorem visitsName (lawful : cx.doc.lawful = true) {fs : List Found} {us : List PUnit}
    (indexed : Indexed g)
    (all : ∀ f ∈ fs, f ∈ found ∧ Tree.get? f.place cx.doc = some f.operation)
    (runs : Runs (visitOperation cx) fs g us g') (h : BodiesNamed cx found g) :
    BodiesNamed cx found g' := by
  induction runs with
  | nil => exact h
  | cons head _ ih =>
    obtain ⟨⟨mem, at_⟩, rest⟩ := List.forall_mem_cons.mp all
    have builds := (visitOperationBuilds lawful at_ head).1
    exact ih (builds.grows.indexed indexed) rest (visitNames lawful indexed at_ mem h head)

theorem Walked.named {m : Graph} (lawful : cx.doc.lawful = true)
    (operations : Declaration.operations cx.doc = .ok found) (w : Walked cx found m g)
    {method : Method} (mem : method ∈ g.methods) {id : BodyId} (carried : .body id ∈ method.inputs) :
    ∃ b first, g.body? id = some b ∧ NamedBy cx.doc found g id b first := by
  obtain ⟨us, runs⟩ := w.visits
  have nothing : BodiesNamed cx found .empty :=
    ⟨fun _ mem => by simp [Graph.empty] at mem, fun _ _ held => by simp [body?, Graph.empty] at held⟩
  have names := visitsName lawful emptyIndexed
    (fun f mem => ⟨mem, operationAt operations mem⟩) runs nothing
  obtain ⟨b, held, accepted⟩ := names.known method (w.methods ▸ mem) id carried
  obtain ⟨first, named⟩ := names.named id b held accepted
  exact ⟨b, first, bodyKept w.rest.bodies.kept held, named.same w.methods⟩

end Visits

/- The name of a body is the one that it states, or the one that the parameters of the first method
with this body leave free. It is then fresh for every method whose parameters take the same names, so
for a method that shares its body with no other, and it fails to be fresh for another method exactly
if the parameters of that one overtake those of the first. -/
theorem bodyNamesChosen {c : Config} {doc doc' : Value} {g : Graph} (lawful : doc.lawful = true)
    (built : build c doc = (doc', .ok g)) :
    ∀ m ∈ g.methods, ∀ id, .body id ∈ m.inputs → ∃ b v first, g.body? id = some b ∧
      Tree.get? b.location doc' = some v ∧ firstCarrier g id = some first ∧
      b.name = bodyName v (parameterNames g first) ∧
      (v.textAt? "x-body-name" = none →
        (TakesAlike (parameterNames g m) (parameterNames g first) →
          Fresh b.name (parameterNames g m)) ∧
        (Fresh b.name (parameterNames g m) ↔
          ¬ Overtakes (parameterNames g m) (parameterNames g first))) := by
  have lawful' := buildLawful lawful built
  obtain ⟨cx, set, walked⟩ := graphOfSource (buildSource built).2
  obtain ⟨_, _, _, _, rfl⟩ := settingSource set
  obtain ⟨found, operations, builds, _⟩ := walkBuilds lawful' walked
  obtain ⟨start, walks⟩ := walkSource lawful' operations walked
  intro m mem id carried
  obtain ⟨b, first, held, carrier, f, _, placed, v, at_, name⟩ :=
    walks.named lawful' operations mem carried
  obtain ⟨f', _, placed', lists⟩ :=
    walks.listed lawful' operations builds (List.mem_of_find?_eq_some carrier)
  have names : b.name = bodyName v (parameterNames g first) := by
    rw [name, declaredNamesAt (placed.symm.trans placed')]
    exact bodyNameAlike v fun n _ => (declaredNamesOf lists).symm
  refine ⟨b, v, first, held, at_, carrier, names, fun bare => ?_⟩
  rw [names, bodyNameBare bare]
  exact ⟨fun alike => freeNameAlike alike ▸ freeNameFresh _, freshIff⟩

def sharingDocument (first second : List String) : Value :=
  let operation (id : String) (names : List String) : Value := .obj [
    ("tags", .arr [.str "notes"]), ("operationId", .str id),
    ("parameters", .arr (names.map fun name => .obj [("in", .str "query"), ("name", .str name)])),
    ("requestBody", .obj [("$ref", .str "#/components/requestBodies/Note")]), ("responses", .obj [])]
  .obj [
    ("paths", .obj [("/notes",
      .obj [("post", operation "addNote" first), ("put", operation "setNote" second)])]),
    ("components", .obj [("requestBodies", .obj [("Note",
      .obj [("content", .obj [("text/plain", .obj [("schema", .obj [("type", .str "string")])])])])])]),
    ("tags", .arr [.obj [("name", .str "notes")]])]

theorem sharedNameChosen : ∃ g,
    build Config.default (sharingDocument ["body"] ["size"]) =
      (sharingDocument ["body"] ["size"], .ok g) ∧
    g.methods.map (parameterNames g) = [["body"], ["size"]] ∧
    g.bodies.map RequestBody.name = ["reqBody"] ∧
    ∀ m ∈ g.methods, ∀ id, .body id ∈ m.inputs → ∃ b v first, g.body? id = some b ∧
      Tree.get? b.location (sharingDocument ["body"] ["size"]) = some v ∧
      firstCarrier g id = some first ∧ b.name = bodyName v (parameterNames g first) ∧
      (v.textAt? "x-body-name" = none →
        (TakesAlike (parameterNames g m) (parameterNames g first) →
          Fresh b.name (parameterNames g m)) ∧
        (Fresh b.name (parameterNames g m) ↔
          ¬ Overtakes (parameterNames g m) (parameterNames g first))) := by
  have told : Declaration.declare Config.default (sharingDocument ["body"] ["size"]) =
      .ok (sharingDocument ["body"] ["size"], 0) := by rfl
  obtain ⟨g, walked, names, bodies⟩ : ∃ g,
      graphOf Config.default (sharingDocument ["body"] ["size"]) = .ok g ∧
      g.methods.map (parameterNames g) = [["body"], ["size"]] ∧
      g.bodies.map RequestBody.name = ["reqBody"] := by decide +kernel
  have built : build Config.default (sharingDocument ["body"] ["size"]) =
      (sharingDocument ["body"] ["size"], .ok g) := by simp [build, told, walked]
  exact ⟨g, built, names, bodies, bodyNamesChosen (by decide +kernel) built⟩

/- The second method is left with a body called like its parameter. -/
theorem sharedNameTaken : ∃ g m id b v,
    build Config.default (sharingDocument [] ["body"]) = (sharingDocument [] ["body"], .ok g) ∧
    m ∈ g.methods ∧ .body id ∈ m.inputs ∧ g.body? id = some b ∧
    Tree.get? b.location (sharingDocument [] ["body"]) = some v ∧
    v.textAt? "x-body-name" = none ∧ ¬ Fresh b.name (parameterNames g m) := by
  have told : Declaration.declare Config.default (sharingDocument [] ["body"]) =
      .ok (sharingDocument [] ["body"], 0) := by rfl
  obtain ⟨g, walked, ⟨m, mem, carried, taken⟩, body⟩ : ∃ g,
      graphOf Config.default (sharingDocument [] ["body"]) = .ok g ∧
      (∃ m ∈ g.methods, .body ⟨0⟩ ∈ m.inputs ∧ parameterNames g m = ["body"]) ∧
      (g.body? ⟨0⟩).map (fun b => (b.name, b.location)) =
        some ("body", ⟨["components", "requestBodies", "Note"]⟩) := by decide +kernel
  obtain ⟨b, held, facts⟩ := Option.map_eq_some_iff.mp body
  obtain ⟨named, placed⟩ := Prod.mk.inj facts
  refine ⟨g, m, ⟨0⟩, b, _, by simp [build, told, walked], mem, carried, held, by rw [placed]; rfl, by rfl, ?_⟩
  rw [named, taken]
  simp [Fresh, bodyNames]

end ApiGraph.Build
