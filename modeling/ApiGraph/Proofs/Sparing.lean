import ApiGraph.Proofs.Omission
import ApiGraph.Proofs.Remaking

/-! A walk beside the walk that leaves out what the first one reports. Both make the same methods,
each under its group in the same order; the groups are those of the operations that each one comes
to, so a group goes with the last operation that names it. -/
namespace ApiGraph.Build
open Json Resolve ApiGraph.Graph Declaration

def methodPlaces (g : Graph) (a : Api) : List Location :=
  (a.methods.filterMap g.method?).map Method.location

def roster (g : Graph) : List (String × List Location) := g.apis.map fun a => (a.name, methodPlaces g a)

def placesUnder (log : Log) (name : String) : List Location :=
  ((log.of .built).filter (·.group = name)).map Found.place

def groupsNamed (log : Log) : List String := (log.filter (·.2 ≠ .omitted)).map (·.1.group)

/- A graph as a walk leaves it that has come to the operations of the log and has asked for the
groups of these names. -/
structure Records (cx : Setting) (log : Log) (names : List String) (g : Graph) : Prop where
  builds : Builds .whole cx .all .empty g
  account : Account cx.config cx.doc log g
  tagged : AllTagged cx g
  answered : ∀ r ∈ g.responses, ∃ e ∈ log, r.location = e.1.place.child "responses"
  names : g.apis.map Api.name = Entries.distinct names
  listing : ∀ a ∈ g.apis, methodPlaces g a = placesUnder log a.name

namespace Account
variable {c : Config} {doc : Value} {log : Log} {g : Graph}

theorem takenIff (h : Account c doc log g) {a : Api} (inside : a ∈ g.apis) {i : String} :
    i ∈ identifiers g a ↔ ∃ f ∈ log.of .built, f.group = a.name ∧ identifier c f = i := by
  refine ⟨h.builtSource inside, ?_⟩
  rintro ⟨f, built, group, rfl⟩
  obtain ⟨k, at_⟩ := List.getElem?_of_mem built
  obtain ⟨b, inside', named, listed⟩ := h.listedOnce at_
  cases List.inj_on_of_nodup_map h.names inside inside' (group.symm.trans named.symm)
  have once := listed a inside
  rw [if_pos rfl] at once
  have mem : (⟨k⟩ : MethodId) ∈ a.methods := List.count_pos_iff.mp (by omega)
  have plans : (g.methods.map planned)[k]? = ((log.of .built).map (planOf c))[k]? := by
    rw [h.methods]
  rw [List.getElem?_map, List.getElem?_map, at_] at plans
  obtain ⟨m, held, plan⟩ := Option.map_eq_some_iff.mp plans
  have name : m.identifier = identifier c f := congrArg MethodPlan.identifier plan
  exact name ▸ List.mem_map_of_mem (List.mem_filterMap.mpr ⟨_, mem, held⟩)

end Account

theorem placesUnderAppend (log : Log) (f : Found) (fate : Fate) (name : String) :
    placesUnder (log ++ [(f, fate)]) name =
      placesUnder log name ++ (if fate = .built ∧ f.group = name then [f.place] else []) := by
  rw [placesUnder, logOfAppend]
  by_cases built : fate = .built <;> by_cases same : f.group = name <;> simp [built, same, placesUnder]

namespace Records
variable {cx : Setting} {log : Log} {names : List String} {g g' : Graph} {f : Found}

theorem empty (cx : Setting) : Records cx [] [] .empty where
  builds := .refl _
  account := .empty
  tagged _ mem := by cases mem
  answered _ mem := by cases mem
  names := rfl
  listing _ mem := by cases mem

theorem named (h : Records cx log names g) {name : String}
    {api : ApiId} (run : apiNamed cx name g = .ok (api, g')) :
    Records cx log (names ++ [name]) g' ∧ ∃ a, g'.api? api = some a ∧ a.name = name := by
  obtain ⟨account, a, held, same⟩ := apiNamedAccount (h.builds.grows.indexed emptyIndexed)
    h.account run
  have builds : Builds .whole cx .all g g' ∧ _ := apiNamedBuilds run
  have tagged := (h.tagged.named run).1
  refine ⟨?_, a, held, same⟩
  have mem : name ∈ g'.apis.map Api.name := same ▸ List.mem_map_of_mem (List.mem_of_getElem? held)
  have known : g' = g → Records cx log (names ++ [name]) g' := by
    rintro rfl
    refine ⟨h.builds, h.account, h.tagged, h.answered, ?_, h.listing⟩
    rw [h.names] at mem
    rw [Preference.distinctAppend, if_pos (List.contains_iff_mem.mpr mem), h.names]
  cases apiNamedSource run with
  | known _ same | held _ _ _ same => exact known same
  | made new tag _ added =>
    subst added
    have fresh := unnamed new
    refine ⟨h.builds.trans builds.1, account, tagged, h.answered, ?_, fun b inside => ?_⟩
    · have outside : (Entries.distinct names).contains name = false := by
        rw [← h.names]
        simpa using fresh
      rw [Preference.distinctAppend, outside]
      simp [Graph.addApi, h.names]
    · rcases List.mem_append.mp inside with old | last
      · exact h.listing b old
      · -- nothing was built under a group that was not there
        cases List.mem_singleton.mp last
        have none : (log.of .built).filter (fun f => decide (f.group = name)) = [] := by
          refine List.filter_eq_nil_iff.mpr fun f built group => fresh ?_
          obtain ⟨k, at_⟩ := List.getElem?_of_mem built
          obtain ⟨b, there, same, _⟩ := h.account.listedOnce at_
          exact List.mem_map.mpr ⟨b, there, same.trans (of_decide_eq_true group)⟩
        simp [methodPlaces, placesUnder, none]

theorem later (h : Records cx log names g) (fate : Fate) :
    ∀ r ∈ g.responses, ∃ e ∈ log ++ [(f, fate)], r.location = e.1.place.child "responses" := by
  intro r mem
  obtain ⟨e, inside, same⟩ := h.answered r mem
  exact ⟨e, List.mem_append_left _ inside, same⟩

theorem listingThen (h : Records cx log names g) {fate : Fate} (bare : fate ≠ .built) :
    ∀ a ∈ g.apis, methodPlaces g a = placesUnder (log ++ [(f, fate)]) a.name := by
  intro a mem
  rw [h.listing a mem, placesUnderAppend, if_neg (fun both => bare both.1), List.append_nil]

theorem leaveOut (h : Records cx log names g) (out : cx.config.isOmitted f.id = true) :
    Records cx (log ++ [(f, .omitted)]) names g :=
  ⟨h.builds, h.account.pass (by decide) (by decide) (by simp [out]) (by simp), h.tagged, h.later _,
    h.names, h.listingThen (by decide)⟩

theorem drop (h : Records cx log names g) (kept : cx.config.isOmitted f.id = false) {api : ApiId}
    {a : Api} (held : g.api? api = some a) (group : a.name = f.group)
    (taken : hasIdentifier g api (identifier cx.config f) = true) :
    Records cx (log ++ [(f, .dropped)]) names g := by
  have inside := List.mem_of_getElem? held
  obtain ⟨f', built, same, shared⟩ :=
    (h.account.takenIff inside).mp ((Account.hasIdentifierIff held).mp taken)
  have account : Account cx.config cx.doc (log ++ [(f, .dropped)]) g :=
    h.account.pass (by decide) (by decide) (by simp [kept])
      fun _ => ⟨f', built, same.trans group, shared⟩
  exact ⟨h.builds, account, h.tagged, h.later _, h.names, h.listingThen (by decide)⟩

theorem report (lawful : cx.doc.lawful = true) (h : Records cx log names g)
    (kept : cx.config.isOmitted f.id = false) (at_ : Tree.get? f.place cx.doc = some f.operation)
    {e : OperationError}
    (node : methodNode cx (planOf cx.config f) f.operation g = .ok (.error e, g')) :
    Records cx (log ++ [(f, .reported)]) names (g'.addSkipped (reportOf f e)) := by
  obtain ⟨builds, _⟩ := methodNodeBuilds lawful at_ node
  obtain ⟨apis, skipped, outcome⟩ := methodNodeRecords lawful at_ node
  have methods : g'.methods = g.methods := by
    rcases outcome with ⟨_, _, methods⟩ | ⟨_, _, impossible, _⟩
    · exact methods
    · contradiction
  have still := (methodNodeAnswers lawful (h.builds.grows.indexed emptyIndexed) at_ node).2 ⟨e, rfl⟩
  have added : Builds .whole cx .all g' (g'.addSkipped (reportOf f e)) :=
    .edit (.skip _) rfl rfl rfl rfl rfl
  refine ⟨(h.builds.trans builds).trans added, ?_, ?_, ?_, ?_, ?_⟩
  · exact (h.account.same apis methods skipped).report kept e.message
  · exact h.tagged.same (by simp [addSkipped, apis])
  · exact fun r mem => h.later _ r (still r mem)
  · simp [addSkipped, apis, h.names]
  · intro a mem
    rw [← h.listingThen (f := f) (by decide) a (apis ▸ mem), methodPlaces, methodPlaces]
    have method : (g'.addSkipped (reportOf f e)).method? = g.method? := by
      funext id
      simp only [method?, addSkipped, methods]
    rw [method]

theorem listingEnlisted (h : Records cx log names g) {api : ApiId} {a : Api}
    (held : g.api? api = some a) (group : a.name = f.group) {m : Method} (placed : m.location = f.place)
    (apis : g'.apis = g.apis) (methods : g'.methods = g.methods ++ [m])
    (once : ((g'.enlist api ⟨g.methods.length⟩).apis.map Api.name).Nodup) :
    ∀ a' ∈ (g'.enlist api ⟨g.methods.length⟩).apis,
      methodPlaces (g'.enlist api ⟨g.methods.length⟩) a' =
        placesUnder (log ++ [(f, .built)]) a'.name := by
  have old : ∀ a' ∈ g.apis, a'.methods.filterMap g'.method? = a'.methods.filterMap g.method? := by
    intro a' mem
    refine List.filterMap_congr fun id mem' => ?_
    rw [method?, method?, methods, List.getElem?_append_left (h.account.known mem mem')]
  have last : g'.method? ⟨g.methods.length⟩ = some m := by simp [method?, methods]
  have inside : a ∈ g.apis := List.mem_of_getElem? held
  have held' : g'.api? api = some a := by rw [api?, apis]; exact held
  have own : methodPlaces (g'.enlist api ⟨g.methods.length⟩) (Api.listing ⟨g.methods.length⟩ a) =
      placesUnder (log ++ [(f, .built)]) a.name := by
    rw [placesUnderAppend, if_pos ⟨rfl, group.symm⟩, ← h.listing a inside]
    change ((a.methods ++ [_]).filterMap g'.method?).map Method.location = _
    simp [methodPlaces, old a inside, last, placed]
  have there : Api.listing ⟨g.methods.length⟩ a ∈ (g'.enlist api ⟨g.methods.length⟩).apis := by
    refine List.mem_of_getElem? (i := api.index) ?_
    have at' : g'.apis[api.index]? = some a := held'
    simp [Graph.enlist, Api.listing, at']
  intro a' mem
  by_cases same : a'.name = a.name
  · cases List.inj_on_of_nodup_map once mem there same
    exact own
  · rcases Account.enlistedSource held' mem with rfl | before
    · exact absurd rfl same
    · rw [apis] at before
      rw [placesUnderAppend, if_neg fun both => same (both.2.symm.trans group.symm), List.append_nil,
        ← h.listing a' before]
      change (a'.methods.filterMap g'.method?).map Method.location = _
      rw [old a' before, methodPlaces]

theorem enlist (lawful : cx.doc.lawful = true) (h : Records cx log names g)
    (kept : cx.config.isOmitted f.id = false) (at_ : Tree.get? f.place cx.doc = some f.operation)
    {api : ApiId} {a : Api} (held : g.api? api = some a) (group : a.name = f.group)
    (free : hasIdentifier g api (identifier cx.config f) = false) {id : MethodId}
    (node : methodNode cx (planOf cx.config f) f.operation g = .ok (.ok id, g')) :
    Records cx (log ++ [(f, .built)]) names (g'.enlist api id) := by
  obtain ⟨builds, _⟩ := methodNodeBuilds lawful at_ node
  obtain ⟨apis, skipped, outcome⟩ := methodNodeRecords lawful at_ node
  obtain ⟨m, plan, rfl, methods⟩ : ∃ m, planned m = planOf cx.config f ∧ id = ⟨g.methods.length⟩ ∧
      g'.methods = g.methods ++ [m] := by
    rcases outcome with ⟨_, impossible, _⟩ | ⟨m, plan, same, methods⟩
    · contradiction
    · exact ⟨m, plan, Except.ok.inj same, methods⟩
  have fresh : identifier cx.config f ∉ identifiers g a := fun mem =>
    Bool.false_ne_true (free.symm.trans ((Account.hasIdentifierIff held).mpr mem))
  have account := h.account.enlist kept apis methods skipped plan held group fresh
  have added : Builds .whole cx .all g' (g'.enlist api ⟨g.methods.length⟩) :=
    .edit (.enlist api _) rfl rfl rfl rfl rfl
  have named : (g'.enlist api ⟨g.methods.length⟩).apis.map (fun a => (a.name, a.location)) =
      g'.apis.map fun a => (a.name, a.location) :=
    modifyMap (f := Api.listing ⟨g.methods.length⟩) (fun _ => rfl) g'.apis api.index
  have answered := (methodNodeAnswers lawful (h.builds.grows.indexed emptyIndexed) at_ node).1
  refine ⟨(h.builds.trans builds).trans added, account, ?_, ?_, ?_, ?_⟩
  · exact h.tagged.same (by rw [named, apis])
  · intro r mem
    rcases answered r mem with before | here
    · exact h.later _ r before
    · exact ⟨(f, .built), by simp, here⟩
  · have names := congrArg (List.map Prod.fst) named
    simp only [List.map_map, Function.comp_def] at names
    rw [names, apis]
    exact h.names
  · have placed : m.location = f.place := congrArg MethodPlan.location plan
    exact h.listingEnlisted held group placed apis methods account.names

theorem roster (h : Records cx log names g) :
    roster g = (Entries.distinct names).map fun name => (name, placesUnder log name) := by
  rw [← h.names, List.map_map]
  exact List.map_congr_left fun a mem => by simp [h.listing a mem]

end Records

def Log.spared (log : Log) : Log := log.filter (·.2 ≠ .reported)

/- One operation in both walks. The second one does not come to those that the first one reports. -/
inductive Stride (cx : Setting) (f : Found) (g h : Graph) : Fate → Graph → Graph → Prop
  | omitted (out : cx.config.isOmitted f.id = true) : Stride cx f g h .omitted g h
  | dropped {api api' g' h'} (kept : cx.config.isOmitted f.id = false)
      (grouped : apiNamed cx f.group g = .ok (api, g'))
      (grouped' : apiNamed cx f.group h = .ok (api', h'))
      (taken : hasIdentifier g' api (identifier cx.config f) = true)
      (taken' : hasIdentifier h' api' (identifier cx.config f) = true) :
      Stride cx f g h .dropped g' h'
  | built {api api' m n id id' g' h'} (kept : cx.config.isOmitted f.id = false)
      (grouped : apiNamed cx f.group g = .ok (api, m))
      (grouped' : apiNamed cx f.group h = .ok (api', n))
      (free : hasIdentifier m api (identifier cx.config f) = false)
      (free' : hasIdentifier n api' (identifier cx.config f) = false)
      (node : methodNode cx (planOf cx.config f) f.operation m = .ok (.ok id, g'))
      (node' : methodNode cx (planOf cx.config f) f.operation n = .ok (.ok id', h')) :
      Stride cx f g h .built (g'.enlist api id) (h'.enlist api' id')
  | reported {api m e g'} (kept : cx.config.isOmitted f.id = false)
      (grouped : apiNamed cx f.group g = .ok (api, m))
      (free : hasIdentifier m api (identifier cx.config f) = false)
      (node : methodNode cx (planOf cx.config f) f.operation m = .ok (.error e, g')) :
      Stride cx f g h .reported (g'.addSkipped (reportOf f e)) h

inductive Spares (cx : Setting) : Log → Graph → Graph → Prop
  | start : Spares cx [] .empty .empty
  | next {log g h f fate g' h'} (before : Spares cx log g h)
      (at_ : Tree.get? f.place cx.doc = some f.operation) (stride : Stride cx f g h fate g' h') :
      Spares cx (log ++ [(f, fate)]) g' h'

theorem sparedAppend (log : Log) (f : Found) (fate : Fate) : Log.spared (log ++ [(f, fate)]) =
    log.spared ++ (if fate = .reported then [] else [(f, fate)]) := by
  by_cases same : fate = .reported <;> simp [Log.spared, same]

theorem groupsNamedAppend (log : Log) (f : Found) (fate : Fate) : groupsNamed (log ++ [(f, fate)]) =
    groupsNamed log ++ (if fate = .omitted then [] else [f.group]) := by
  by_cases same : fate = .omitted <;> simp [groupsNamed, same]

theorem builtSpared (log : Log) : log.spared.of .built = log.of .built := by
  rw [Log.spared, Log.of, Log.of, List.filter_filter]
  refine congrArg _ (List.filter_congr fun e _ => ?_)
  cases e.2 <;> rfl

theorem Records.takenIff {cx : Setting} {log : Log} {names : List String} {g : Graph} {f : Found}
    (h : Records cx log names g) {api : ApiId} {a : Api} (held : g.api? api = some a)
    (group : a.name = f.group) {i : String} : hasIdentifier g api i = true ↔
      ∃ f' ∈ log.of .built, f'.group = f.group ∧ identifier cx.config f' = i := by
  rw [Account.hasIdentifierIff held, h.account.takenIff (List.mem_of_getElem? held), group]

namespace Spares
variable {cx : Setting} {log : Log} {g h g' h' : Graph} {f : Found} {fate : Fate}

theorem left (lawful : cx.doc.lawful = true) (spares : Spares cx log g h) :
    Records cx log (groupsNamed log) g := by
  induction spares with
  | start => exact .empty cx
  | @next log g h f fate g' h' _ at_ stride ih =>
    rw [groupsNamedAppend]
    cases stride with
    | omitted out => simpa using ih.leaveOut out
    | dropped kept grouped _ taken _ =>
      obtain ⟨there, _, held, same⟩ := ih.named grouped
      exact there.drop kept held same taken
    | built kept grouped _ free _ node _ =>
      obtain ⟨there, _, held, same⟩ := ih.named grouped
      exact there.enlist lawful kept at_ held same free node
    | reported kept grouped _ node =>
      exact (ih.named grouped).1.report lawful kept at_ node

theorem right (lawful : cx.doc.lawful = true) (spares : Spares cx log g h) :
    Records cx log.spared (groupsNamed log.spared) h := by
  induction spares with
  | start => exact .empty cx
  | @next log g h f fate g' h' _ at_ stride ih =>
    rw [sparedAppend]
    cases stride with
    | omitted out =>
      rw [if_neg (by decide), groupsNamedAppend]
      simpa using ih.leaveOut out
    | dropped kept _ grouped _ taken =>
      obtain ⟨there, _, held, same⟩ := ih.named grouped
      rw [if_neg (by decide), groupsNamedAppend]
      exact there.drop kept held same taken
    | built kept _ grouped _ free _ node =>
      obtain ⟨there, _, held, same⟩ := ih.named grouped
      rw [if_neg (by decide), groupsNamedAppend]
      exact there.enlist lawful kept at_ held same free node
    | reported => simpa using ih

theorem step (lawful : cx.doc.lawful = true) (spares : Spares cx log g h)
    (at_ : Tree.get? f.place cx.doc = some f.operation) (fresh : ∀ e ∈ log, e.1.place ≠ f.place)
    (run : visitOperation cx f g = .ok (⟨⟩, g')) : ∃ fate h', Stride cx f g h fate g' h' := by
  have left := spares.left lawful
  have right := spares.right lawful
  have second : ∀ {api m}, apiNamed cx f.group g = .ok (api, m) →
      ∃ api' n, apiNamed cx f.group h = .ok (api', n) ∧ ∀ i,
        hasIdentifier n api' i = hasIdentifier m api i := by
    intro api m grouped
    obtain ⟨l, tag⟩ := (left.tagged.named grouped).2
    obtain ⟨api', n, grouped', _⟩ := apiNamedSucceeds tag h trivial
    obtain ⟨left', _, held, same⟩ := left.named grouped
    obtain ⟨right', _, held', same'⟩ := right.named grouped'
    refine ⟨api', n, grouped', fun i => Bool.eq_iff_iff.mpr ?_⟩
    rw [left'.takenIff held same, right'.takenIff held' same', builtSpared]
  cases visitOperationSource run with
  | omitted out same =>
    subst same
    exact ⟨_, _, .omitted out⟩
  | dropped kept grouped taken =>
    obtain ⟨api', n, grouped', agrees⟩ := second grouped
    exact ⟨_, _, .dropped kept grouped grouped' taken ((agrees _).trans taken)⟩
  | @made api m result m' kept grouped free node listed =>
    subst listed
    cases result with
    | error e => exact ⟨_, _, .reported kept grouped free node⟩
    | ok id =>
      obtain ⟨api', n, grouped', agrees⟩ := second grouped
      have left' := (left.named grouped).1
      have right' := (right.named grouped').1
      have unanswered : ∀ r ∈ m.responses, r.location ≠ f.place.child "responses" := by
        intro r mem same
        obtain ⟨e, inside, placed⟩ := left'.answered r mem
        exact fresh e inside (Hydrate.childApart (placed.symm.trans same))
      obtain ⟨id', n', node'⟩ :=
        methodNodeRepeats lawful at_ left'.builds right'.builds unanswered node
      exact ⟨_, _, .built kept grouped grouped' free ((agrees _).trans free) node node'⟩

theorem run (lawful : cx.doc.lawful = true) {found : List Found} {us : List PUnit}
    (at_ : ∀ f ∈ found, Tree.get? f.place cx.doc = some f.operation)
    (apart : (found.map Found.place).Nodup) (runs : Runs (visitOperation cx) found .empty us g) :
    ∃ log h, log.map Prod.fst = found ∧ Spares cx log g h := by
  -- over the operations still to come, the walks so far being any
  suffices all : ∀ (log : Log) (start start' : Graph), Spares cx log start start' →
      (∀ f ∈ found, ∀ e ∈ log, e.1.place ≠ f.place) → Runs (visitOperation cx) found start us g →
      ∃ log' h, log'.map Prod.fst = log.map Prod.fst ++ found ∧ Spares cx log' g h from
    all [] .empty .empty .start (fun _ _ _ mem => by cases mem) runs
  clear runs
  induction found generalizing us with
  | nil =>
    intro log start start' spares _ runs
    cases runs
    exact ⟨log, start', by simp, spares⟩
  | cons f found ih =>
    intro log start start' spares fresh runs
    obtain ⟨new, apart⟩ := List.nodup_cons.mp apart
    cases runs with
    | @cons _ _ _ _ _ m _ head tail =>
      have here := at_ f List.mem_cons_self
      obtain ⟨fate, n, stride⟩ := spares.step lawful here (fresh f List.mem_cons_self) head
      have apart' : ∀ f' ∈ found, ∀ e ∈ log ++ [(f, fate)], e.1.place ≠ f'.place := by
        intro f' mem e inside
        rcases List.mem_append.mp inside with old | last
        · exact fresh f' (List.mem_cons_of_mem _ mem) e old
        · cases List.mem_singleton.mp last
          exact fun same => new (same ▸ List.mem_map_of_mem mem)
      obtain ⟨log', h, told, rest⟩ := ih (fun f' mem => at_ f' (List.mem_cons_of_mem _ mem)) apart
        _ m n (spares.next here stride) apart' tail
      exact ⟨log', h, by simpa using told, rest⟩

end Spares

section Again
variable {cx : Setting} {log : Log} {g h g' h' : Graph} {f : Found} {fate : Fate}

theorem visitOperationOf (visited : Visited cx f g g') : visitOperation cx f g = .ok (⟨⟩, g') := by
  cases visited with
  | omitted out same =>
    simp only [visitOperation, out, if_true, runPure]
    exact ⟨trivial, same⟩
  | dropped kept grouped taken =>
    simp only [visitOperation, kept, Bool.false_eq_true, if_false, runBind, runGet]
    refine ⟨_, _, grouped, _, _, ⟨rfl, rfl⟩, ?_⟩
    simp only [taken, if_true, runPure, and_self]
  | @made api m result m' kept grouped free node listed =>
    simp only [visitOperation, kept, Bool.false_eq_true, if_false, runBind, runGet]
    refine ⟨_, _, grouped, _, _, ⟨rfl, rfl⟩, ?_⟩
    simp only [free, Bool.false_eq_true, if_false, runBind]
    refine ⟨_, _, node, ?_⟩
    cases result <;> exact runModify.mpr listed

theorem Stride.second (stride : Stride cx f g h fate g' h') (spared : fate ≠ .reported) :
    visitOperation cx f h = .ok (⟨⟩, h') := by
  cases stride with
  | omitted out => exact visitOperationOf (.omitted out rfl)
  | dropped kept _ grouped _ taken => exact visitOperationOf (.dropped kept grouped taken)
  | built kept _ grouped _ free _ node => exact visitOperationOf (.made kept grouped free node rfl)
  | reported => exact absurd rfl spared

theorem Runs.snoc {α β : Type} {f : α → Walk β} {xs : List α} {ys : List β} {x : α} {y : β}
    (runs : Runs f xs g ys g') (last : f x g' = .ok (y, h)) : Runs f (xs ++ [x]) g (ys ++ [y]) h := by
  induction runs with
  | nil => exact .cons last (.nil h)
  | cons head _ ih => exact .cons head (ih last)

theorem Spares.again (spares : Spares cx log g h) {ids : List String}
    (told : ∀ e ∈ log, e.1.id ∈ ids ↔ cx.config.isOmitted e.1.id = true ∨ e.2 = .reported) :
    ∃ us, Runs (visitOperation (cx.omitting ids)) (log.map Prod.fst) .empty us h := by
  induction spares with
  | start => exact ⟨[], .nil _⟩
  | @next log g h f fate g' h' _ _ stride ih =>
    obtain ⟨us, runs⟩ := ih fun e mem => told e (List.mem_append_left _ mem)
    have here := told (f, fate) (by simp)
    have visits : visitOperation (cx.omitting ids) f h = .ok (⟨⟩, h') := by
      by_cases out : f.id ∈ ids
      · have same : h' = h := by
          rcases here.mp out with omitted | reported
          · cases stride with
            | omitted => rfl
            | reported => rfl
            | dropped kept => simp [omitted] at kept
            | built kept => simp [omitted] at kept
          · cases reported
            cases stride
            rfl
        exact visitOperationOf (.omitted (List.contains_iff_mem.mpr out) same)
      · have kept : cx.config.isOmitted f.id = false := by
          simpa using fun omitted => out (here.mpr (.inl omitted))
        have kept' : (cx.omitting ids).config.isOmitted f.id = false := by
          simpa [Setting.omitting, Config.isOmitted] using out
        rw [visitOperationOmitting cx ids kept kept']
        exact stride.second fun reported => out (here.mpr (.inr reported))
    exact ⟨us ++ [⟨⟩], by simpa using runs.snoc visits⟩

end Again
end ApiGraph.Build
