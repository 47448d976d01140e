import ApiGraph.Proofs.Pursuit

/-! What the operations that a build has reported leave behind. Building again without them gives
the same methods, each under its group; the groups that only they have named are gone, and so are
the types that only they have brought in. -/
namespace ApiGraph.Build
open Json Resolve ApiGraph.Graph Declaration

section Groups
variable {c : Config} {found found' : List Found} {log : Log}

theorem groupsRestated (restated : List.Forall₂ Restates found found') :
    groups c found' = groups c found := by
  unfold groups
  congr 1
  induction restated with
  | nil => rfl
  | @cons f f' found found' same _ ih =>
    have group : Operation.apiName f'.operation f'.pattern = Operation.apiName f.operation f.pattern :=
      same.group
    simp only [List.filter_cons, same.id]
    split <;> simp [ih, group]

theorem groupsTold (told : ∀ e ∈ log, e.2 = .omitted ↔ c.isOmitted e.1.id = true) :
    Entries.distinct (groupsNamed log) = groups c (log.map Prod.fst) := by
  unfold groups groupsNamed
  congr 1
  rw [List.filter_map, List.map_map]
  refine congrArg _ (List.filter_congr fun e mem => ?_)
  have kept := told e mem
  cases out : c.isOmitted e.1.id <;> simp_all

end Groups

theorem declaredOperations {fragments : List Value} {o : Pipeline.Options} {p : Pipeline.Prepared}
    {c : Config} {doc : Value} {n : Nat} {found : List Found}
    (prepared : Pipeline.prepare fragments o = .ok p) (lawful : p.doc.lawful = true)
    (declared : declare c p.doc = .ok (doc, n))
    (listed : operations p.doc = .ok found) : ∃ found', operations doc = .ok found' ∧
      List.Forall₂ Restates found found' ∧ (found'.map Found.place).Nodup ∧
      ∀ f ∈ found', Tree.get? f.place doc = some f.operation := by
  have plain := PathItems.preparePlain prepared
  have lawful' := declareLawful lawful declared
  obtain ⟨found', operations, restated⟩ := PathItems.declareRestates lawful plain declared
  rw [PathItems.operationsPlain lawful plain] at listed
  cases listed
  refine ⟨found', operations, restated, ?_, fun f mem => operationAt operations mem⟩
  rw [PathItems.operationsPlain lawful' (PathItems.declarePlain lawful plain declared)] at operations
  cases operations
  exact PathItems.operationsApart lawful'

/- A build as two walks over its operations, the second of which leaves out the reported ones. -/
structure Beside (cx : Setting) (log : Log) (m h g : Graph) : Prop where
  spares : Spares cx log m h
  models : (modelPlaces cx).forM (Hydrate.registerAt cx) m = .ok (⟨⟩, g)
  mirrored : Mirrored cx.doc g.schemas

theorem walkBeside {cx : Setting} {g : Graph} {found : List Found} (lawful : cx.doc.lawful = true)
    (operations : Declaration.operations cx.doc = .ok found)
    (at_ : ∀ f ∈ found, Tree.get? f.place cx.doc = some f.operation)
    (apart : (found.map Found.place).Nodup) (walked : walk cx .empty = .ok (⟨⟩, g)) :
    ∃ log m h, log.map Prod.fst = found ∧ Beside cx log m h g := by
  obtain ⟨m, us, runs, models⟩ := (walkParts operations).mp walked
  obtain ⟨log, h, told, spares⟩ := Spares.run lawful at_ apart runs
  have builds : Builds .whole cx .all .empty g := (spares.left lawful).builds.trans
    ((Builds.schemas lawful (modelsTravel cx _ _ _ models)).widen (.inr (.inr rfl)))
  exact ⟨log, m, h, told, spares, models, mirroredSchemas builds⟩

section Builds
variable {fragments : List Value} {o : Pipeline.Options} {p : Pipeline.Prepared} {c : Config}
  {doc : Value} {g : Graph} {found : List Found}

theorem builtGroups (prepared : Pipeline.prepare fragments o = .ok p) (lawful : p.doc.lawful = true)
    (built : build c p.doc = (doc, .ok g)) (listed : operations p.doc = .ok found) :
    g.apis.map Api.name = groups c found := by
  have lawful' := buildLawful lawful built
  obtain ⟨⟨n, declared⟩, made⟩ := buildSource built
  obtain ⟨found', operations, restated, apart, at_⟩ :=
    declaredOperations prepared lawful declared listed
  obtain ⟨cx, set, walked⟩ := graphOfSource made
  obtain ⟨request, accept, _, _, rfl⟩ := settingSource set
  obtain ⟨log, m, h, rfl, beside⟩ :=
    @walkBeside ⟨doc, c, request, accept⟩ g found' lawful' operations at_ apart walked
  have records := beside.spares.left lawful'
  obtain ⟨apis, _⟩ := modelsKeep lawful' beside.models
  rw [apis, records.names, groupsTold records.account.omitted, groupsRestated restated]

end Builds

theorem modelsOmitting (cx : Setting) (ids : List String) :
    (modelPlaces (cx.omitting ids)).forM (Hydrate.registerAt (cx.omitting ids)) =
      (modelPlaces cx).forM (Hydrate.registerAt cx) := by
  have same : Hydrate.registerAt (cx.omitting ids) = Hydrate.registerAt cx := by
    funext l
    simp only [Hydrate.registerAt, registerType, schemaAtOmitting]
  rw [same]
  rfl

def sparing (c : Config) (g : Graph) : Config :=
  { c with omittedOperationIds := c.omittedOperationIds ++ g.skipped.map Skipped.operationId }

theorem groupsSparing (c : Config) (g : Graph) (found : List Found) :
    groups (sparing c g) found ⊆ groups c found := by
  intro name mem
  unfold groups at mem ⊢
  rw [Preference.memDistinct] at mem ⊢
  refine List.map_subset _ (List.monotone_filter_right _ fun f kept => ?_).subset mem
  have kept' : f.id ∉ (sparing c g).omittedOperationIds := by
    simpa [Config.isOmitted] using kept
  simpa [Config.isOmitted] using fun out => kept' (List.mem_append_left _ out)

theorem graphSparing {c : Config} {doc : Value} {cx : Setting} {g h : Graph}
    (set : Setting.make doc c = .ok cx)
    (walked : walk (cx.omitting (sparing c g).omittedOperationIds) .empty = .ok (⟨⟩, h)) :
    graphOf (sparing c g) doc = .ok h := by
  obtain ⟨request, accept, compiled, compiled', rfl⟩ := settingSource set
  have set' : Setting.make doc (sparing c g) = .ok ⟨doc, sparing c g, request, accept⟩ := by
    have same : (sparing c g).requestPatterns = .ok request := compiled
    have same' : (sparing c g).acceptPatterns = .ok accept := compiled'
    simp [Setting.make, same, same', Except.mapError, bind, Except.bind]
  have run : walk ⟨doc, sparing c g, request, accept⟩ .empty = .ok (⟨⟩, h) := walked
  simp only [graphOf, set', bind, Except.bind, StateT.run, run]

theorem declareOther {c : Config} {doc doc' : Value} {n : Nat} {found : List Found}
    (listed : operations doc = .ok found) (declared : declare c doc = .ok (doc', n)) (c' : Config) :
    ∃ doc'' n', declare c' doc = .ok (doc'', n') ∧
      (groups c' found = groups c found → doc'' = doc') := by
  simp only [declare, listed, bind, Except.bind] at declared ⊢
  cases told : declaredTags doc with
  | error e => simp [told] at declared
  | ok tags =>
    simp only [told, Except.ok.injEq, Prod.mk.injEq] at declared
    refine ⟨_, _, rfl, fun same => ?_⟩
    rw [same]
    exact declared.1

section Second
variable {cx : Setting} {log : Log} {m h g : Graph}

theorem rosterKept {g g' : Graph} (apis : g'.apis = g.apis) (methods : g'.methods = g.methods) :
    roster g' = roster g := by
  have method : g'.method? = g.method? := by
    funext id
    rw [method?, method?, methods]
  simp only [roster, methodPlaces, apis, method]

namespace Beside

theorem reportedIds (lawful : cx.doc.lawful = true) (beside : Beside cx log m h g) :
    g.skipped.map Skipped.operationId = (log.of .reported).map Found.id := by
  have reports := (beside.spares.left lawful).account.reports
  rw [(modelsKeep lawful beside.models).2.2]
  simpa [Function.comp_def] using congrArg (List.map Prod.fst) reports

theorem leavesOut (lawful : cx.doc.lawful = true) (beside : Beside cx log m h g)
    (once : ((log.map Prod.fst).map Found.id).Nodup) : ∀ e ∈ log,
      e.1.id ∈ (sparing cx.config g).omittedOperationIds ↔
        cx.config.isOmitted e.1.id = true ∨ e.2 = .reported := by
  intro e mem
  rw [sparing, List.mem_append, beside.reportedIds lawful, Config.isOmitted, List.contains_iff_mem]
  refine or_congr_right ⟨fun told => ?_, fun reported => ?_⟩
  · obtain ⟨f, inside, same⟩ := List.mem_map.mp told
    rw [List.map_map] at once
    have one := List.inj_on_of_nodup_map once mem (Log.memOf.mp inside) same.symm
    exact congrArg Prod.snd one
  · exact List.mem_map_of_mem (Log.memOf.mpr (reported ▸ mem))

theorem second (lawful : cx.doc.lawful = true) (beside : Beside cx log m h g)
    (operations : Declaration.operations cx.doc = .ok (log.map Prod.fst))
    (once : ((log.map Prod.fst).map Found.id).Nodup) :
    ∃ h', walk (cx.omitting (sparing cx.config g).omittedOperationIds) .empty = .ok (⟨⟩, h') ∧
      (modelPlaces cx).forM (Hydrate.registerAt cx) h = .ok (⟨⟩, h') := by
  obtain ⟨us, runs⟩ := beside.spares.again (beside.leavesOut lawful once)
  have indexed := (beside.spares.left lawful).builds.grows.indexed emptyIndexed
  obtain ⟨h', models⟩ := modelsRepeat lawful indexed beside.mirrored beside.models h
  have again : Declaration.operations (cx.omitting (sparing cx.config g).omittedOperationIds).doc =
      .ok (log.map Prod.fst) := operations
  refine ⟨h', (walkParts again).mpr ⟨h, us, runs, ?_⟩, models⟩
  rw [modelsOmitting]
  exact models

theorem rosters (lawful : cx.doc.lawful = true) (beside : Beside cx log m h g) {h' : Graph}
    (models : (modelPlaces cx).forM (Hydrate.registerAt cx) h = .ok (⟨⟩, h')) :
    roster g = (groups cx.config (log.map Prod.fst)).map (fun name => (name, placesUnder log name)) ∧
      roster h' = (Entries.distinct (groupsNamed log.spared)).map
        (fun name => (name, placesUnder log name)) ∧ h'.skipped = [] := by
  have left := beside.spares.left lawful
  have right := beside.spares.right lawful
  obtain ⟨apis, methods, _⟩ := modelsKeep lawful beside.models
  obtain ⟨apis', methods', skipped⟩ := modelsKeep lawful models
  have reports := right.account.reports
  have none : log.spared.of .reported = [] := by simp [Log.of, Log.spared, List.filter_filter]
  rw [none, List.map_nil, List.map_eq_nil_iff] at reports
  refine ⟨?_, ?_, skipped.trans reports⟩
  · rw [rosterKept apis methods, left.roster, groupsTold left.account.omitted]
  · rw [rosterKept apis' methods', right.roster]
    simp only [placesUnder, builtSpared]

theorem sparedGroups (lawful : cx.doc.lawful = true) (beside : Beside cx log m h g)
    (once : ((log.map Prod.fst).map Found.id).Nodup) :
    Entries.distinct (groupsNamed log.spared) =
      groups (sparing cx.config g) (log.map Prod.fst) := by
  have omitted := (beside.spares.left lawful).account.omitted
  have out := beside.leavesOut lawful once
  unfold groups groupsNamed
  congr 1
  rw [Log.spared, List.filter_filter, List.filter_map, List.map_map]
  refine congrArg _ (List.filter_congr fun e mem => ?_)
  have told := out e mem
  rw [← omitted e mem, ← List.contains_iff_mem] at told
  change _ = !(sparing cx.config g).omittedOperationIds.contains e.1.id
  cases left : (sparing cx.config g).omittedOperationIds.contains e.1.id <;>
    simp only [left, true_iff, Bool.false_eq_true, false_iff, not_or] at told <;> simp [told]
  rcases told with fate | fate <;> simp [fate]

theorem sameTypes (lawful : cx.doc.lawful = true) (beside : Beside cx log m h g) {h' : Graph}
    (models : (modelPlaces cx).forM (Hydrate.registerAt cx) h = .ok (⟨⟩, h'))
    (apart : ((log.map Prod.fst).map Found.place).Nodup) (kinds : Hydrate.OneKind g)
    (traceless : Traceless cx (log.map Prod.fst)) : h'.outline.types = g.outline.types := by
  have more : ∀ {a b}, (modelPlaces cx).forM (Hydrate.registerAt cx) a = .ok (⟨⟩, b) →
      Builds .whole cx .all a b := fun run =>
    (Builds.schemas lawful (modelsTravel cx _ _ _ run)).widen (.inr (.inr rfl))
  have kinds' := kindsBefore (more beside.models).grows.edits kinds
  have pursues := beside.spares.pursues lawful kinds' apart traceless
  have trails := modelsTogether lawful _ _ _ _ _ _ pursues.trails beside.models models
  have first := (beside.spares.left lawful).builds.trans (more beside.models)
  have second := (beside.spares.right lawful).builds.trans (more models)
  exact typesTold (first.grows.edits.typed emptyTyped) (second.grows.edits.typed emptyTyped)
    (mirroredSchemas first) (mirroredSchemas second) trails.types

end Beside
end Second

/- In a build of the document the reported operations bring in no type, and no schema that a
reference leads to. -/
def NoTrace (c : Config) (doc : Value) : Prop :=
  ∃ cx found, Setting.make doc c = .ok cx ∧ operations doc = .ok found ∧ Traceless cx found

structure Spared (c : Config) (doc : Value) (found : List Found) (g g' : Graph) : Prop where
  silent : g'.skipped = []
  fewer : roster g' ⊆ roster g
  groups : roster g' = roster g ↔ groups (sparing c g) found = groups c found
  types : Hydrate.OneKind g → NoTrace c doc → g'.outline.types = g.outline.types

/- Building without what was reported: the same document and groups exactly if the groups of the
operations that are left are the same, and the same types unless the reported operations leave a
trace. -/
theorem buildWithoutReported {fragments : List Value} {o : Pipeline.Options} {p : Pipeline.Prepared}
    {c : Config} {doc : Value} {g : Graph} {found : List Found}
    (prepared : Pipeline.prepare fragments o = .ok p) (lawful : p.doc.lawful = true)
    (built : build c p.doc = (doc, .ok g)) (listed : operations p.doc = .ok found)
    (once : (found.map Found.id).Nodup) :
    (∀ doc' g', build (sparing c g) p.doc = (doc', .ok g') →
      (g'.apis.map Api.name = g.apis.map Api.name ↔
        groups (sparing c g) found = groups c found)) ∧
    (groups (sparing c g) found = groups c found → (build (sparing c g) p.doc).1 = doc) ∧
    ((build (sparing c g) p.doc).1 = doc →
      ∃ g', build (sparing c g) p.doc = (doc, .ok g') ∧ Spared c doc found g g') := by
  have lawful' := buildLawful lawful built
  obtain ⟨⟨n, declared⟩, made⟩ := buildSource built
  obtain ⟨doc', n', declared', unchanged⟩ := declareOther listed declared (sparing c g)
  have stated : (build (sparing c g) p.doc).1 = doc' := by
    simp only [build, declared']
  refine ⟨fun doc' g' built' => ?_, fun same => stated.trans (unchanged same),
    fun same => ?_⟩
  · rw [builtGroups prepared lawful built listed, builtGroups prepared lawful built' listed]
  obtain ⟨found', operations, restated, apart, at_⟩ :=
    declaredOperations prepared lawful declared listed
  obtain ⟨cx, set, walked⟩ := graphOfSource made
  obtain ⟨request, accept, _, _, rfl⟩ := settingSource set
  obtain ⟨log, m, h, rfl, beside⟩ :=
    @walkBeside ⟨doc, c, request, accept⟩ g found' lawful' operations at_ apart walked
  have ids : (log.map Prod.fst).map Found.id = found.map Found.id := by
    rw [← List.forall₂_eq_eq_eq, List.forall₂_map_left_iff, List.forall₂_map_right_iff]
    exact restated.flip.imp fun _ _ same => same.id
  have once' := ids ▸ once
  obtain ⟨h', walked', models⟩ := beside.second lawful' operations once'
  obtain ⟨roster₁, roster₂, skipped⟩ := beside.rosters lawful' models
  rw [groupsRestated restated] at roster₁
  rw [beside.sparedGroups lawful' once', groupsRestated restated] at roster₂
  cases stated.symm.trans same
  have second : build (sparing c g) p.doc = (doc, .ok h') := by
    simp only [build, declared', graphSparing set walked']
  refine ⟨h', second, skipped, ?_, ?_, fun kinds noTrace => ?_⟩
  · rw [roster₁, roster₂]
    exact List.map_subset _ (groupsSparing c g found)
  · rw [roster₁, roster₂]
    refine ⟨fun rosters => ?_, fun groups => by rw [groups]⟩
    simpa [Function.comp_def] using congrArg (List.map Prod.fst) rosters
  · obtain ⟨cx, found', again, listed', traceless⟩ := noTrace
    cases set.symm.trans again
    cases operations.symm.trans listed'
    exact beside.sameTypes lawful' models apart kinds traceless

def walkedPointers (cx : Setting) : List String :=
  cx.doc.pointers ++ (modelPlaces cx).map Location.toPointer

theorem referredTold {cx : Setting} {l : Location} (referred : Referred cx l) :
    ∃ p ∈ walkedPointers cx, Hydrate.target? cx.doc p = some l := by
  obtain ⟨v, place, r, met, named, resolved, rfl⟩ := referred
  obtain ⟨p, pointer⟩ := Option.ne_none_iff_exists'.mp named
  refine ⟨p, ?_, Hydrate.targetTold pointer resolved⟩
  rcases met with at_ | ⟨l, mem, rfl, _⟩
  · exact List.mem_append_left _ (Tree.refAt at_ pointer)
  · rw [referenceRef, Option.some.injEq] at pointer
    exact List.mem_append_right _ (pointer ▸ List.mem_map_of_mem mem)

theorem tracelessChecked {cx : Setting} {found : List Found}
    (checked : ∀ e ∈ leftovers cx found .empty, e.2 = false ∧
      ∀ p ∈ walkedPointers cx, Hydrate.target? cx.doc p ≠ some e.1) : Traceless cx found := by
  intro e mem
  obtain ⟨isType, apart⟩ := checked e mem
  refine ⟨isType, fun referred => ?_⟩
  obtain ⟨p, walked, target⟩ := referredTold referred
  exact apart p walked target

def mixedDocument : Value :=
  let operation (id : String) (more : Members) : Value :=
    .obj ([("tags", .arr [.str "notes"]), ("operationId", .str id)] ++ more)
  let text : Value := .obj [("schema", .obj [("type", .str "string")])]
  .obj [
    ("paths", .obj [("/notes", .obj [
      ("post", operation "addNote" [
        ("requestBody", .obj [("content", .obj [("x/y", text)])]), ("responses", .obj [])]),
      ("get", operation "getNotes" [("responses", .obj [("200", .obj [("content", .obj [
        ("application/json", .obj [("schema",
          .obj [("$ref", .str "#/components/schemas/Note")])])])])])])])]),
    ("components", .obj [("schemas", .obj [("Note", .obj [
      ("type", .str "string"), ("title", .str "Note")])])]),
    ("tags", .arr [.obj [("name", .str "notes")]])]

theorem mixedWithoutReported : ∃ g g',
    Pipeline.prepare [mixedDocument] bareOptions = .ok ⟨mixedDocument, none⟩ ∧
    build Config.default mixedDocument = (mixedDocument, .ok g) ∧
    g.skipped.map Skipped.operationId = ["addNote"] ∧
    build (sparing Config.default g) mixedDocument = (mixedDocument, .ok g') ∧
    g'.apis.map Api.name = g.apis.map Api.name ∧ roster g' = roster g ∧
    g'.outline.types = g.outline.types ∧ g.outline.types.length = 1 := by
  have prepared : Pipeline.prepare [mixedDocument] bareOptions = .ok ⟨mixedDocument, none⟩ := by rfl
  have told : Declaration.declare Config.default mixedDocument = .ok (mixedDocument, 0) := by rfl
  have lawful : mixedDocument.lawful = true := by decide +kernel
  obtain ⟨g, walked, skipped, types, kinds⟩ : ∃ g, graphOf Config.default mixedDocument = .ok g ∧
      g.skipped.map Skipped.operationId = ["addNote"] ∧ g.outline.types.length = 1 ∧
      ∀ a ∈ g.placed, ∀ b ∈ g.placed, a.1 = b.1 → a.2 = b.2 := by decide +kernel
  obtain ⟨found, listed, once, named⟩ : ∃ found, operations mixedDocument = .ok found ∧
      (found.map Found.id).Nodup ∧
      groups { Config.default with omittedOperationIds := ["addNote"] } found =
        groups Config.default found := by decide +kernel
  obtain ⟨cx, set, left⟩ : ∃ cx, Setting.make mixedDocument Config.default = .ok cx ∧
      ∃ found, operations mixedDocument = .ok found ∧ ∀ e ∈ leftovers cx found .empty,
        e.2 = false ∧ ∀ p ∈ walkedPointers cx, Hydrate.target? cx.doc p ≠ some e.1 := by
    decide +kernel
  obtain ⟨found', listed', checked⟩ := left
  have noTrace : NoTrace Config.default mixedDocument :=
    ⟨cx, found', set, listed', tracelessChecked checked⟩
  have built : build Config.default mixedDocument = (mixedDocument, .ok g) := by
    simp [build, told, walked]
  have same : groups (sparing Config.default g) found = groups Config.default found := by
    rw [sparing, skipped]
    exact named
  obtain ⟨names, unchanged, second⟩ :=
    buildWithoutReported prepared lawful built listed once
  obtain ⟨g', built', spared⟩ := second (unchanged same)
  exact ⟨g, g', prepared, built, skipped, built', (names _ _ built').mpr same,
    spared.groups.mpr same, spared.types (Hydrate.placedKinds kinds) noTrace, types⟩

def strayDocument : Value := .obj [
  ("paths", .obj [("/drafts", .obj [("post", .obj [
    ("tags", .arr [.str "drafts"]), ("operationId", .str "addDraft"),
    ("parameters", .arr [.obj [("name", .str "view"), ("in", .str "query"),
      ("schema", .obj [("$ref", .str "#/components/schemas/View")])]]),
    ("requestBody", .obj [("content", .obj [("x/y", .obj [])])]), ("responses", .obj [])])])]),
  ("components", .obj [("schemas", .obj [("View", .obj [
    ("type", .str "string"), ("title", .str "View")])])]),
  ("tags", .arr [.obj [("name", .str "drafts")]])]

/- An operation that is reported leaves its group and its type behind. -/
theorem strayLeft : ∃ found g g',
    Pipeline.prepare [strayDocument] bareOptions = .ok ⟨strayDocument, none⟩ ∧
    operations strayDocument = .ok found ∧ (found.map Found.id).Nodup ∧
    build Config.default strayDocument = (strayDocument, .ok g) ∧
    g.skipped.map Skipped.operationId = ["addDraft"] ∧
    build (sparing Config.default g) strayDocument = (strayDocument, .ok g') ∧
    roster g = [("drafts", [])] ∧ roster g' = [] ∧
    g.outline.types.map TypeOutline.location = [⟨["components", "schemas", "View"]⟩] ∧
    g'.outline.types = [] := by
  let without : Config := { Config.default with omittedOperationIds := ["addDraft"] }
  have told : Declaration.declare Config.default strayDocument = .ok (strayDocument, 0) := by rfl
  have told' : Declaration.declare without strayDocument = .ok (strayDocument, 0) := by rfl
  obtain ⟨found, listed, once⟩ : ∃ found, operations strayDocument = .ok found ∧
      (found.map Found.id).Nodup := by decide +kernel
  obtain ⟨g, walked, skipped, lists, types⟩ : ∃ g, graphOf Config.default strayDocument = .ok g ∧
      g.skipped.map Skipped.operationId = ["addDraft"] ∧ roster g = [("drafts", [])] ∧
      g.outline.types.map TypeOutline.location = [⟨["components", "schemas", "View"]⟩] := by
    decide +kernel
  obtain ⟨g', walked', lists', types'⟩ : ∃ g', graphOf without strayDocument = .ok g' ∧
      roster g' = [] ∧ g'.outline.types.map TypeOutline.location = [] := by decide +kernel
  have same : sparing Config.default g = without := by
    rw [sparing, skipped]
    rfl
  exact ⟨found, g, g', by rfl, listed, once, by simp [build, told, walked], skipped,
    by simp [build, same, told', walked'], lists, lists', types, List.map_eq_nil_iff.mp types'⟩

end ApiGraph.Build
