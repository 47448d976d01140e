import ApiGraph.Proofs.OperationWalk

/-! What is true of a graph once it is built. Its schemas mirror the document it was built from, and
neither a body nor a response lists two schemas that match. The document that it is built of is assumed
lawful, as every document in memory is. -/
namespace ApiGraph.Build
open Json Resolve ApiGraph.Graph

theorem builtSchemas {c : Config} {doc doc' : Value} {g : Graph} (lawful : doc.lawful = true)
    (built : build c doc = (doc', .ok g)) {s : Schema} (mem : s ∈ g.schemas) :
    ∃ v, Mirrors doc' g.schemas s v := by
  obtain ⟨cx, found, made, _, builds, _⟩ :=
    graphOfBuilds (buildLawful lawful built) (buildSource built).2
  obtain ⟨_, _, _, _, rfl⟩ := settingSource made
  obtain ⟨i, at_⟩ := List.getElem?_of_mem mem
  exact builds.grows.schemas.fresh emptyIndexed i s (Nat.zero_le _) at_

/- No node of a built graph is still to be filled, not even in a document whose schemas contain one
another or in an operation that was given up midway. -/
theorem schemasMirrorDocument {c : Config} {doc doc' : Value} {g : Graph}
    (lawful : doc.lawful = true) (built : build c doc = (doc', .ok g)) :
    ∀ s ∈ g.schemas, ∃ v, Mirrors doc' g.schemas s v :=
  fun _ mem => builtSchemas lawful built mem

def treeDocument : Value := .obj [("components", .obj [("schemas", .obj [("Tree", .obj [
  ("type", .str "object"),
  ("properties", .obj [
    ("left", .obj [("$ref", .str "#/components/schemas/Tree")]),
    ("leaf", .obj [("type", .str "string")])])])])])]

def everyModel : Config := { Config.default with allModels := true }

theorem treeMirrored : ∃ g, build everyModel treeDocument = (treeDocument, .ok g) ∧
    g.schemas.length = 2 ∧ ∀ s ∈ g.schemas, ∃ v, Mirrors treeDocument g.schemas s v := by
  have told : Declaration.declare everyModel treeDocument = .ok (treeDocument, 0) := by rfl
  have two : (graphOf everyModel treeDocument).toOption.map (·.schemas.length) = some 2 := by
    decide +kernel
  cases walked : graphOf everyModel treeDocument with
  | error e => simp [walked, Except.toOption] at two
  | ok g =>
    have built : build everyModel treeDocument = (treeDocument, .ok g) := by
      simp [build, told, walked]
    exact ⟨g, built, by simpa [walked, Except.toOption] using two,
      schemasMirrorDocument (by decide +kernel) built⟩

/- The schemas that a body lists under its media types `content`, each class of matching ones once
and where the preferred media type that has it puts it. -/
structure DistinctBody (doc : Value) (g : Graph) (b : RequestBody) (content : Members) : Prop where
  apart : (b.schemas.flatMap Prod.snd).Pairwise fun x y => g.schemasMatch doc x y = false
  ordered : (Entries.keys b.schemas).Sublist b.preferred
  listed : ∀ m ∈ b.preferred, ∀ v, declaredSchema content m = some v →
    ∃ id, StandsFor doc g.schemas v (schemaPlace b.location m) id
  once : ∀ m ∈ b.preferred, ∀ v id, declaredSchema content m = some v →
    StandsFor doc g.schemas v (schemaPlace b.location m) id →
    (b.schemas.flatMap Prod.snd).countP (g.schemasMatch doc · id) = 1
  foremost : ∀ m ids id, (m, ids) ∈ b.schemas → id ∈ ids → ∃ before after,
    b.preferred = before ++ m :: after ∧
    (∃ v, declaredSchema content m = some v ∧
      StandsFor doc g.schemas v (schemaPlace b.location m) id) ∧
    ∀ m' ∈ before, ∀ v' id', declaredSchema content m' = some v' →
      StandsFor doc g.schemas v' (schemaPlace b.location m') id' →
      g.schemasMatch doc id' id = false

def AcceptedSchema (doc : Value) (accept : List MediaPattern) (l : Location) (code : ResponseCode)
    (v : Value) (place : Location) : Prop :=
  ∃ raw r m, Tree.get? (l.child code.code) doc = some raw ∧ Resolve.resolve doc raw = .ok r ∧
    m ∈ Preference.mediaTypes accept (Entries.keys (contentOf r.value)) ∧
    declaredSchema (contentOf r.value) m = some v ∧
    place = schemaPlace (r.locationOr (l.child code.code)) m

structure DistinctResponse (doc : Value) (accept : List MediaPattern) (g : Graph) (r : Response) :
    Prop where
  apart : r.schemas.Pairwise fun x y => g.schemasMatch doc x y = false
  listed : ∀ code ∈ r.preferred, ∀ v place, AcceptedSchema doc accept r.location code v place →
    ∃ id, StandsFor doc g.schemas v place id
  once : ∀ code ∈ r.preferred, ∀ v place id, AcceptedSchema doc accept r.location code v place →
    StandsFor doc g.schemas v place id → r.schemas.countP (g.schemasMatch doc · id) = 1
  only : ∀ id ∈ r.schemas, ∃ code ∈ r.preferred, ∃ v place,
    AcceptedSchema doc accept r.location code v place ∧ StandsFor doc g.schemas v place id

theorem namedKeys (found : String → Option SchemaId) (ms : List String) :
    ((named found ms).map Prod.fst).Sublist ms := by
  have first : ∀ m (e : String × SchemaId), (found m).map (m, ·) = some e → e.1 = id m := by
    intro m e made
    obtain ⟨_, _, rfl⟩ := Option.map_eq_some_iff.mp made
    rfl
  have left := Entries.leftSublist first ms
  rw [List.map_id] at left
  exact left

theorem namedSplit {found : String → Option SchemaId} {ms : List String} {e : String × SchemaId}
    {before after : List (String × SchemaId)} (split : named found ms = before ++ e :: after) :
    ∃ ms₁ ms₂, ms = ms₁ ++ e.1 :: ms₂ ∧ named found ms₁ = before ∧ found e.1 = some e.2 := by
  obtain ⟨l, l', rfl, head, rest⟩ := List.filterMap_eq_append_iff.mp split
  obtain ⟨k, m, k', rfl, bare, made, _⟩ := List.filterMap_eq_cons_iff.mp rest
  obtain ⟨id, held, rfl⟩ := Option.map_eq_some_iff.mp made
  refine ⟨l ++ k, k', by simp, ?_, held⟩
  rw [named, List.filterMap_append, head, List.filterMap_eq_nil_iff.mpr bare, List.append_nil]

section Distinct
variable {cx : Setting} {g : Graph}

theorem placedMatch (lawful : cx.doc.lawful = true)
    (mirrored : ∀ s ∈ g.schemas, ∃ v, Mirrors cx.doc g.schemas s v) {a b : SchemaId} {s t : Schema}
    (found : g.schema? a = some s) (found' : g.schema? b = some t)
    (same : s.location = t.location) : g.schemasMatch cx.doc a b = true := by
  obtain ⟨x, mirror⟩ := mirrored s (List.mem_of_getElem? found)
  obtain ⟨y, mirror'⟩ := mirrored t (List.mem_of_getElem? found')
  have at_ := mirror.located
  have at' := mirror'.located
  rw [← same, at_] at at'
  cases at'
  obtain ⟨k, told, base, format, _⟩ := mirror.classified
  obtain ⟨k', told', base', format', _⟩ := mirror'.classified
  rw [← same, told] at told'
  cases told'
  refine schemasMatchIff.mpr (.inr ⟨s, t, x, x, found, found', base.trans base'.symm,
    format.trans format'.symm, at_, same ▸ at_, ?_⟩)
  exact agreeRefl x (Tree.lawfulAt lawful at_)

theorem standInsMatch (lawful : cx.doc.lawful = true)
    (mirrored : ∀ s ∈ g.schemas, ∃ v, Mirrors cx.doc g.schemas s v) {v : Value} {place : Location}
    {a b : SchemaId} (ha : StandsFor cx.doc g.schemas v place a)
    (hb : StandsFor cx.doc g.schemas v place b) : g.schemasMatch cx.doc a b = true := by
  obtain ⟨r, s, resolved, found, placed⟩ := ha
  obtain ⟨r', t, resolved', found', placed'⟩ := hb
  cases resolved.symm.trans resolved'
  exact placedMatch lawful mirrored found found' (placed.trans placed'.symm)

theorem filedDistinct (lawful : cx.doc.lawful = true)
    (mirrored : ∀ s ∈ g.schemas, ∃ v, Mirrors cx.doc g.schemas s v) {b : RequestBody}
    {content : Members} (filed : Files cx g b content) : DistinctBody cx.doc g b content := by
  obtain ⟨_, found, kept, mirrors, picks, same⟩ := filed
  have classes := schemasMatchClasses g lawful
  have classes' : Equivalence fun a b : String × SchemaId =>
      g.schemasMatch cx.doc a.2 b.2 = true :=
    ⟨fun _ => classes.refl _, classes.symm, classes.trans⟩
  have flat : b.schemas.flatMap Prod.snd = kept.map Prod.snd := by
    rw [same, List.flatMap_map, List.map_eq_flatMap]
  -- a media type leads to the node found for it, and to no other class
  have finds : ∀ m v id, declaredSchema content m = some v →
      StandsFor cx.doc g.schemas v (schemaPlace b.location m) id →
      ∃ id', found m = some id' ∧ g.schemasMatch cx.doc id' id = true := by
    intro m v id declared stands
    have mirror := mirrors m
    rw [declared] at mirror
    cases held : found m with
    | none => simp [held, MirrorsOption] at mirror
    | some id' =>
      rw [held] at mirror
      exact ⟨id', rfl, standInsMatch lawful mirrored mirror stands⟩
  exact {
    apart := by
      rw [flat]
      exact List.pairwise_map.mpr picks.apart
    ordered := by
      have keys : Entries.keys b.schemas = kept.map Prod.fst := by
        simp [same, Entries.keys, Function.comp_def]
      rw [keys]
      exact (picks.ordered.map Prod.fst).trans (namedKeys found _)
    listed := by
      intro m mem v declared
      have mirror := mirrors m
      rw [declared] at mirror
      cases held : found m with
      | none => simp [held, MirrorsOption] at mirror
      | some id => exact ⟨id, by simpa [held, MirrorsOption] using mirror⟩
    once := by
      intro m mem v id declared stands
      obtain ⟨id', held, matching⟩ := finds m v id declared stands
      have inside : (m, id') ∈ named found b.preferred :=
        List.mem_filterMap.mpr ⟨m, mem, by simp [held]⟩
      have one := picks.oneMatch classes' inside
      rw [flat, List.countP_map, ← one]
      refine List.countP_congr fun e _ => ⟨fun related => ?_, fun related => ?_⟩
      · exact classes.trans related (classes.symm matching)
      · exact classes.trans related matching
    foremost := by
      intro m ids id mem inside
      rw [same] at mem
      obtain ⟨e, held, made⟩ := List.mem_map.mp mem
      cases made
      cases List.mem_singleton.mp inside
      obtain ⟨before, after, split, apart⟩ := picks.first e held
      obtain ⟨ms, ms', whole, head, found'⟩ := namedSplit split
      refine ⟨ms, ms', whole, ?_, fun m' mem' v' id' declared stands => ?_⟩
      · obtain ⟨v, _, declared, stands, _⟩ := mirroredNode (found' ▸ mirrors e.1)
        exact ⟨v, declared, stands⟩
      · obtain ⟨id'', held', matching⟩ := finds m' v' id' declared stands
        have earlier : (m', id'') ∈ before :=
          head ▸ List.mem_filterMap.mpr ⟨m', mem', by simp [held']⟩
        refine Bool.eq_false_iff.mpr fun related => ?_
        have := apart _ earlier
        rw [classes.trans matching related] at this
        contradiction }

def typedMedia (accept : List MediaPattern) (content : Members) : List String :=
  (Preference.mediaTypes accept (Entries.keys content)).filter fun m =>
    (declaredSchema content m).isSome

theorem mediaTold {code : ResponseCode} {v : Value} (ranked : code.media = mediaOf cx v) :
    code.mediaTypes = typedMedia cx.acceptPatterns (contentOf v) ∧
      (code.media = .any ↔ code.mediaTypes = [] ∧
        (Preference.mediaTypes cx.acceptPatterns (Entries.keys (contentOf v)) ≠ [] ∨
          Entries.has "*/*" (contentOf v) = true)) := by
  rw [ResponseCode.mediaTypes, ranked]
  cases held : v.membersAt? "content" with
  | none =>
    have void : Preference.mediaTypes cx.acceptPatterns [] = [] := rfl
    simp [mediaOf, held, contentOf, typedMedia, void, Entries.keys, Entries.has]
  | some content =>
    have same : contentOf v = content := by simp [contentOf, held]
    simp only [mediaOf, held, same, typedMedia, declaredSchema]
    generalize Preference.mediaTypes cx.acceptPatterns (Entries.keys content) = acceptable
    generalize acceptable.filter (fun m =>
      ((content.lookup m).bind (·.get? "schema")).isSome) = typed
    cases typed with
    | cons m ms => simp
    | nil => cases acceptable <;> cases Entries.has "*/*" content <;> simp

theorem memMediaOf {code : ResponseCode} {v : Value} (ranked : code.media = mediaOf cx v)
    {m : String} :
    m ∈ code.mediaTypes ↔ m ∈ Preference.mediaTypes cx.acceptPatterns (Entries.keys (contentOf v)) ∧
      ∃ x, declaredSchema (contentOf v) m = some x := by
  rw [(mediaTold ranked).1, typedMedia, List.mem_filter, Option.isSome_iff_exists]

theorem settledDistinct (lawful : cx.doc.lawful = true)
    (mirrored : ∀ s ∈ g.schemas, ∃ v, Mirrors cx.doc g.schemas s v) {r : Response}
    (settled : SettledResponse cx g r) : DistinctResponse cx.doc cx.acceptPatterns g r := by
  obtain ⟨codes, ids, picks, asked, met⟩ := settled
  have classes := schemasMatchClasses g lawful
  have demands : ∀ code ∈ r.preferred, ∀ v place,
      Demands cx r.location code v place ↔
        AcceptedSchema cx.doc cx.acceptPatterns r.location code v place := by
    intro code mem v place
    obtain ⟨raw, res, at_, resolved, ranked⟩ := codes code mem
    constructor
    · rintro ⟨raw', res', m, at', resolved', inside, declared, same⟩
      cases at_.symm.trans at'
      cases resolved.symm.trans resolved'
      exact ⟨raw, res, m, at_, resolved, ((memMediaOf ranked).mp inside).1, declared, same⟩
    · rintro ⟨raw', res', m, at', resolved', inside, declared, same⟩
      cases at_.symm.trans at'
      cases resolved.symm.trans resolved'
      exact ⟨raw, res, m, at_, resolved, (memMediaOf ranked).mpr ⟨inside, v, declared⟩, declared,
        same⟩
  exact {
    apart := picks.apart
    listed := fun code mem v place accepted => by
      obtain ⟨id, _, stands⟩ := met v place ⟨code, mem, (demands code mem v place).mpr accepted⟩
      exact ⟨id, stands⟩
    once := fun code mem v place id accepted stands => by
      obtain ⟨id', inside, stands'⟩ := met v place
        ⟨code, mem, (demands code mem v place).mpr accepted⟩
      have matching := standInsMatch lawful mirrored stands' stands
      rw [← picks.oneMatch classes inside]
      refine List.countP_congr fun e _ => ⟨fun related => ?_, fun related => ?_⟩
      · exact classes.trans related (classes.symm matching)
      · exact classes.trans related matching
    only := fun id mem => by
      obtain ⟨v, place, ⟨code, inside, demanded⟩, stands⟩ := asked id (picks.ordered.subset mem)
      exact ⟨code, inside, v, place, (demands code inside v place).mp demanded, stands⟩ }

end Distinct

/- No two schemas of one body or one response match, and every one that it may carry has a match. -/
theorem schemasListedOnce {c : Config} {doc doc' : Value} {g : Graph}
    (lawful : doc.lawful = true) (built : build c doc = (doc', .ok g)) :
    ∃ request accept, c.requestPatterns = .ok request ∧ c.acceptPatterns = .ok accept ∧
      (∀ b ∈ g.bodies, ∃ v, Tree.get? b.location doc' = some v ∧
        b.preferred = Preference.mediaTypes request (Entries.keys (contentOf v)) ∧
        DistinctBody doc' g b (contentOf v)) ∧
      ∀ r ∈ g.responses, DistinctResponse doc' accept g r := by
  have mirrored := fun s (mem : s ∈ g.schemas) => builtSchemas lawful built mem
  have lawful' := buildLawful lawful built
  obtain ⟨cx, found, made, _, builds, _⟩ := graphOfBuilds lawful' (buildSource built).2
  obtain ⟨request, accept, compiled, compiled', rfl⟩ := settingSource made
  refine ⟨request, accept, compiled, compiled', fun b mem => ?_, fun r mem => ?_⟩
  · obtain ⟨i, at_⟩ := List.getElem?_of_mem mem
    obtain ⟨_, ⟨v, at', files⟩, _⟩ := builds.bodies.fresh emptyIndexed i b (Nat.zero_le _) at_
    exact ⟨v, at', files.ranked, filedDistinct lawful' mirrored files⟩
  · obtain ⟨i, at_⟩ := List.getElem?_of_mem mem
    obtain ⟨_, settled, _⟩ := builds.responses.fresh emptyIndexed i r (Nat.zero_le _) at_
    exact settledDistinct lawful' mirrored settled

def noteDocument : Value :=
  let media : Value := .obj [("schema", .obj [("type", .str "string")])]
  let content : Value := .obj [("application/json", media), ("text/plain", media)]
  .obj [
    ("tags", .arr [.obj [("name", .str "notes")]]),
    ("paths", .obj [("/notes", .obj [("post", .obj [
      ("tags", .arr [.str "notes"]), ("operationId", .str "addNote"),
      ("requestBody", .obj [("content", content)]),
      ("responses", .obj [("200", .obj [("content", content)])])])])])]

theorem noteListedOnce : ∃ g accept, build Config.default noteDocument = (noteDocument, .ok g) ∧
    g.bodies.map (·.schemas) = [[("text/plain", [⟨1⟩])]] ∧
    g.responses.map (·.schemas) = [[⟨2⟩]] ∧
    (∀ b ∈ g.bodies, ∃ v, DistinctBody noteDocument g b (contentOf v)) ∧
    ∀ r ∈ g.responses, DistinctResponse noteDocument accept g r := by
  have told : Declaration.declare Config.default noteDocument = .ok (noteDocument, 0) := by rfl
  have lists : (graphOf Config.default noteDocument).toOption.map
      (fun g => (g.bodies.map (·.schemas), g.responses.map (·.schemas))) =
      some ([[("text/plain", [⟨1⟩])]], [[⟨2⟩]]) := by decide +kernel
  cases walked : graphOf Config.default noteDocument with
  | error e => simp [walked, Except.toOption] at lists
  | ok g =>
    have built : build Config.default noteDocument = (noteDocument, .ok g) := by
      simp [build, told, walked]
    simp only [walked, Except.toOption, Option.map_some, Option.some.injEq, Prod.mk.injEq] at lists
    obtain ⟨_, accept, _, _, bodies, responses⟩ :=
      schemasListedOnce (by decide +kernel) built
    refine ⟨g, accept, built, lists.1, lists.2, fun b mem => ?_, responses⟩
    obtain ⟨v, _, _, distinct⟩ := bodies b mem
    exact ⟨v, distinct⟩

end ApiGraph.Build
