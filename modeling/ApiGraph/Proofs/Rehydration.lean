import ApiGraph.Proofs.Quiet

/-! Reading an outline back. Hydration walks the types first and the methods after them, group by
group, so it may meet a schema by reference that the build had met in place. -/
namespace ApiGraph.Hydrate
open Json Build ApiGraph.Graph Resolve

def Reproduces (c : Config) (doc : Value) (g : Graph) : Prop :=
  ∃ h, hydrate c doc g.outline = .ok h ∧ h.outline = g.outline

def PlainOperations (doc : Value) (g : Graph) : Prop :=
  ∀ o ∈ g.outline.apis, ∀ m ∈ o.methods,
    ∃ v, Tree.get? m.location doc = some v ∧ refOf v = none

section Exact
variable {c : Config} {cx : Setting} {doc : Value} {g h : Graph}

theorem hydrateWalks (made : Setting.make doc c = .ok cx) {o : Outline} :
    hydrate c doc o = .ok h ↔ hydrateWalk cx o .empty = .ok (⟨⟩, h) := by
  simp only [hydrate, made, bind, Except.bind, StateT.run]
  cases hydrateWalk cx o .empty with
  | error e => simp
  | ok result => simp [Prod.ext_iff]

theorem hydratedLands {o : Outline} {u : PUnit} (run : hydrateWalk cx o .empty = .ok (u, h)) :
    ∀ a ∈ o.apis, ∀ m ∈ a.methods, Lands cx.doc m := by
  obtain ⟨_, _, apis⟩ := (hydrateWalkParts cx o).mp run
  obtain ⟨_, runs⟩ := runForM.mp apis
  intro a mem m listed
  obtain ⟨_, _, _, one⟩ := runs.each mem
  simp only [hydrateApi, runBind] at one
  obtain ⟨_, _, _, methods⟩ := one
  obtain ⟨_, runs⟩ := runForM.mp methods
  obtain ⟨_, _, _, one⟩ := runs.each listed
  simp only [hydrateMethod, security, runBind, runResolveAt, runLift, mapErrorOk] at one
  obtain ⟨_, _, ⟨⟨v, l⟩, _, ⟨found, _⟩, _, _, _, _, _, _, s, _, ⟨extracted, _⟩, _⟩, _⟩ := one
  have there : landing cx.doc m = l := by simp [landing, found]
  exact ⟨v, s, there ▸ found, there ▸ extracted⟩

theorem plainLands (readable : ReadableApis cx g g.outline.apis)
    (plain : PlainOperations cx.doc g) {o : ApiOutline} (mem : o ∈ g.outline.apis)
    {m : MethodOutline} (listed : m ∈ o.methods) :
    landing cx.doc m = m.location ∧ Lands cx.doc m := by
  obtain ⟨v, at_, bare⟩ := plain o mem m listed
  have found := resolveAtFinal at_ bare
  have there : landing cx.doc m = m.location := by simp [landing, found]
  obtain ⟨s, extracted⟩ := ((readable.each o mem).methods m listed).secured
  refine ⟨there, v, s, ?_, ?_⟩
  · rw [there]
    exact found
  · rw [there]
    exact extracted

theorem hydratesTold (fin : Finished cx g)
    (lands : ∀ o ∈ g.outline.apis, ∀ m ∈ o.methods, Lands cx.doc m) :
    ∃ h, hydrateWalk cx g.outline .empty = .ok (⟨⟩, h) ∧ Builds .whole cx .all .empty h ∧
      h.outline.apis.map ApiOutline.unnamed = g.outline.apis.map fun o =>
        ApiOutline.unnamed { o with methods := o.methods.map (landed cx.doc) } := by
  have registers : Succeeds (fun _ => True) (g.typePlaces.forM (registerAt cx)) :=
    Succeeds.forM fun l mem => (fin.registerSucceeds mem).bind fun _ => Succeeds.pure _
  obtain ⟨_, m, types, _⟩ := registers .empty trivial
  obtain ⟨h, run, _, builds, told⟩ := outlineReads fin (anyKept fin.lawful fin.mirrored) lands
    (fun _ _ => trivial) (fun _ _ _ _ => ⟨trivial, fun _ _ => trivial, fun _ _ _ _ => trivial, trivial⟩) types trivial
  exact ⟨h, run, builds, told⟩

theorem landedPlain (readable : ReadableApis cx g g.outline.apis)
    (plain : PlainOperations cx.doc g) :
    (g.outline.apis.map fun o =>
      ApiOutline.unnamed { o with methods := o.methods.map (landed cx.doc) }) =
      g.outline.apis.map ApiOutline.unnamed := by
  refine List.map_congr_left fun o mem => ?_
  have same : o.methods.map (landed cx.doc) = o.methods := by
    refine (List.map_congr_left fun m listed => ?_).trans (List.map_id _)
    have there := (plainLands readable plain mem listed).1
    cases m
    simp [landed, there]
  rw [same]

theorem landsPlain {m : MethodOutline} (lands : Lands cx.doc m)
    (same : landing cx.doc m = m.location) :
    ∃ v, Tree.get? m.location cx.doc = some v ∧ refOf v = none := by
  obtain ⟨v, _, found, _⟩ := lands
  rw [same] at found
  obtain ⟨w, r, at_, resolved, rfl, there⟩ := resolveAtSource found
  have here := resolvedAt (readAt at_) resolved
  rw [← there] at here
  exact ⟨r.value, here, resolvedPlain resolved⟩

theorem reproducesPlain (fin : Finished cx g)
    (run : hydrateWalk cx g.outline .empty = .ok (⟨⟩, h)) (same : h.outline = g.outline) :
    PlainOperations cx.doc g := by
  have lands := hydratedLands run
  obtain ⟨h', run', _, told⟩ := hydratesTold fin lands
  cases run.symm.trans run'
  rw [same] at told
  intro o mem m listed
  have groups := congrArg ApiOutline.methods (List.map_inj_left.mp told o mem)
  simp only [ApiOutline.unnamed, List.map_map] at groups
  have method := List.map_inj_left.mp groups m listed
  have there := congrArg MethodOutline.location method
  exact landsPlain (lands o mem m listed) there.symm

theorem reproducesIff (fin : Finished cx g) (made : Setting.make cx.doc c = .ok cx) :
    Reproduces c cx.doc g ↔ PlainOperations cx.doc g ∧ ∀ h, hydrate c cx.doc g.outline = .ok h →
      h.typePlaces = g.typePlaces ∧ h.outline.bodyNames = g.outline.bodyNames := by
  have finished : ∀ {h}, Builds .whole cx .all .empty h →
      Typed h ∧ ∀ s ∈ h.schemas, ∃ v, Mirrors cx.doc h.schemas s v := by
    intro h builds
    refine ⟨builds.grows.edits.typed emptyTyped, fun s mem => ?_⟩
    obtain ⟨i, found⟩ := List.getElem?_of_mem mem
    exact builds.grows.schemas.fresh emptyIndexed i s (Nat.zero_le _) found
  constructor
  · rintro ⟨h, hydrated, same⟩
    have run := (hydrateWalks made).mp hydrated
    refine ⟨reproducesPlain fin run same, fun h' again => ?_⟩
    cases hydrated.symm.trans again
    obtain ⟨h', run', builds, _⟩ := hydratesTold fin (hydratedLands run)
    cases run.symm.trans run'
    have places := (finished builds).1.places
    rw [same, fin.typed.places] at places
    exact ⟨places.symm, congrArg Outline.bodyNames same⟩
  · rintro ⟨plain, agrees⟩
    obtain ⟨h, run, builds, told⟩ := hydratesTold fin
      fun o mem m listed => (plainLands fin.readable plain mem listed).2
    have hydrated := (hydrateWalks made).mpr run
    obtain ⟨places, names⟩ := agrees h hydrated
    obtain ⟨typed, mirrored⟩ := finished builds
    have apis := apisDetermined (told.trans (landedPlain fin.readable plain)) names
    have types := typesTold fin.typed typed fin.mirrored mirrored places
    refine ⟨h, hydrated, ?_⟩
    cases stored : g.outline
    cases read : h.outline
    simp only [stored, read] at apis types
    rw [apis, types]

/- A graph whose outline comes back in one order or another: its operations are in place, no
location serves two kinds, references lead to types alone, and what stands inside a type without
being one was met after it. -/
structure Steady (doc : Value) (g : Graph) : Prop where
  operations : PlainOperations doc g
  kinds : OneKind g
  referred : ∀ place v r s, Tree.get? place doc = some v → refOf v ≠ none →
    resolve doc v = .ok r → s ∈ g.schemas → s.location = r.locationOr place → s.isType = true
  inside : ∀ (i j : Nat) (t s : Schema), g.schemas[i]? = some t → g.schemas[j]? = some s →
    t.isType = true → s.isType = false → s.location.startsWith t.location = true → i < j

theorem Steady.ordered (steady : Steady doc g) : Ordered doc g.skeleton where
  referred at_ named resolved mem := by
    obtain ⟨s, inside, same⟩ := List.mem_map.mp mem
    obtain ⟨placed, marked⟩ := Prod.mk.inj same
    exact marked ▸ steady.referred _ _ _ s at_ named resolved inside placed
  inside found found' within := by
    rw [skeleton, List.getElem?_map] at found found'
    obtain ⟨t, held, same⟩ := Option.map_eq_some_iff.mp found
    obtain ⟨s, held', same'⟩ := Option.map_eq_some_iff.mp found'
    obtain ⟨placed, marked⟩ := Prod.mk.inj same
    obtain ⟨placed', marked'⟩ := Prod.mk.inj same'
    rw [← placed, ← placed'] at within
    exact steady.inside _ _ t s held held' marked marked' within

theorem otherPlace (kinds : OneKind g) {n : NodeRef} {l : Location}
    (stands : g.location? n = some l) (other : ∀ id, n ≠ .schema id) : l ∉ schemaPlaces g := by
  intro mem
  obtain ⟨id, stands'⟩ := placeLocated mem
  have clash := kinds _ _ l stands' stands
  cases n with
  | schema id => exact other id rfl
  | _ => exact clash

def NamedIn (o : Outline) (l : Location) (name : String) : Prop :=
  ∃ a ∈ o.apis, ∃ m ∈ a.methods, ∃ preferred, .request l name preferred ∈ m.inputs

theorem steadyRoom (fin : Finished cx g) (steady : Steady cx.doc g) {o : ApiOutline}
    (mem : o ∈ g.outline.apis) {m : MethodOutline} (listed : m ∈ o.methods) :
    Room cx.doc (· ∉ schemaPlaces g) (NamedIn g.outline) m := by
  have there := (plainLands fin.readable steady.operations mem listed).1
  obtain ⟨a, _, rfl⟩ := List.mem_map.mp mem
  obtain ⟨id, _, told⟩ := List.mem_filterMap.mp listed
  have parts := told
  simp only [methodOutline, bind, Option.bind_eq_some_iff, Option.some.injEq] at parts
  obtain ⟨method, held, r, held', rfl⟩ := parts
  refine ⟨?_, fun x inside => ?_, fun l name preferred inside => ⟨_, mem, _, listed, preferred, inside⟩,
    ?_⟩
  · rw [there]
    exact otherPlace steady.kinds (n := .method id) (by simp [location?, held]) (by simp)
  · obtain ⟨i, _, told⟩ := List.mem_filterMap.mp inside
    cases i with
    | parameter id =>
      obtain ⟨p, found, rfl⟩ := Option.map_eq_some_iff.mp told
      exact otherPlace steady.kinds (n := .parameter id) (by simp [location?, found,
        InputOutline.location]) (by simp)
    | body id =>
      obtain ⟨b, found, rfl⟩ := Option.map_eq_some_iff.mp told
      exact otherPlace steady.kinds (n := .body id) (by simp [location?, found,
        InputOutline.location]) (by simp)
  · exact otherPlace steady.kinds (n := .response method.response) (by simp [location?, held'])
      (by simp)

theorem outlineBodies {o : ApiOutline} (mem : o ∈ g.outline.apis) {m : MethodOutline}
    (listed : m ∈ o.methods) {l : Location} {name : String} {preferred : List String}
    (inside : .request l name preferred ∈ m.inputs) :
    ∃ b ∈ g.bodies, b.location = l ∧ b.name = name := by
  obtain ⟨a, _, rfl⟩ := List.mem_map.mp mem
  obtain ⟨id, _, told⟩ := List.mem_filterMap.mp listed
  simp only [methodOutline, bind, Option.bind_eq_some_iff, Option.some.injEq] at told
  obtain ⟨method, _, r, _, rfl⟩ := told
  obtain ⟨i, _, told⟩ := List.mem_filterMap.mp inside
  cases i with
  | parameter id =>
    obtain ⟨p, _, impossible⟩ := Option.map_eq_some_iff.mp told
    contradiction
  | body id =>
    obtain ⟨b, found, same⟩ := Option.map_eq_some_iff.mp told
    simp only [InputOutline.request.injEq] at same
    exact ⟨b, List.mem_of_getElem? found, same.1, same.2.1⟩

theorem steadyNamed (fin : Finished cx g) (steady : Steady cx.doc g) {l : Location} {name : String}
    (named : NamedIn g.outline l name) : name = bodyNameAt g l := by
  obtain ⟨o, mem, m, listed, preferred, inside⟩ := named
  obtain ⟨b, held, rfl, rfl⟩ := outlineBodies mem listed inside
  exact bodyNameOne (editsMixed fin.builds.grows.edits) steady.kinds held

theorem steadyReproduces (fin : Finished cx g) (made : Setting.make cx.doc c = .ok cx)
    (steady : Steady cx.doc g) : Reproduces c cx.doc g := by
  obtain ⟨m, types, follows⟩ := legsCatchUp fin steady.ordered steady.kinds fin.builds.legs .refl
  have trips : Trips cx .empty m := Travels.forM (fun l _ => registerAtTravels cx l) _ _ _ types
  have bodies : m.bodies = [] := (trips.grows fin.lawful).edits.keepsInputs.2.1
  have settles : Settles g (NamedIn g.outline) m := by
    refine ⟨follows.tracks', follows.types, fun l mem => ?_, by simp [bodies]⟩
    obtain ⟨b, inside⟩ := memPlaces.mp mem
    exact memPlaces.mpr ⟨b, follows.less _ inside⟩
  have groups : ∀ o ∈ g.outline.apis, o.location ∉ schemaPlaces g := by
    intro o mem
    obtain ⟨a, inside, rfl⟩ := List.mem_map.mp mem
    obtain ⟨i, found⟩ := List.getElem?_of_mem inside
    exact otherPlace steady.kinds (n := .api ⟨i⟩) (by simp [location?, api?, found]) (by simp)
  obtain ⟨h, run, settled, _, told⟩ := outlineReads fin (keepsSettled fin steady.ordered)
    (fun o mem m listed => (plainLands fin.readable steady.operations mem listed).2) groups
    (fun o mem m listed => steadyRoom fin steady mem listed) types settles
  have names : ∀ o ∈ g.outline.apis, o.NamedBy (bodyNameAt g) := fun o mem m listed l name _ inside =>
    steadyNamed fin steady ⟨o, mem, m, listed, _, inside⟩
  have names' : ∀ o ∈ h.outline.apis, o.NamedBy (bodyNameAt g) := by
    intro o mem m listed l name preferred inside
    obtain ⟨b, held, rfl, rfl⟩ := outlineBodies mem listed inside
    exact steadyNamed fin steady (settled.names b held)
  have apis : h.outline.apis = g.outline.apis :=
    apisRenamed names' names (told.trans (landedPlain fin.readable steady.operations))
  refine (reproducesIff fin made).mpr ⟨steady.operations, fun h' hydrated => ?_⟩
  cases run.symm.trans ((hydrateWalks made).mp hydrated)
  exact ⟨settled.types, by rw [Outline.bodyNames, apis, Outline.bodyNames]⟩

end Exact

def target? (doc : Value) (pointer : String) : Option Location :=
  match follow doc (doc.pointers.length + 2) [] pointer with
  | .ok r => r.location?
  | .error _ => none

def InPlace (doc : Value) (l : Location) : Bool :=
  (Tree.get? l doc).any fun v => (refOf v).isNone

structure Checked (doc : Value) (g : Graph) : Prop where
  operations : ∀ o ∈ g.outline.apis, ∀ m ∈ o.methods, InPlace doc m.location = true
  kinds : ∀ a ∈ g.placed, ∀ b ∈ g.placed, a.1 = b.1 → a.2 = b.2
  referred : ∀ p ∈ doc.pointers, ∀ s ∈ g.schemas, target? doc p = some s.location → s.isType = true
  inside : ∀ a ∈ g.schemas.zipIdx, ∀ b ∈ g.schemas.zipIdx, a.1.isType = true → b.1.isType = false →
    b.1.location.startsWith a.1.location = true → a.2 < b.2

instance (doc : Value) (g : Graph) : Decidable (Checked doc g) :=
  decidable_of_iff ((∀ o ∈ g.outline.apis, ∀ m ∈ o.methods, InPlace doc m.location = true) ∧
      (∀ a ∈ g.placed, ∀ b ∈ g.placed, a.1 = b.1 → a.2 = b.2) ∧
      (∀ p ∈ doc.pointers, ∀ s ∈ g.schemas, target? doc p = some s.location → s.isType = true) ∧
      ∀ a ∈ g.schemas.zipIdx, ∀ b ∈ g.schemas.zipIdx, a.1.isType = true → b.1.isType = false →
        b.1.location.startsWith a.1.location = true → a.2 < b.2)
    ⟨fun ⟨a, b, c, d⟩ => ⟨a, b, c, d⟩, fun ⟨a, b, c, d⟩ => ⟨a, b, c, d⟩⟩

theorem placedKinds {g : Graph} (kinds : ∀ a ∈ g.placed, ∀ b ∈ g.placed, a.1 = b.1 → a.2 = b.2) :
    OneKind g :=
  fun _ _ _ hn hm => NodeRef.sameNumber (kinds _ (memPlaced hn) _ (memPlaced hm) rfl)

theorem targetTold {doc v : Value} {place : Location} {r : Resolved} {p : String}
    (pointer : refOf v = some p) (resolved : resolve doc v = .ok r) :
    target? doc p = some (r.locationOr place) := by
  simp only [resolve, pointer] at resolved
  obtain ⟨_, last, target, _⟩ := followSource resolved
  simp [target?, resolved, Resolved.locationOr, Resolved.location?, target]

theorem Checked.steady {doc : Value} {g : Graph} (h : Checked doc g) : Steady doc g where
  operations o mem m listed := by
    have here := h.operations o mem m listed
    cases at_ : Tree.get? m.location doc with
    | none => simp [InPlace, at_] at here
    | some v => exact ⟨v, rfl, by simpa [InPlace, at_] using here⟩
  kinds := placedKinds h.kinds
  referred place v r s at_ named resolved mem there := by
    obtain ⟨p, pointer⟩ := Option.ne_none_iff_exists'.mp named
    exact h.referred p (Tree.refAt at_ pointer) s mem (there ▸ targetTold pointer resolved)
  inside i j t s found found' isType notType within :=
    h.inside (t, i) (List.mem_zipIdx_iff_getElem?.mpr found) (s, j)
      (List.mem_zipIdx_iff_getElem?.mpr found') isType notType within

/- What is stored of a built graph is read back exactly if the operations it lists are no references
and reading registers the same types in the same order and names the bodies alike. So it is for every
steady graph. -/
theorem hydrationReproduces {fragments : List Value} {o : Pipeline.Options} {p : Pipeline.Prepared}
    {c : Config} {doc : Value} {g : Graph} (prepared : Pipeline.prepare fragments o = .ok p)
    (lawful : p.doc.lawful = true) (built : build c p.doc = (doc, .ok g)) :
    (Reproduces c doc g ↔ PlainOperations doc g ∧ ∀ h, hydrate c doc g.outline = .ok h →
      h.typePlaces = g.typePlaces ∧ h.outline.bodyNames = g.outline.bodyNames) ∧
    (Steady doc g → Reproduces c doc g) := by
  obtain ⟨cx, made, rfl, fin⟩ := builtFinished prepared lawful built
  exact ⟨reproducesIff fin made, steadyReproduces fin made⟩

def forest : Value := .obj [
  ("paths", .obj [("/trees", .obj [("get", .obj [
    ("tags", .arr [.str "trees"]), ("operationId", .str "getTree"),
    ("responses", .obj [("200", .obj [("content", .obj [("application/json", .obj [
      ("schema", .obj [("$ref", .str "#/components/schemas/Tree")])])])])])])])]),
  ("components", .obj [("schemas", .obj [("Tree", .obj [
    ("type", .str "object"),
    ("properties", .obj [
      ("left", .obj [("$ref", .str "#/components/schemas/Tree")]),
      ("leaf", .obj [("type", .str "string")])])])])])]

theorem forestReproduced : ∃ p doc g, Pipeline.prepare [forest] bareOptions = .ok p ∧
    build Config.default p.doc = (doc, .ok g) ∧ g.outline.types.length = 1 ∧
    Reproduces Config.default doc g := by
  have facts : (Pipeline.generate [forest] bareOptions Config.default).toOption.map
      (fun r => (r.graph.outline.types.length, decide (Checked r.doc r.graph))) = some (1, true) := by
    decide +kernel
  have before : (Pipeline.prepare [forest] bareOptions).toOption.map (·.doc.lawful) =
      some true := by decide +kernel
  cases generated : Pipeline.generate [forest] bareOptions Config.default with
  | error e => simp [generated, Except.toOption] at facts
  | ok r =>
    obtain ⟨p, prepared, built⟩ := generateSource generated
    simp only [generated, Except.toOption, Option.map_some, Option.some.injEq, Prod.mk.injEq,
      decide_eq_true_eq] at facts
    simp only [prepared, Except.toOption, Option.map_some, Option.some.injEq] at before
    exact ⟨p, r.doc, r.graph, prepared, built, facts.1,
      (hydrationReproduces prepared before built).2 facts.2.steady⟩

def foundInside : Value :=
  let place := "#/paths/~1a/get/responses/200/content/application~1json/schema"
  let list : Value := .obj [("type", .str "array"),
    ("items", .obj [("$ref", .str "#/components/schemas/T")])]
  .obj [
    ("paths", .obj [("/a", .obj [("get", .obj [
      ("tags", .arr [.str "t"]), ("operationId", .str "a"),
      ("responses", .obj [("200", .obj [("content", .obj [("application/json", .obj [
        ("schema", list)])])])])])])]),
    ("components", .obj [("schemas", .obj [("T", .obj [("type", .str "object"),
      ("properties", .obj [("all", .obj [("$ref", .str place)])])])])])]

theorem foundInsideChanges : ∃ r,
    Pipeline.generate [foundInside] bareOptions Config.default = .ok r ∧
    ¬ Reproduces Config.default r.doc r.graph := by
  have types : (Pipeline.generate [foundInside] bareOptions Config.default).toOption.map
      (fun r => (r.graph.outline.types.length,
        (hydrate Config.default r.doc r.graph.outline).toOption.map (·.outline.types.length))) =
      some (1, some 2) := by decide +kernel
  cases generated : Pipeline.generate [foundInside] bareOptions Config.default with
  | error e => simp [generated, Except.toOption] at types
  | ok r =>
    refine ⟨r, rfl, ?_⟩
    rintro ⟨h, hydrated, same⟩
    simp [generated, hydrated, same, Except.toOption] at types
    omega

end ApiGraph.Hydrate
