import ApiGraph.Proofs.BuiltGraph
import ApiGraph.Proofs.Rankings

/-! The default of a body. Schemas are told apart in two ways: of those that match a body lists one,
whereas its default is taken from what stands at one place. The two agree unless schemas that match are
declared at several places; such a body lists one schema and has no default. -/
namespace ApiGraph.Build
open Json Resolve ApiGraph.Graph

def DeclaredAt (doc : Value) (l : Location) (content : Members) (m : String) (place : Location)
    (w : Value) : Prop :=
  ∃ x r, declaredSchema content m = some x ∧ Resolve.resolve doc x = .ok r ∧
    r.locationOr (schemaPlace l m) = place ∧ r.value = w

def OnePlace (doc : Value) (l : Location) (content : Members) (ms : List String) : Prop :=
  ∀ m ∈ ms, ∀ m' ∈ ms, ∀ p w p' w', DeclaredAt doc l content m p w → DeclaredAt doc l content m' p' w' →
    p = p'

section Walked
variable {cx : Setting} {g g' : Graph} {l : Location} {content : Members} {preferred : List String}

theorem joinSchema (l : Location) (m : String) : l.join ["content", m, "schema"] = schemaPlace l m := by
  simp [schemaPlace, Location.child, Location.join]

theorem preferredSchemasSource {found : List (Location × Value)}
    (run : preferredSchemas cx l content preferred g = .ok (found, g')) :
    (Entries.keys found).Nodup ∧
      (∀ e ∈ found, ∃ m ∈ preferred, DeclaredAt cx.doc l content m e.1 e.2) ∧
      ∀ m ∈ preferred, ∀ p w, DeclaredAt cx.doc l content m p w → p ∈ Entries.keys found := by
  simp only [preferredSchemas, runBind, runPure] at run
  obtain ⟨tried, _, visited, rfl, rfl⟩ := run
  obtain ⟨_, each⟩ := (runMapM.mp visited).still
    (P := fun m found => ∀ e, found = some e ↔ DeclaredAt cx.doc l content m e.1 e.2) (by
      intro m _ g found g' one
      cases held : declaredSchema content m with
      | none =>
        have bare := held
        rw [declaredSchema] at bare
        simp only [bare, runPure] at one
        exact ⟨one.2, fun e => by simp [one.1, DeclaredAt, held]⟩
      | some x =>
        have declared := held
        rw [declaredSchema] at declared
        simp only [declared, runBind, runResolve, runPure] at one
        obtain ⟨r, _, ⟨resolved, rfl⟩, rfl, rfl⟩ := one
        refine ⟨rfl, fun e => ?_⟩
        simp [DeclaredAt, held, resolved, joinSchema, Prod.ext_iff])
  refine ⟨?_, fun e mem => ?_, fun m mem p w leads => ?_⟩
  · rw [Entries.keysBound]
    exact Preference.distinctOnce _
  · obtain ⟨found, listed, rfl⟩ := List.mem_filterMap.mp (Entries.memBound mem)
    obtain ⟨m, inside, leads⟩ := partner each listed
    exact ⟨m, inside, (leads e).mp rfl⟩
  · obtain ⟨found, listed, back⟩ := partner each.flip mem
    rw [Entries.keysBound, Preference.memDistinct]
    have held : (p, w) ∈ tried.filterMap id :=
      List.mem_filterMap.mpr ⟨found, listed, (back (p, w)).mpr leads⟩
    exact List.mem_map.mpr ⟨_, held, rfl⟩

theorem leadsAt {v : Value} (lawful : cx.doc.lawful = true) (at_ : Tree.get? l cx.doc = some v)
    {m : String} {p : Location} {w : Value} (leads : DeclaredAt cx.doc l (contentOf v) m p w) :
    Tree.get? p cx.doc = some w := by
  obtain ⟨x, r, declared, resolved, rfl, rfl⟩ := leads
  obtain ⟨media, held, schema⟩ := Option.bind_eq_some_iff.mp declared
  have inside := contentAt (e := (m, media)) lawful at_ (Entries.mem_of_lookup held)
  exact resolvedAt (readAt (Tree.childAt inside schema)) resolved

structure ChosenDefault (doc : Value) (l : Location) (content : Members) (preferred : List String)
    (default : Option Value) : Prop where
  one : OnePlace doc l content preferred →
    ∀ m ∈ preferred, ∀ p w, DeclaredAt doc l content m p w → default = w.get? "default"
  apart : ¬ OnePlace doc l content preferred → default = none
  bare : (∀ m ∈ preferred, declaredSchema content m = none) → default = none

theorem bodyDefaultSource {v : Value} {default : Option Value} (lawful : cx.doc.lawful = true)
    (at_ : Tree.get? l cx.doc = some v)
    (run : bodyDefault cx l (contentOf v) preferred g = .ok (default, g')) :
    ChosenDefault cx.doc l (contentOf v) preferred default := by
  simp only [bodyDefault, runBind] at run
  obtain ⟨found, m, visited, run⟩ := run
  obtain ⟨once, sound, complete⟩ := preferredSchemasSource visited
  -- the places found are told apart, so their number says whether there is one
  match found, run with
  | [], run =>
    have void := (runPure.mp run).1
    refine ⟨fun _ m mem p w leads => ?_, fun _ => void, fun _ => void⟩
    cases complete m mem p w leads
  | [(q, x)], run =>
    have only : ∀ m ∈ preferred, ∀ p w, DeclaredAt cx.doc l (contentOf v) m p w → p = q :=
      fun m mem p w leads => List.mem_singleton.mp (complete m mem p w leads)
    obtain ⟨m', mem', leads'⟩ := sound (q, x) List.mem_cons_self
    refine ⟨fun _ m mem p w leads => ?_, fun apart => (apart ?_).elim, fun bare => ?_⟩
    · have here := leadsAt lawful at_ leads
      rw [only m mem p w leads, leadsAt lawful at_ leads'] at here
      have same : x = w := Option.some.inj here
      rw [(runPure.mp run).1, same]
    · intro m mem m' mem' p w p' w' leads leads'
      rw [only m mem p w leads, only m' mem' p' w' leads']
    · obtain ⟨_, _, declared, _⟩ := leads'
      simp [bare m' mem'] at declared
  | (q, x) :: (q', x') :: more, run =>
    have void := (runPure.mp run).1
    refine ⟨fun together => ?_, fun _ => void, fun _ => void⟩
    obtain ⟨m, mem, leads⟩ := sound (q, x) List.mem_cons_self
    obtain ⟨m', mem', leads'⟩ := sound (q', x') (List.mem_cons_of_mem _ List.mem_cons_self)
    have same : q = q' := together m mem m' mem' q x q' x' leads leads'
    simp [Entries.keys, same] at once

end Walked

def declaredDefault (doc : Value) (g : Graph) (id : SchemaId) : Option Value := do
  (← Tree.get? (← g.schema? id).location doc).get? "default"

/- What the default of a body is, by the number of schemas that the body lists. -/
structure DefaultedBody (doc : Value) (g : Graph) (b : RequestBody) (content : Members) : Prop where
  bare : b.schemas.flatMap Prod.snd = [] → b.default = none
  one : ∀ id, b.schemas.flatMap Prod.snd = [id] →
    (∃ s w, g.schema? id = some s ∧ Tree.get? s.location doc = some w) ∧
    (b.default = declaredDefault doc g id ↔
      declaredDefault doc g id = none ∨ OnePlace doc b.location content b.preferred) ∧
    (¬ OnePlace doc b.location content b.preferred → b.default = none)
  several : 2 ≤ (b.schemas.flatMap Prod.snd).length → b.default = none

theorem DistinctBody.leads {doc : Value} {g : Graph} {b : RequestBody} {content : Members}
    (distinct : DistinctBody doc g b content) {id : SchemaId}
    (mem : id ∈ b.schemas.flatMap Prod.snd) : ∃ m ∈ b.preferred, ∃ s w, g.schema? id = some s ∧
      DeclaredAt doc b.location content m s.location w := by
  obtain ⟨⟨m, ids⟩, filed, inside⟩ := List.mem_flatMap.mp mem
  obtain ⟨before, after, split, ⟨x, declared, r, s, resolved, found, placed⟩, _⟩ :=
    distinct.foremost m ids id filed inside
  exact ⟨m, by simp [split], s, r.value, found, x, r, declared, resolved, placed.symm, rfl⟩

theorem bodyDefaulted {cx : Setting} {g : Graph} {b : RequestBody} {v : Value}
    (lawful : cx.doc.lawful = true) (mirrored : ∀ s ∈ g.schemas, ∃ v, Mirrors cx.doc g.schemas s v)
    (at_ : Tree.get? b.location cx.doc = some v)
    (distinct : DistinctBody cx.doc g b (contentOf v))
    (chosen : ChosenDefault cx.doc b.location (contentOf v) b.preferred b.default) :
    DefaultedBody cx.doc g b (contentOf v) where
  bare none := by
    refine chosen.bare fun m mem => ?_
    cases declared : declaredSchema (contentOf v) m with
    | none => rfl
    | some x =>
      obtain ⟨id, stands⟩ := distinct.listed m mem x declared
      simpa [none] using distinct.once m mem x id declared stands
  one id only := by
    have listed : id ∈ b.schemas.flatMap Prod.snd := by simp [only]
    obtain ⟨m, mem, s, w, found, leads⟩ := distinct.leads listed
    have here := leadsAt lawful at_ leads
    have declared : declaredDefault cx.doc g id = w.get? "default" := by
      simp [declaredDefault, found, here]
    rw [declared]
    refine ⟨⟨s, w, found, here⟩, ⟨fun same => ?_, fun cause => ?_⟩, chosen.apart⟩
    · by_cases together : OnePlace cx.doc b.location (contentOf v) b.preferred
      · exact .inr together
      · exact .inl (same.symm.trans (chosen.apart together))
    · by_cases together : OnePlace cx.doc b.location (contentOf v) b.preferred
      · exact chosen.one together m mem s.location w leads
      · rw [chosen.apart together, cause.resolve_right together]
  several many := by
    refine chosen.apart fun together => ?_
    -- two nodes at one place would match
    match listed : b.schemas.flatMap Prod.snd, many with
    | id :: id' :: more, _ =>
      have first : id ∈ b.schemas.flatMap Prod.snd := by simp [listed]
      have second : id' ∈ b.schemas.flatMap Prod.snd := by simp [listed]
      obtain ⟨m, mem, s, w, found, leads⟩ := distinct.leads first
      obtain ⟨m', mem', t, w', found', leads'⟩ := distinct.leads second
      have same := together m mem m' mem' s.location w t.location w' leads leads'
      have apart := distinct.apart
      rw [listed] at apart
      have told := (List.pairwise_cons.mp apart).1 id' List.mem_cons_self
      rw [placedMatch lawful mirrored found found' same] at told
      contradiction

/- A body that lists one schema has its default, unless it has none or is declared at several places. -/
theorem bodiesDefaulted {c : Config} {doc doc' : Value} {g : Graph} (lawful : doc.lawful = true)
    (built : build c doc = (doc', .ok g)) : ∀ b ∈ g.bodies, ∃ v,
      Tree.get? b.location doc' = some v ∧ DefaultedBody doc' g b (contentOf v) := by
  intro b mem
  have mirrored := fun s (mem : s ∈ g.schemas) => builtSchemas lawful built mem
  have lawful' := buildLawful lawful built
  obtain ⟨cx, found, made, _, builds, _⟩ := graphOfBuilds lawful' (buildSource built).2
  obtain ⟨request, accept, _, _, rfl⟩ := settingSource made
  obtain ⟨i, at_⟩ := List.getElem?_of_mem mem
  obtain ⟨_, ⟨v, at', files⟩, v', at'', _, facts, _⟩ :=
    builds.bodies.fresh emptyIndexed i b (Nat.zero_le _) at_
  cases at'.symm.trans at''
  obtain ⟨_, run⟩ := facts.default
  exact ⟨v, at', bodyDefaulted lawful' mirrored at' (filedDistinct lawful' mirrored files)
    (bodyDefaultSource lawful' at' run)⟩

def remarkDocument (text : Value) : Value :=
  let media : Value := .obj [("schema", text)]
  .obj [
    ("tags", .arr [.obj [("name", .str "remarks")]]),
    ("paths", .obj [("/remarks", .obj [("post", .obj [
      ("tags", .arr [.str "remarks"]), ("operationId", .str "addRemark"),
      ("requestBody", .obj [("content", .obj [
        ("application/json", media), ("text/plain", media)])]),
      ("responses", .obj [])])])]),
    ("components", .obj [("schemas", .obj [("Remark", plainRemark)])])]
where plainRemark : Value := .obj [("type", .str "string"), ("default", .str "none")]

def sharedRemark : Value := remarkDocument (reference "#/components/schemas/Remark")

def twinRemarks : Value := remarkDocument remarkDocument.plainRemark

theorem sharedDefaulted : ∃ g, build Config.default sharedRemark = (sharedRemark, .ok g) ∧
    g.bodies.map (fun b => (b.schemas.flatMap Prod.snd, b.default.bind (·.str?))) =
      [([⟨0⟩], some "none")] ∧
    ∀ b ∈ g.bodies, ∃ v, DefaultedBody sharedRemark g b (contentOf v) := by
  have told : Declaration.declare Config.default sharedRemark = .ok (sharedRemark, 0) := by rfl
  have held : (graphOf Config.default sharedRemark).toOption.map (fun g => g.bodies.map
      fun b => (b.schemas.flatMap Prod.snd, b.default.bind (·.str?))) =
      some [([⟨0⟩], some "none")] := by
    decide +kernel
  obtain ⟨g, built, same⟩ := builtOfStated told held
  refine ⟨g, built, same, fun b mem => ?_⟩
  obtain ⟨v, _, defaulted⟩ := bodiesDefaulted (by decide +kernel) built b mem
  exact ⟨v, defaulted⟩

/- One schema is listed, and it has a default; the body has none, as the schema is written twice. -/
theorem twinsUndefaulted : ∃ g, build Config.default twinRemarks = (twinRemarks, .ok g) ∧
    g.bodies.map (fun b => ((b.schemas.flatMap Prod.snd).map fun id =>
      (declaredDefault twinRemarks g id).bind (·.str?), b.default.isNone)) =
      [([some "none"], true)] := by
  have told : Declaration.declare Config.default twinRemarks = .ok (twinRemarks, 0) := by rfl
  have held : (graphOf Config.default twinRemarks).toOption.map (fun g => g.bodies.map fun b =>
      ((b.schemas.flatMap Prod.snd).map fun id =>
        (declaredDefault twinRemarks g id).bind (·.str?), b.default.isNone)) =
      some [([some "none"], true)] := by
    decide +kernel
  exact builtOfStated told held

end ApiGraph.Build
