import ApiGraph.Proofs.Identity
import ApiGraph.Proofs.Passes

/-! Which schemas of a built graph are types. A node is registered when it is made or never, so what
counts is how its schema was met first. Where no schema is met both in place and by reference, that is
whether a reference led to it, in whichever order. -/
namespace ApiGraph.Build
open Json Resolve ApiGraph.Graph

def firstMeeting (log : List Meeting) (id : SchemaId) : Option Meeting := log.find? (·.id == id)

def FirstReferred (log : List Meeting) (id : SchemaId) : Prop :=
  ∃ m, firstMeeting log id = some m ∧ m.byReference = true

def Reached (doc : Value) (log : List Meeting) (l : Location) : Prop :=
  ∃ m ∈ log, ∃ r, m.byReference = true ∧ resolve doc m.value = .ok r ∧ r.locationOr m.place = l

theorem impliedIff {doc v : Value} {r : Resolved} (resolved : resolve doc v = .ok r)
    (place : Location) : (r.location?.bind Location.last?).isSome = true ↔
      (refOf v).isSome = true ∧ r.locationOr place ≠ .root := by
  cases named : refOf v with
  | none =>
    cases resolved.symm.trans (resolvePlain named)
    simp [Resolved.location?]
  | some p =>
    simp only [resolve, named] at resolved
    obtain ⟨_, last, target, _⟩ := followSource resolved
    have there : r.location? = some (.ofPointer last) := by simp [Resolved.location?, target]
    generalize Location.ofPointer last = l at there
    obtain ⟨segments⟩ := l
    simp [there, Resolved.locationOr, Location.last?, Location.root]

namespace Pass
variable {cx : Setting} {g g' : Graph} {log : List Meeting}

theorem stands (h : Pass cx g log g') (indexed : Indexed g) {m : Meeting} (mem : m ∈ log) :
    StandsFor cx.doc g'.schemas m.value m.place m.id := by
  suffices there : ∃ r b, resolve cx.doc m.value = .ok r ∧
      g'.skeleton[m.id.index]? = some (r.locationOr m.place, b) by
    obtain ⟨r, b, resolved, held⟩ := there
    obtain ⟨s, found, placed, _⟩ := skeletonAt.mp held
    exact ⟨r, s, resolved, found, placed⟩
  induction h with
  | done => cases mem
  | beside e _ _ ih => exact ih (Edits.indexed (.single e) indexed) mem
  | found resolved held rest ih =>
    rcases List.mem_cons.mp mem with rfl | later
    · obtain ⟨s, found, placed⟩ := schemaAtPlaced indexed held
      have there := skeletonAt.mpr ⟨s, found, placed, rfl⟩
      exact ⟨_, _, resolved, prefixAt rest.edits.extends there⟩
    · exact ih indexed later
  | made resolved free _ rest ih =>
    rcases List.mem_cons.mp mem with rfl | later
    · exact ⟨_, _, resolved, prefixAt rest.edits.extends (plantedLast _ _)⟩
    · exact ih (Edits.indexed (.single (.schema (k := .whole) _ newSchemaNamed free)) indexed) later

theorem first (h : Pass cx g log g') (indexed : Indexed g) {i : Nat} (new : g.schemas.length ≤ i)
    {l : Location} {b : Bool} (held : g'.skeleton[i]? = some (l, b)) : ∃ m r,
      firstMeeting log ⟨i⟩ = some m ∧ resolve cx.doc m.value = .ok r ∧ r.locationOr m.place = l ∧
      (r.location?.bind Location.last?).isSome = b := by
  induction h with
  | done g =>
    have beyond : g.skeleton[i]? = none := List.getElem?_eq_none (by simpa using new)
    rw [beyond] at held
    contradiction
  | @beside g m g' log e same rest ih =>
    refine ih (Edits.indexed (.single e) indexed) ?_ held
    rwa [← skeletonLength, same, skeletonLength]
  | @found g g' v place r id log resolved known rest ih =>
    obtain ⟨m, r', first, told⟩ := ih indexed new held
    refine ⟨m, r', ?_, told⟩
    obtain ⟨s, stands, _⟩ := schemaAtPlaced indexed known
    obtain ⟨inside, _⟩ := List.getElem?_eq_some_iff.mp stands
    have other : id ≠ ⟨i⟩ := by
      rintro rfl
      exact Nat.not_lt.mpr new inside
    rw [firstMeeting, List.find?_cons_of_neg (by simpa using other)]
    exact first
  | @made g g' v place r c log resolved free told rest ih =>
    generalize entry : newSchema c r.value (r.locationOr place) (r.location?.bind Location.last?) = s
      at rest ih
    rcases Nat.eq_or_lt_of_le new with own | later
    · have there := prefixAt rest.edits.extends (plantedLast g s)
      rw [own, held, ← entry] at there
      obtain ⟨rfl, rfl⟩ := Prod.mk.inj (Option.some.inj there)
      refine ⟨⟨v, place, ⟨g.schemas.length⟩⟩, r, ?_, resolved, rfl, rfl⟩
      rw [firstMeeting, List.find?_cons_of_pos (by simp [own])]
    · have more : (g.plant s).schemas.length ≤ i := by
        rw [plantSchemas, List.length_append]
        exact later
      have indexed' : Indexed (g.plant s) :=
        entry ▸ Edits.indexed (.single (.schema (k := .whole) _ newSchemaNamed free)) indexed
      obtain ⟨m, r', first, told⟩ := ih indexed' more held
      refine ⟨m, r', ?_, told⟩
      have other : (⟨g.schemas.length⟩ : SchemaId) ≠ ⟨i⟩ := by
        simpa using Nat.ne_of_lt later
      rw [firstMeeting, List.find?_cons_of_neg (by simpa using other)]
      exact first

end Pass

section Types
variable {cx : Setting} {g : Graph} {log : List Meeting} {id : SchemaId} {s : Schema}

namespace Pass

theorem origin (pass : Pass cx .empty log g) (held : g.schema? id = some s) :
    ∃ m ∈ log, ∃ r, firstMeeting log id = some m ∧ resolve cx.doc m.value = .ok r ∧
      r.locationOr m.place = s.location ∧
      (id ∈ g.types ↔ m.byReference = true ∧ s.location ≠ .root) := by
  have there : g.skeleton[id.index]? = some (s.location, s.isType) :=
    skeletonAt.mpr ⟨s, held, rfl, rfl⟩
  obtain ⟨m, r, first, resolved, place, marked⟩ := pass.first emptyIndexed (Nat.zero_le _) there
  refine ⟨m, List.mem_of_find?_eq_some first, r, first, resolved, place, ?_⟩
  have implied := impliedIff resolved m.place
  rw [marked, place] at implied
  rw [(pass.edits.typed emptyTyped).memIff, held]
  refine Iff.trans ?_ implied
  simp

theorem listed (pass : Pass cx .empty log g) (held : g.schema? id = some s) :
    id ∈ g.types ↔ s.location ≠ .root ∧ FirstReferred log id := by
  obtain ⟨m, _, r, first, _, _, told⟩ := pass.origin held
  rw [told, FirstReferred, first]
  simp [and_comm]

theorem reached (pass : Pass cx .empty log g) (held : g.schema? id = some s)
    (isType : id ∈ g.types) : Reached cx.doc log s.location := by
  obtain ⟨m, mem, r, _, resolved, place, told⟩ := pass.origin held
  exact ⟨m, mem, r, (told.mp isType).1, resolved, place⟩

theorem unmixed (pass : Pass cx .empty log g) (root : ¬ Reached cx.doc log .root)
    (apart : ∀ m ∈ log, m.byReference = false → ¬ Reached cx.doc log m.place)
    (held : g.schema? id = some s) : id ∈ g.types ↔ Reached cx.doc log s.location := by
  refine ⟨pass.reached held, fun led => ?_⟩
  obtain ⟨m, mem, r, _, resolved, place, told⟩ := pass.origin held
  refine told.mpr ⟨?_, fun whole => root (whole ▸ led)⟩
  by_contra inPlace
  have plain : refOf m.value = none := by
    simpa [Meeting.byReference] using inPlace
  cases resolved.symm.trans (resolvePlain plain)
  change m.place = s.location at place
  exact apart m mem (by simpa using inPlace) (place ▸ led)

end Pass

/- What registration comes to. A type has been referred to, and a schema is one exactly if it was
first met by reference and is not the document itself. So a schema that was referred to is a type
unless it had been met in place before, and if none was met both ways no order counts. -/
structure Registers (cx : Setting) (log : List Meeting) (g : Graph) : Prop where
  once : g.types.Nodup
  known : ∀ id ∈ g.types, ∃ s, g.schema? id = some s ∧ Reached cx.doc log s.location
  listed : ∀ id s, g.schema? id = some s →
    (id ∈ g.types ↔ s.location ≠ .root ∧ FirstReferred log id)
  exactly : ∀ id s, g.schema? id = some s → ((id ∈ g.types ↔ Reached cx.doc log s.location) ↔
    (Reached cx.doc log s.location → s.location ≠ .root ∧ FirstReferred log id))
  unmixed : ¬ Reached cx.doc log .root →
    (∀ m ∈ log, m.byReference = false → ¬ Reached cx.doc log m.place) →
    ∀ id s, g.schema? id = some s → (id ∈ g.types ↔ Reached cx.doc log s.location)
  modelled : ∀ e ∈ models cx, ∃ r id s, resolve cx.doc e.1 = .ok r ∧ g.schema? id = some s ∧
    s.location = r.locationOr e.2 ∧ Reached cx.doc log s.location

theorem passRegisters (pass : Pass cx .empty log g)
    (all : ∀ e ∈ models cx, ∃ m ∈ log, m.pair = e) : Registers cx log g where
  once := (pass.edits.typed emptyTyped).once
  known id isType := by
    obtain ⟨s, held, _⟩ := (pass.edits.typed emptyTyped).memIff.mp isType
    exact ⟨s, held, pass.reached held isType⟩
  listed _ _ := pass.listed
  exactly id s held := by
    rw [← pass.listed held]
    exact ⟨fun same => same.mpr, fun back => ⟨pass.reached held, back⟩⟩
  unmixed root apart _ _ := pass.unmixed root apart
  modelled e mem := by
    obtain ⟨m, met, rfl⟩ := all e mem
    obtain ⟨r, s, resolved, held, placed⟩ := pass.stands emptyIndexed met
    obtain ⟨l, _, same⟩ := List.mem_map.mp mem
    have named : m.value = reference l.toPointer := (congrArg Prod.fst same).symm
    refine ⟨r, m.id, s, resolved, held, placed, m, met, r, ?_, resolved, placed.symm⟩
    rw [Meeting.byReference, named]
    rfl

end Types

/- For every graph that is built there is the list of the schemas that its walk met, which are those
that the nodes ask for and those registered last, and the types follow from it. -/
theorem typesRegistered {c : Config} {doc doc' : Value} {g : Graph} (lawful : doc.lawful = true)
    (built : build c doc = (doc', .ok g)) : ∃ cx log, Setting.make doc' c = .ok cx ∧
      Pass cx .empty log g ∧ (log.map Meeting.pair).Perm (models cx ++ asked cx g) ∧
      Registers cx log g := by
  obtain ⟨cx, made, walked⟩ := graphOfSource (buildSource built).2
  obtain ⟨_, _, _, _, rfl⟩ := settingSource made
  obtain ⟨log, pass, met⟩ := walkMeets (buildLawful lawful built) walked
  refine ⟨_, log, made, pass, met, passRegisters pass fun e mem => ?_⟩
  exact List.mem_map.mp (met.mem_iff.mpr (List.mem_append_left _ mem))

theorem treeRegistered : ∃ g cx log, build everyModel treeDocument = (treeDocument, .ok g) ∧
    g.types = [⟨0⟩] ∧ Pass cx .empty log g ∧ Registers cx log g := by
  have told : Declaration.declare everyModel treeDocument = .ok (treeDocument, 0) := by rfl
  have types : (graphOf everyModel treeDocument).toOption.map (·.types) = some [⟨0⟩] := by
    decide +kernel
  cases walked : graphOf everyModel treeDocument with
  | error e => simp [walked, Except.toOption] at types
  | ok g =>
    have built : build everyModel treeDocument = (treeDocument, .ok g) := by
      simp [build, told, walked]
    obtain ⟨cx, log, _, pass, _, registers⟩ := typesRegistered (by decide +kernel) built
    exact ⟨g, cx, log, built, by simpa [walked, Except.toOption] using types, pass, registers⟩

def borrowedModel : Value :=
  let place := "#/paths/~1a/get/responses/200/content/application~1json/schema"
  .obj [
    ("paths", .obj [("/a", .obj [("get", .obj [
      ("tags", .arr [.str "t"]), ("operationId", .str "a"),
      ("responses", .obj [("200", .obj [("content", .obj [("application/json", .obj [
        ("schema", .obj [("type", .str "object")])])])])])])])]),
    ("components", .obj [("schemas", .obj [("A", .obj [("$ref", .str place)])])])]

/- A model that is a reference to the schema of a response: that schema was met in place before,
and there are no types. -/
theorem borrowedModelUnregistered : ∃ o r s,
    Pipeline.generate [borrowedModel] bareOptions everyModel = .ok o ∧
    resolve o.doc (reference "#/components/schemas/A") = .ok r ∧
    o.graph.schemas = [s] ∧ r.location? = some s.location ∧ o.graph.types = [] := by
  have facts : (Pipeline.generate [borrowedModel] bareOptions everyModel).toOption.map
      (fun o => (o.graph.schemas.map Schema.location, o.graph.types,
        (resolve o.doc (reference "#/components/schemas/A")).toOption.map (·.location?))) =
      some ([⟨["paths", "/a", "get", "responses", "200", "content", "application/json", "schema"]⟩],
        [], some (some ⟨["paths", "/a", "get", "responses", "200", "content", "application/json",
          "schema"]⟩)) := by decide +kernel
  cases generated : Pipeline.generate [borrowedModel] bareOptions everyModel with
  | error e => simp [generated, Except.toOption] at facts
  | ok o =>
    simp only [generated, Except.toOption, Option.map_some, Option.some.injEq, Prod.mk.injEq] at facts
    obtain ⟨places, types, led⟩ := facts
    cases resolved : resolve o.doc (reference "#/components/schemas/A") with
    | error e => simp [resolved] at led
    | ok r =>
      obtain ⟨s, only, here⟩ := List.map_eq_singleton_iff.mp places
      simp only [resolved, Option.map_some, Option.some.injEq] at led
      exact ⟨o, r, s, rfl, resolved, only, led.trans (congrArg some here.symm), types⟩

end ApiGraph.Build
