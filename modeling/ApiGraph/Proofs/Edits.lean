import ApiGraph.Graph.Build
import ApiGraph.Graph.Outline
import ApiGraph.Proofs.Pointers
import Mathlib.Logic.Relation

/-! The ways a walk changes its graph. A node is made only where the index holds no node of its
kind, methods apart, and a node that exists keeps its location. What every edit keeps, a walk of any
length keeps. -/
namespace ApiGraph
open Json

structure Children where
  allOf : List SchemaId
  oneOf : List SchemaId
  anyOf : List SchemaId
  not : Option SchemaId
  properties : List (String × SchemaId)
  additional : Option SchemaId
  items : Option SchemaId

def Schema.withChildren (c : Children) (s : Schema) : Schema :=
  { s with
    allOf := c.allOf, oneOf := c.oneOf, anyOf := c.anyOf, not := c.not
    shape := Build.filledShape c.properties c.additional c.items s.shape }

@[simp] theorem Schema.withChildrenLocation (c : Children) (s : Schema) :
    (s.withChildren c).location = s.location := rfl

def Schema.Named (s : Schema) : Prop :=
  ∀ name, s.impliedName = some name → s.location.Spelled ∧ s.location.last? = some name

namespace NodeRef

def SameKind : NodeRef → NodeRef → Prop
  | .api _, .api _ => True
  | .method _, .method _ => True
  | .parameter _, .parameter _ => True
  | .body _, .body _ => True
  | .response _, .response _ => True
  | .schema _, .schema _ => True
  | _, _ => False

end NodeRef

namespace Graph

def location? (g : Graph) : NodeRef → Option Location
  | .api id => (g.api? id).map Api.location
  | .method id => (g.method? id).map Method.location
  | .parameter id => (g.parameter? id).map Parameter.location
  | .body id => (g.body? id).map RequestBody.location
  | .response id => (g.response? id).map Response.location
  | .schema id => (g.schema? id).map Schema.location

def plant (g : Graph) (s : Schema) : Graph :=
  if s.impliedName.isSome then (g.addSchema s).2.addType (g.addSchema s).1 else (g.addSchema s).2

inductive Scope where
  | schemas
  | inputs
  | whole

inductive Edit : Scope → Graph → Graph → Prop
  | schema {k g} (s : Schema) (named : s.Named) (free : g.schemaAt s.location = none) :
      Edit k g (g.plant s)
  | fill {k g} (id : SchemaId) (c : Children) : Edit k g (g.setSchema id (·.withChildren c))
  | parameter {k g} (wide : k ≠ .schemas) (p : Parameter)
      (free : ∀ id, g.nodeAt p.location ≠ some (.parameter id)) : Edit k g (g.addParameter p).2
  | carry {k g} (wide : k ≠ .schemas) (id : ParameterId) (schema : Option SchemaId) :
      Edit k g (g.setParameter id fun p => { p with schema := schema })
  | body {k g} (wide : k ≠ .schemas) (b : RequestBody)
      (free : ∀ id, g.nodeAt b.location ≠ some (.body id)) : Edit k g (g.addBody b).2
  | file {k g} (wide : k ≠ .schemas) (id : BodyId) (schemas : List (String × List SchemaId)) :
      Edit k g (g.setBody id fun b => { b with schemas := schemas })
  | response {k g} (wide : k ≠ .schemas) (r : Response)
      (free : ∀ id, g.nodeAt r.location ≠ some (.response id)) : Edit k g (g.addResponse r).2
  | settle {k g} (wide : k ≠ .schemas) (id : ResponseId) (schemas : List SchemaId) (hasAny : Bool) :
      Edit k g (g.setResponse id fun r => { r with schemas := schemas, hasAny := hasAny })
  | api {g} (a : Api) (free : ∀ id, g.nodeAt a.location ≠ some (.api id)) :
      Edit .whole g (g.addApi a).2
  | method {g} (m : Method) : Edit .whole g (g.addMethod m).2
  | enlist {g} (api : ApiId) (m : MethodId) : Edit .whole g (g.enlist api m)
  | skip {g} (s : Skipped) : Edit .whole g (g.addSkipped s)

def Edits (k : Scope) : Graph → Graph → Prop := Relation.ReflTransGen (Edit k)

def Scope.Within (k k' : Scope) : Prop := k = .schemas ∨ k' = k ∨ k' = .whole

theorem Edit.widen {k k' : Scope} {g g' : Graph} (within : k.Within k') (e : Edit k g g') :
    Edit k' g g' := by
  have wider : k ≠ .schemas → k' ≠ .schemas := by
    rintro wide rfl
    rcases within with narrow | same | impossible
    · exact wide narrow
    · exact wide same.symm
    · contradiction
  have top : k = .whole → k' = .whole := by
    rintro rfl
    simpa [Scope.Within] using within
  cases e with
  | schema s named free => exact .schema s named free
  | fill id c => exact .fill id c
  | parameter wide p free => exact .parameter (wider wide) p free
  | carry wide id schema => exact .carry (wider wide) id schema
  | body wide b free => exact .body (wider wide) b free
  | file wide id schemas => exact .file (wider wide) id schemas
  | response wide r free => exact .response (wider wide) r free
  | settle wide id schemas hasAny => exact .settle (wider wide) id schemas hasAny
  | api a free => exact top rfl ▸ .api a free
  | method m => exact top rfl ▸ .method m
  | enlist api m => exact top rfl ▸ .enlist api m
  | skip s => exact top rfl ▸ .skip s

theorem Edits.widen {k k' : Scope} {g g' : Graph} (within : k.Within k') (e : Edits k g g') :
    Edits k' g g' :=
  Relation.ReflTransGen.mono (fun _ _ => Edit.widen within) _ _ e

theorem Edit.keepsInputs {g g' : Graph} (e : Edit .schemas g g') :
    g'.parameters = g.parameters ∧ g'.bodies = g.bodies ∧ g'.responses = g.responses := by
  cases e with
  | schema s named free =>
    unfold plant
    split <;> exact ⟨rfl, rfl, rfl⟩
  | fill id c => exact ⟨rfl, rfl, rfl⟩
  | _ => contradiction

theorem Edit.keepsMethods {k : Scope} {g g' : Graph} (narrow : k ≠ .whole) (e : Edit k g g') :
    g'.apis = g.apis ∧ g'.methods = g.methods ∧ g'.skipped = g.skipped := by
  cases e with
  | schema s named free =>
    unfold plant
    split <;> exact ⟨rfl, rfl, rfl⟩
  | api | method | enlist | skip => contradiction
  | _ => exact ⟨rfl, rfl, rfl⟩

theorem Edits.keeps {k : Scope} {P : Graph → Prop} {g g' : Graph} (e : Edits k g g')
    (each : ∀ {a b}, Edit k a b → P a → P b) (h : P g) : P g' := by
  induction e with
  | refl => exact h
  | tail _ last ih => exact each last ih

theorem Edits.keepsInputs {g g' : Graph} (e : Edits .schemas g g') :
    g'.parameters = g.parameters ∧ g'.bodies = g.bodies ∧ g'.responses = g.responses :=
  e.keeps (P := fun m => m.parameters = g.parameters ∧ m.bodies = g.bodies ∧
      m.responses = g.responses)
    (fun edit ⟨ps, bs, rs⟩ => ⟨edit.keepsInputs.1.trans ps, edit.keepsInputs.2.1.trans bs,
      edit.keepsInputs.2.2.trans rs⟩) ⟨rfl, rfl, rfl⟩

theorem Edits.keepsMethods {k : Scope} {g g' : Graph} (narrow : k ≠ .whole) (e : Edits k g g') :
    g'.apis = g.apis ∧ g'.methods = g.methods ∧ g'.skipped = g.skipped :=
  e.keeps (P := fun m => m.apis = g.apis ∧ m.methods = g.methods ∧ m.skipped = g.skipped)
    (fun edit ⟨as, ms, ss⟩ => ⟨(edit.keepsMethods narrow).1.trans as,
      (edit.keepsMethods narrow).2.1.trans ms, (edit.keepsMethods narrow).2.2.trans ss⟩)
    ⟨rfl, rfl, rfl⟩

/- A new node `n` at `l`; the index forgets what it held there. -/
structure Makes (g : Graph) (n : NodeRef) (l : Location) (g' : Graph) : Prop where
  fresh : g.location? n = none
  here : g'.location? n = some l
  others : ∀ m, m ≠ n → g'.location? m = g.location? m
  index : g'.nodes = Entries.put l n g.nodes

structure SamePlaces (g g' : Graph) : Prop where
  places : g'.location? = g.location?
  index : g'.nodes = g.nodes

theorem appendedOther {α : Type} {xs : List α} {x : α} {i : Nat} (h : i ≠ xs.length) :
    (xs ++ [x])[i]? = xs[i]? := by
  rcases Nat.lt_or_gt_of_ne h with inside | outside
  · exact List.getElem?_append_left inside
  · rw [List.getElem?_eq_none (by simp; omega), List.getElem?_eq_none (by omega)]

theorem addSchemaMakes (g : Graph) (s : Schema) :
    Makes g (.schema (g.addSchema s).1) s.location (g.addSchema s).2 where
  fresh := by simp [location?, schema?, addSchema]
  here := by simp [location?, schema?, addSchema]
  others m ne := by
    cases m with
    | schema id =>
      have other : id.index ≠ g.schemas.length := fun h => ne (by cases id; cases h; rfl)
      simp [location?, schema?, addSchema, appendedOther other]
    | _ => rfl
  index := rfl

theorem addParameterMakes (g : Graph) (p : Parameter) :
    Makes g (.parameter (g.addParameter p).1) p.location (g.addParameter p).2 where
  fresh := by simp [location?, parameter?, addParameter]
  here := by simp [location?, parameter?, addParameter]
  others m ne := by
    cases m with
    | parameter id =>
      have other : id.index ≠ g.parameters.length := fun h => ne (by cases id; cases h; rfl)
      simp [location?, parameter?, addParameter, appendedOther other]
    | _ => rfl
  index := rfl

theorem addBodyMakes (g : Graph) (b : RequestBody) :
    Makes g (.body (g.addBody b).1) b.location (g.addBody b).2 where
  fresh := by simp [location?, body?, addBody]
  here := by simp [location?, body?, addBody]
  others m ne := by
    cases m with
    | body id =>
      have other : id.index ≠ g.bodies.length := fun h => ne (by cases id; cases h; rfl)
      simp [location?, body?, addBody, appendedOther other]
    | _ => rfl
  index := rfl

theorem addResponseMakes (g : Graph) (r : Response) :
    Makes g (.response (g.addResponse r).1) r.location (g.addResponse r).2 where
  fresh := by simp [location?, response?, addResponse]
  here := by simp [location?, response?, addResponse]
  others m ne := by
    cases m with
    | response id =>
      have other : id.index ≠ g.responses.length := fun h => ne (by cases id; cases h; rfl)
      simp [location?, response?, addResponse, appendedOther other]
    | _ => rfl
  index := rfl

theorem addApiMakes (g : Graph) (a : Api) :
    Makes g (.api (g.addApi a).1) a.location (g.addApi a).2 where
  fresh := by simp [location?, api?, addApi]
  here := by simp [location?, api?, addApi]
  others m ne := by
    cases m with
    | api id =>
      have other : id.index ≠ g.apis.length := fun h => ne (by cases id; cases h; rfl)
      simp [location?, api?, addApi, appendedOther other]
    | _ => rfl
  index := rfl

theorem addMethodMakes (g : Graph) (m : Method) :
    Makes g (.method (g.addMethod m).1) m.location (g.addMethod m).2 where
  fresh := by simp [location?, method?, addMethod]
  here := by simp [location?, method?, addMethod]
  others n ne := by
    cases n with
    | method id =>
      have other : id.index ≠ g.methods.length := fun h => ne (by cases id; cases h; rfl)
      simp [location?, method?, addMethod, appendedOther other]
    | _ => rfl
  index := rfl

theorem modifiedPlaces {α : Type} {xs : List α} {i j : Nat} {f : α → α} {place : α → Location}
    (same : ∀ x, place (f x) = place x) :
    ((xs.modify i f)[j]?).map place = (xs[j]?).map place := by
  rw [List.getElem?_modify]
  cases xs[j]? with
  | none => rfl
  | some x => by_cases h : i = j <;> simp [h, same]

theorem plantMakes (g : Graph) (s : Schema) :
    Makes g (.schema ⟨g.schemas.length⟩) s.location (g.plant s) := by
  unfold plant
  split
  · exact ⟨(addSchemaMakes g s).fresh, (addSchemaMakes g s).here, (addSchemaMakes g s).others, rfl⟩
  · exact addSchemaMakes g s

/- What an edit means for places: none changes, or a node is added that has no fellow in the index. -/
theorem Edit.effect {k : Scope} {g g' : Graph} (e : Edit k g g') :
    SamePlaces g g' ∨ ∃ n l, Makes g n l g' ∧
      ((∃ id, n = .method id) ∨ ∀ m, g.nodeAt l = some m → ¬ m.SameKind n) := by
  cases e with
  | schema s named free =>
    refine .inr ⟨_, _, plantMakes g s, .inr ?_⟩
    intro m held same
    cases m with
    | schema id => simp [schemaAt, held] at free
    | _ => exact same
  | parameter wide p free =>
    refine .inr ⟨_, _, addParameterMakes g p, .inr ?_⟩
    intro m held same
    cases m with
    | parameter id => exact free id held
    | _ => exact same
  | body wide b free =>
    refine .inr ⟨_, _, addBodyMakes g b, .inr ?_⟩
    intro m held same
    cases m with
    | body id => exact free id held
    | _ => exact same
  | response wide r free =>
    refine .inr ⟨_, _, addResponseMakes g r, .inr ?_⟩
    intro m held same
    cases m with
    | response id => exact free id held
    | _ => exact same
  | api a free =>
    refine .inr ⟨_, _, addApiMakes g a, .inr ?_⟩
    intro m held same
    cases m with
    | api id => exact free id held
    | _ => exact same
  | method m => exact .inr ⟨_, _, addMethodMakes g m, .inl ⟨_, rfl⟩⟩
  | fill id c =>
    refine .inl ⟨?_, rfl⟩
    funext n
    cases n with
    | schema j => exact modifiedPlaces fun _ => rfl
    | _ => rfl
  | carry wide id schema =>
    refine .inl ⟨?_, rfl⟩
    funext n
    cases n with
    | parameter j => exact modifiedPlaces fun _ => rfl
    | _ => rfl
  | file wide id schemas =>
    refine .inl ⟨?_, rfl⟩
    funext n
    cases n with
    | body j => exact modifiedPlaces fun _ => rfl
    | _ => rfl
  | settle wide id schemas hasAny =>
    refine .inl ⟨?_, rfl⟩
    funext n
    cases n with
    | response j => exact modifiedPlaces fun _ => rfl
    | _ => rfl
  | enlist api m =>
    refine .inl ⟨?_, rfl⟩
    funext n
    cases n with
    | api j => exact modifiedPlaces fun _ => rfl
    | _ => rfl
  | skip s =>
    refine .inl ⟨?_, rfl⟩
    funext n
    cases n <;> rfl

structure Indexed (g : Graph) : Prop where
  placed : ∀ {l n}, g.nodeAt l = some n → g.location? n = some l
  known : ∀ {n l}, g.location? n = some l → ∃ m, g.nodeAt l = some m

theorem emptyIndexed : Indexed empty where
  placed h := by simp [nodeAt, empty] at h
  known {n l} h := by
    cases n <;> simp [location?, empty, api?, method?, parameter?, body?, response?, schema?] at h

theorem Makes.indexed {g g' : Graph} {n : NodeRef} {l : Location} (made : Makes g n l g')
    (h : Indexed g) : Indexed g' where
  placed {k m} held := by
    by_cases at_ : k = l
    · subst k
      have : m = n := by simpa [nodeAt, made.index] using held.symm
      rw [this, made.here]
    · have before : g.nodeAt k = some m := by
        simpa [nodeAt, made.index, Entries.lookupPutOther at_] using held
      have stood := h.placed before
      have other : m ≠ n := by
        rintro rfl
        simp [made.fresh] at stood
      rw [made.others m other, stood]
  known {m k} stands := by
    by_cases at_ : k = l
    · exact ⟨n, by simp [nodeAt, made.index, at_]⟩
    · have other : m ≠ n := by
        rintro rfl
        exact at_ (Option.some.inj (stands.symm.trans made.here))
      rw [made.others m other] at stands
      obtain ⟨m', held⟩ := h.known stands
      exact ⟨m', by simpa [nodeAt, made.index, Entries.lookupPutOther at_] using held⟩

theorem SamePlaces.indexed {g g' : Graph} (same : SamePlaces g g') (h : Indexed g) :
    Indexed g' where
  placed held := by
    rw [same.places]
    exact h.placed (by simpa [nodeAt, same.index] using held)
  known stands := by
    rw [same.places] at stands
    obtain ⟨m, held⟩ := h.known stands
    exact ⟨m, by simpa [nodeAt, same.index] using held⟩

theorem Edits.indexed {k : Scope} {g g' : Graph} (e : Edits k g g') (h : Indexed g) :
    Indexed g' := by
  refine e.keeps (fun edit before => ?_) h
  rcases edit.effect with same | ⟨n, l, made, _⟩
  · exact same.indexed before
  · exact made.indexed before

theorem Edit.keepsLocation {k : Scope} {g g' : Graph} (e : Edit k g g') {n : NodeRef} {l : Location}
    (stands : g.location? n = some l) : g'.location? n = some l := by
  rcases e.effect with same | ⟨n', l', made, _⟩
  · rw [same.places, stands]
  · have other : n ≠ n' := by
      rintro rfl
      simp [made.fresh] at stands
    rw [made.others n other, stands]

theorem Edits.keepsLocation {k : Scope} {g g' : Graph} (e : Edits k g g') {n : NodeRef}
    {l : Location} (stands : g.location? n = some l) : g'.location? n = some l :=
  e.keeps (P := fun m => m.location? n = some l) (fun edit => edit.keepsLocation) stands

theorem prefixAt {α : Type} {xs ys : List α} (h : xs <+: ys) {i : Nat} {x : α}
    (found : xs[i]? = some x) : ys[i]? = some x := by
  obtain ⟨more, rfl⟩ := h
  obtain ⟨inside, _⟩ := List.getElem?_eq_some_iff.mp found
  rw [List.getElem?_append_left inside, found]

theorem modifiedKeeps {α : Type} {xs : List α} {x : α} {i j : Nat} {f : α → α} {P : α → α → Prop}
    (refl : P x x) (changed : P x (f x)) (held : xs[j]? = some x) :
    ∃ x', (xs.modify i f)[j]? = some x' ∧ P x x' := by
  rw [List.getElem?_modify, held]
  by_cases same : i = j
  · exact ⟨f x, by simp [same], changed⟩
  · exact ⟨x, by simp [same], refl⟩

def SameBody (b b' : RequestBody) : Prop :=
  b'.location = b.location ∧ b'.name = b.name ∧ b'.preferred = b.preferred

def SameResponse (r r' : Response) : Prop :=
  r'.location = r.location ∧ r'.preferred = r.preferred

theorem Edit.keepsBody {k : Scope} {g g' : Graph} (e : Edit k g g') {id : BodyId} {b : RequestBody}
    (held : g.body? id = some b) : ∃ b', g'.body? id = some b' ∧ SameBody b b' := by
  cases e with
  | schema s named free =>
    unfold plant
    split <;> exact ⟨b, held, rfl, rfl, rfl⟩
  | body wide b' free => exact ⟨b, prefixAt (List.prefix_append _ _) held, rfl, rfl, rfl⟩
  | file wide id' schemas => exact modifiedKeeps ⟨rfl, rfl, rfl⟩ ⟨rfl, rfl, rfl⟩ held
  | _ => exact ⟨b, held, rfl, rfl, rfl⟩

theorem Edit.keepsResponse {k : Scope} {g g' : Graph} (e : Edit k g g') {id : ResponseId}
    {r : Response} (held : g.response? id = some r) :
    ∃ r', g'.response? id = some r' ∧ SameResponse r r' := by
  cases e with
  | schema s named free =>
    unfold plant
    split <;> exact ⟨r, held, rfl, rfl⟩
  | response wide r' free => exact ⟨r, prefixAt (List.prefix_append _ _) held, rfl, rfl⟩
  | settle wide id' schemas hasAny => exact modifiedKeeps ⟨rfl, rfl⟩ ⟨rfl, rfl⟩ held
  | _ => exact ⟨r, held, rfl, rfl⟩

theorem Edit.keepsMethod {k : Scope} {g g' : Graph} (e : Edit k g g') {id : MethodId} {m : Method}
    (held : g.method? id = some m) : g'.method? id = some m := by
  cases e with
  | schema s named free =>
    unfold plant
    split <;> exact held
  | method m' => exact prefixAt (List.prefix_append _ _) held
  | _ => exact held

theorem Edits.keepsBody {k : Scope} {g g' : Graph} (e : Edits k g g') {id : BodyId}
    {b : RequestBody} (held : g.body? id = some b) :
    ∃ b', g'.body? id = some b' ∧ SameBody b b' := by
  refine e.keeps (P := fun m => ∃ b', m.body? id = some b' ∧ SameBody b b') ?_ ⟨b, held, rfl, rfl, rfl⟩
  intro _ _ edit before
  obtain ⟨b₁, found, loc, name, preferred⟩ := before
  obtain ⟨b₂, found', loc', name', preferred'⟩ := edit.keepsBody found
  exact ⟨b₂, found', loc'.trans loc, name'.trans name, preferred'.trans preferred⟩

theorem Edits.keepsResponse {k : Scope} {g g' : Graph} (e : Edits k g g') {id : ResponseId}
    {r : Response} (held : g.response? id = some r) :
    ∃ r', g'.response? id = some r' ∧ SameResponse r r' := by
  refine e.keeps (P := fun m => ∃ r', m.response? id = some r' ∧ SameResponse r r') ?_
    ⟨r, held, rfl, rfl⟩
  intro _ _ edit before
  obtain ⟨r₁, found, loc, preferred⟩ := before
  obtain ⟨r₂, found', loc', preferred'⟩ := edit.keepsResponse found
  exact ⟨r₂, found', loc'.trans loc, preferred'.trans preferred⟩

theorem Edits.keepsMethod {k : Scope} {g g' : Graph} (e : Edits k g g') {id : MethodId} {m : Method}
    (held : g.method? id = some m) : g'.method? id = some m :=
  e.keeps (P := fun n => n.method? id = some m) (fun edit => edit.keepsMethod) held

theorem Edits.keepsInput {k : Scope} {g g' : Graph} (e : Edits k g g') {i : MethodInput}
    {x : InputOutline} (held : g.inputOutline i = some x) : g'.inputOutline i = some x := by
  cases i with
  | parameter id =>
    obtain ⟨p, found, rfl⟩ := Option.map_eq_some_iff.mp held
    have stays := e.keepsLocation (n := .parameter id) (l := p.location) (by simp [location?, found])
    obtain ⟨p', found', placed⟩ := Option.map_eq_some_iff.mp stays
    simp [inputOutline, found', placed]
  | body id =>
    obtain ⟨b, found, rfl⟩ := Option.map_eq_some_iff.mp held
    obtain ⟨b', found', loc, name, preferred⟩ := e.keepsBody found
    simp [inputOutline, found', loc, name, preferred]

theorem schemaAtPlaced {g : Graph} (indexed : Indexed g) {l : Location} {id : SchemaId}
    (held : g.schemaAt l = some id) : ∃ s, g.schema? id = some s ∧ s.location = l := by
  have node : g.nodeAt l = some (.schema id) := by
    unfold schemaAt at held
    split at held
    · rename_i found
      cases held
      exact found
    · contradiction
  simpa [location?] using indexed.placed node

end Graph
end ApiGraph
