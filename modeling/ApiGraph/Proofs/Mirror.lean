import ApiGraph.Proofs.Edits
import ApiGraph.Proofs.Resolution
import Mathlib.Data.List.Forall2

/-! Schema nodes as a mirror of the document. A node is finished when it says of itself what its
value says and when every schema declared in the value has a node, at the place where the reference
to it ends or else at its own. Of the other nodes this asks only where they are, so a finished node
stays finished while its neighbours are filled. -/
namespace ApiGraph.Build
open Json Resolve Classify ApiGraph.Graph

def StandsFor (doc : Value) (nodes : List Schema) (v : Value) (place : Location)
    (id : SchemaId) : Prop :=
  ∃ r s, Resolve.resolve doc v = .ok r ∧ nodes[id.index]? = some s ∧
    s.location = r.locationOr place

def MirrorsItems (doc : Value) (nodes : List Schema) (v : Value) (l : Location) (key : String)
    (ids : List SchemaId) : Prop :=
  List.Forall₂ (fun (e : Value × Nat) id =>
    StandsFor doc nodes e.1 ((l.child key).child (toString e.2)) id)
    ((v.itemsAt? key).getD []).zipIdx ids

def MirrorsOption (doc : Value) (nodes : List Schema) (place : Location) :
    Option Value → Option SchemaId → Prop
  | some v, some id => StandsFor doc nodes v place id
  | none, none => True
  | _, _ => False

def MirrorsMembers (doc : Value) (nodes : List Schema) (place : Location) (members : Members)
    (ids : List (String × SchemaId)) : Prop :=
  List.Forall₂ (fun e e' => e'.1 = e.1 ∧ StandsFor doc nodes e.2 (place.child e.1) e'.2) members ids

inductive MirrorsShape (doc : Value) (nodes : List Schema) (v : Value) (l : Location) :
    Shape → Shape → Prop
  | leaf (bare : v.membersAt? "properties" = none) : MirrorsShape doc nodes v l .leaf .leaf
  | array {unset items} (bare : v.membersAt? "properties" = none)
      (element : MirrorsOption doc nodes (l.child "items") (v.get? "items") items) :
      MirrorsShape doc nodes v l (.array unset) (.array items)
  | record {c r : RecordShape} (required : r.required = c.required)
      (properties : MirrorsMembers doc nodes (l.child "properties")
        ((v.membersAt? "properties").getD []) r.properties)
      (additional : match v.get? "additionalProperties" with
        | some (.obj members) => ∃ id, r.additional = .schema id ∧
            StandsFor doc nodes (.obj members) (l.child "additionalProperties") id
        | _ => r.additional = c.additional) :
      MirrorsShape doc nodes v l (.record c) (.record r)

structure Mirrors (doc : Value) (nodes : List Schema) (s : Schema) (v : Value) : Prop where
  located : Tree.get? s.location doc = some v
  plain : refOf v = none
  classified : ∃ c, classify v s.location = .ok c ∧ s.baseType = c.baseType ∧
    s.format = c.format ∧ s.nullable = c.nullable ∧
    MirrorsShape doc nodes v s.location c.shape s.shape
  title : s.title = v.textAt? "title"
  allOf : MirrorsItems doc nodes v s.location "allOf" s.allOf
  oneOf : MirrorsItems doc nodes v s.location "oneOf" s.oneOf
  anyOf : MirrorsItems doc nodes v s.location "anyOf" s.anyOf
  not : MirrorsOption doc nodes (s.location.child "not") (v.get? "not") s.not

/- All that a finished node asks of the other nodes is that they stay where they are. -/
def KeepsPlaces (nodes nodes' : List Schema) : Prop :=
  ∀ (i : Nat) (s : Schema), nodes[i]? = some s →
    ∃ s' : Schema, nodes'[i]? = some s' ∧ s'.location = s.location

theorem KeepsPlaces.refl (nodes : List Schema) : KeepsPlaces nodes nodes :=
  fun _ s found => ⟨s, found, rfl⟩

theorem KeepsPlaces.trans {nodes nodes' nodes'' : List Schema} (h : KeepsPlaces nodes nodes')
    (h' : KeepsPlaces nodes' nodes'') : KeepsPlaces nodes nodes'' := by
  intro i s found
  obtain ⟨s', found', same⟩ := h i s found
  obtain ⟨s'', found'', same'⟩ := h' i s' found'
  exact ⟨s'', found'', same'.trans same⟩

section Monotone
variable {doc v : Value} {nodes nodes' : List Schema} {place : Location}

theorem StandsFor.mono (keeps : KeepsPlaces nodes nodes') {id : SchemaId}
    (h : StandsFor doc nodes v place id) : StandsFor doc nodes' v place id := by
  obtain ⟨r, s, resolved, found, same⟩ := h
  obtain ⟨s', found', same'⟩ := keeps _ _ found
  exact ⟨r, s', resolved, found', same'.trans same⟩

theorem MirrorsItems.mono (keeps : KeepsPlaces nodes nodes') {key : String} {ids : List SchemaId}
    (h : MirrorsItems doc nodes v place key ids) : MirrorsItems doc nodes' v place key ids :=
  List.Forall₂.imp (fun _ _ => StandsFor.mono keeps) h

theorem MirrorsOption.mono (keeps : KeepsPlaces nodes nodes') {x : Option Value}
    {id : Option SchemaId} (h : MirrorsOption doc nodes place x id) :
    MirrorsOption doc nodes' place x id := by
  cases x <;> cases id <;> simp only [MirrorsOption] at h ⊢
  exact h.mono keeps

theorem MirrorsMembers.mono (keeps : KeepsPlaces nodes nodes') {members : Members}
    {ids : List (String × SchemaId)} (h : MirrorsMembers doc nodes place members ids) :
    MirrorsMembers doc nodes' place members ids :=
  List.Forall₂.imp (fun _ _ e => ⟨e.1, e.2.mono keeps⟩) h

theorem MirrorsShape.mono (keeps : KeepsPlaces nodes nodes') {c s : Shape}
    (h : MirrorsShape doc nodes v place c s) : MirrorsShape doc nodes' v place c s := by
  cases h with
  | leaf bare => exact .leaf bare
  | array bare element => exact .array bare (element.mono keeps)
  | record required properties additional =>
    refine .record required (properties.mono keeps) ?_
    split at additional
    · obtain ⟨id, same, stands⟩ := additional
      exact ⟨id, same, stands.mono keeps⟩
    · exact additional

theorem Mirrors.mono (keeps : KeepsPlaces nodes nodes') {s : Schema} (h : Mirrors doc nodes s v) :
    Mirrors doc nodes' s v where
  located := h.located
  plain := h.plain
  classified := by
    obtain ⟨c, eq, base, format, nullable, shape⟩ := h.classified
    exact ⟨c, eq, base, format, nullable, shape.mono keeps⟩
  title := h.title
  allOf := h.allOf.mono keeps
  oneOf := h.oneOf.mono keeps
  anyOf := h.anyOf.mono keeps
  not := h.not.mono keeps

end Monotone

theorem prefixKeepsPlaces {nodes nodes' : List Schema} (h : nodes <+: nodes') :
    KeepsPlaces nodes nodes' :=
  fun _ s found => ⟨s, prefixAt h found, rfl⟩

theorem fillKeepsPlaces (nodes : List Schema) (i : Nat) (c : Children) :
    KeepsPlaces nodes (nodes.modify i (·.withChildren c)) := by
  intro j s found
  rw [List.getElem?_modify, found]
  by_cases h : i = j <;> simp [h]

structure MirrorsChildren (doc : Value) (nodes : List Schema) (shape : Shape) (v : Value)
    (l : Location) (c : Children) : Prop where
  allOf : MirrorsItems doc nodes v l "allOf" c.allOf
  oneOf : MirrorsItems doc nodes v l "oneOf" c.oneOf
  anyOf : MirrorsItems doc nodes v l "anyOf" c.anyOf
  not : MirrorsOption doc nodes (l.child "not") (v.get? "not") c.not
  record : v.membersAt? "properties" = none ∨ ∃ r, shape = .record r
  properties : MirrorsMembers doc nodes (l.child "properties")
    ((v.membersAt? "properties").getD []) c.properties
  additional : MirrorsOption doc nodes (l.child "additionalProperties")
    (additionalSchema shape v) c.additional
  items : MirrorsOption doc nodes (l.child "items") (itemsSchema shape v) c.items

section Filling
variable {doc v : Value} {nodes : List Schema} {l : Location} {shape : Shape} {c : Children}

theorem filledShapeMirrors (h : MirrorsChildren doc nodes shape v l c) :
    MirrorsShape doc nodes v l shape (filledShape c.properties c.additional c.items shape) := by
  cases shape with
  | leaf =>
    rcases h.record with bare | ⟨r, impossible⟩
    · exact .leaf bare
    · contradiction
  | array unset =>
    rcases h.record with bare | ⟨r, impossible⟩
    · exact .array bare h.items
    · contradiction
  | record r =>
    refine .record rfl h.properties ?_
    have additional := h.additional
    simp only [additionalSchema] at additional
    split
    · rename_i members held
      rw [held] at additional
      cases id : c.additional with
      | none => simp [MirrorsOption, id] at additional
      | some id' => exact ⟨id', by simp, by simpa [MirrorsOption, id] using additional⟩
    · rename_i other
      split at additional
      · rename_i members held
        exact (other _ held).elim
      · cases id : c.additional with
        | none => rfl
        | some id' => simp [MirrorsOption, id] at additional

theorem newSchemaMirrors {classified : Classified} {name : Option String}
    (at_ : Tree.get? l doc = some v) (plain : refOf v = none)
    (told : classify v l = .ok classified)
    (h : MirrorsChildren doc nodes classified.shape v l c) :
    Mirrors doc nodes ((newSchema classified v l name).withChildren c) v where
  located := at_
  plain := plain
  classified := ⟨classified, told, rfl, rfl, rfl, filledShapeMirrors h⟩
  title := rfl
  allOf := h.allOf
  oneOf := h.oneOf
  anyOf := h.anyOf
  not := h.not

end Filling
end ApiGraph.Build
