import ApiGraph.Proofs.LegacyTypes

/-! What matching schemas have in common. They are classified alike, and their children match one by
one; of their properties only those whose names take part in the comparison are known to. -/
namespace ApiGraph
open Json Classify

def Shape.bare : Shape → Shape
  | .leaf => .leaf
  | .array _ => .array none
  | .record r => .record ⟨[], r.required, match r.additional with
    | .allowed b => .allowed b
    | .schema _ => .allowed false⟩

def Shape.properties : Shape → List (String × SchemaId)
  | .record r => r.properties
  | _ => []

def Shape.others : Shape → Option SchemaId
  | .record r => match r.additional with
    | .schema id => some id
    | .allowed _ => none
  | _ => none

def Shape.items : Shape → Option SchemaId
  | .array items => items
  | _ => none

def Schema.classified (s : Schema) : Classified := ⟨s.baseType, s.format, s.nullable, s.shape.bare⟩

def Graph.Matches (g : Graph) (doc : Value) (a b : SchemaId) : Prop := g.schemasMatch doc a b = true

end ApiGraph

namespace ApiGraph.Build
open Json Agreement Resolve Classify ApiGraph.Graph

section Nodes
variable {doc v w : Value} {g : Graph} {s t : Schema} {a b : SchemaId} {l l' : Location}

theorem classifyPlace {c : Classified} (told : classify v l = .ok c) (l' : Location) :
    classify v l' = .ok c := by
  have types : ∀ {r}, declaredTypes v l = .ok r → declaredTypes v l' = .ok r := by
    intro r told
    unfold declaredTypes at told ⊢
    split at told
    · exact told
    · exact told
    · split at told
      · contradiction
      · rename_i short
        rw [if_neg short]
        exact told
    · contradiction
  unfold classify at told ⊢
  cases declared : declaredTypes v l with
  | error e => simp [declared, bind, Except.bind] at told
  | ok r =>
    rw [types declared]
    rw [declared] at told
    exact told

theorem classifyShape {c : Classified} (told : classify v l = .ok c) :
    c.shape.bare = c.shape ∧ ∀ r, c.shape = .record r →
      r.additional = .allowed ((v.boolAt? "additionalProperties").getD false) := by
  unfold classify at told
  cases declared : declaredTypes v l with
  | error e => simp [declared, bind, Except.bind] at told
  | ok types =>
    simp only [declared, bind, Except.bind, Except.ok.injEq] at told
    subst told
    simp only [shapeOf]
    split
    · exact ⟨rfl, fun r same => by cases same; rfl⟩
    · split
      · exact ⟨rfl, fun r same => by cases same⟩
      · exact ⟨rfl, fun r same => by cases same⟩

theorem mirrorsBare {nodes : List Schema} {c shape : Shape} (h : MirrorsShape doc nodes v l c shape)
    (bare : c.bare = c) (additional : ∀ r, c = .record r →
      r.additional = .allowed ((v.boolAt? "additionalProperties").getD false)) :
    shape.bare = c := by
  cases h with
  | leaf => rfl
  | array => exact bare
  | @record k r required _ others =>
    have told := additional k rfl
    rw [← bare]
    simp only [Shape.bare, required, Shape.record.injEq, RecordShape.mk.injEq, true_and]
    split at others
    · rename_i members held
      obtain ⟨id, same, _⟩ := others
      simp [same, told, Value.boolAt?, held, Value.bool?]
    · rw [others]

theorem Mirrors.classifies {nodes : List Schema} (h : Mirrors doc nodes s v) (l : Location) :
    classify v l = .ok s.classified := by
  obtain ⟨c, told, base, format, nullable, shape⟩ := h.classified
  obtain ⟨bare, additional⟩ := classifyShape told
  have same : s.classified = c := by
    rw [Schema.classified, base, format, nullable, mirrorsBare shape bare additional]
  exact same ▸ classifyPlace told l

theorem Mirrors.shaped {nodes : List Schema} (h : Mirrors doc nodes s v) :
    MirrorsShape doc nodes v s.location s.shape.bare s.shape := by
  obtain ⟨c, told, _, _, _, shape⟩ := h.classified
  obtain ⟨bare, additional⟩ := classifyShape told
  rwa [mirrorsBare shape bare additional]

theorem bareAdditional (shape : Shape) :
    ∀ r, shape.bare = .record r → ∃ b, r.additional = .allowed b := by
  intro r same
  cases shape with
  | record k =>
    cases same
    cases k.additional <;> exact ⟨_, rfl⟩
  | _ => cases same

theorem classifiedAlike {nodes : List Schema} (lawful : doc.lawful = true)
    (mirrors : Mirrors doc nodes s v) (mirrors' : Mirrors doc nodes t w) (h : agree v w = true) :
    s.classified = t.classified := by
  have told := mirrors.classifies .root
  have fits := Tree.lawfulAt lawful mirrors.located
  rw [agreeClassifies fits (Tree.lawfulAt lawful mirrors'.located) h, mirrors'.classifies] at told
  exact (Except.ok.inj told).symm

end Nodes

def Agrees (v w : Value) : Prop := agree v w = true

section Members
variable {doc v w : Value}

theorem agreeMember (lawful : v.lawful = true) (lawful' : w.lawful = true) (h : agree v w = true)
    {key : String} (typed : compared true key = true) (untyped : compared false key = true) :
    Option.Rel Agrees (v.get? key) (w.get? key) := by
  cases v with
  | obj xs =>
    cases w with
    | obj ys =>
      obtain ⟨once, _⟩ := Value.lawfulObject.mp lawful
      obtain ⟨once', _⟩ := Value.lawfulObject.mp lawful'
      rcases (agreeObject once once').mp h with ⟨_, _, _, _, _, pairs⟩ | ⟨_, _, pairs⟩
      · exact pairs key typed
      · exact pairs key untyped
    | _ => simp [agree, BEq.beq, Value.same] at h
  | _ => cases w <;> first | exact .none | simp [agree, BEq.beq, Value.same] at h

theorem refAgrees (lawful : v.lawful = true) (lawful' : w.lawful = true) (h : agree v w = true) :
    refOf v = refOf w :=
  surfaceBind (fun _ _ same => same.text)
    (relImp (fun _ _ => agreeSurface) (agreeMember lawful lawful' h (by decide) (by decide)))

theorem resolvedAgree (lawful : doc.lawful = true) {l : Location} (read : ReadAt doc v l)
    (fits : v.lawful = true) (fits' : w.lawful = true)
    (h : agree v w = true) {r r' : Resolved} (resolved : resolve doc v = .ok r)
    (resolved' : resolve doc w = .ok r') : agree r.value r'.value = true := by
  have same := refAgrees fits fits' h
  cases named : refOf v with
  | none =>
    cases (resolvePlain named).symm.trans resolved
    cases (resolvePlain (same ▸ named)).symm.trans resolved'
    exact h
  | some pointer =>
    have one : resolve doc w = resolve doc v := by simp only [resolve, named, ← same]
    cases resolved.symm.trans (one ▸ resolved')
    exact agreeRefl _ (Tree.lawfulAt lawful (resolvedAt read resolved))

end Members

/- Whether the property `name` of a schema takes part in comparisons: it does not if it begins with `$`
and is not `$ref`, nor if it is `type` or `format` while the property `type` is a text or a list, as if
the properties were a schema. -/
def takesPart (v : Value) (name : String) : Bool :=
  compared ((v.membersAt? "properties").bind normalType).isSome name

theorem propertiesAgree {v w : Value} (lawful : v.lawful = true) (lawful' : w.lawful = true)
    (h : agree v w = true) {name : String} (counts : takesPart v name = true) :
    (v.membersAt? "properties" = none ∧ w.membersAt? "properties" = none) ∨
    ∃ xs ys, v.get? "properties" = some (.obj xs) ∧ w.get? "properties" = some (.obj ys) ∧
      Option.Rel Agrees (xs.lookup name) (ys.lookup name) := by
  have fits : ∀ {u x : Value}, u.lawful = true → u.get? "properties" = some x → x.lawful = true :=
    fun {u x} fits held => Tree.lawfulAt (l := Location.root.child "properties") fits
      (Tree.childAt rfl held)
  have related : Option.Rel Agrees (v.get? "properties") (w.get? "properties") :=
    agreeMember lawful lawful' h (by decide) (by decide)
  simp only [takesPart, Value.membersAt?] at counts ⊢
  cases held : v.get? "properties" with
  | none =>
    rw [held] at related
    cases held' : w.get? "properties" with
    | none => exact .inl ⟨rfl, rfl⟩
    | some y =>
      rw [held'] at related
      cases related
  | some x =>
    rw [held] at related
    obtain ⟨y, held', agrees⟩ := relFrom related
    rw [held] at counts
    cases x with
    | obj xs =>
      cases y with
      | obj ys =>
        refine .inr ⟨xs, ys, rfl, held', ?_⟩
        obtain ⟨once, _⟩ := Value.lawfulObject.mp (fits lawful held)
        obtain ⟨once', _⟩ := Value.lawfulObject.mp (fits lawful' held')
        simp only [Option.bind_some, Value.members?] at counts
        rcases (agreeObject once once').mp agrees with ⟨_, _, typed, _, _, pairs⟩ | ⟨none, _, pairs⟩
        · exact pairs name (by simpa [typed] using counts)
        · exact pairs name (by simpa [none] using counts)
      | _ => simp [Agrees, agree, BEq.beq, Value.same] at agrees
    | _ => cases y <;> simp [Agrees, agree, BEq.beq, Value.same, held', Value.members?] at agrees ⊢

theorem zipIdxRel {α β : Type} {r : α → β → Prop} {xs : List α} {ys : List β}
    (h : List.Forall₂ r xs ys) (k : Nat) :
    List.Forall₂ (fun x y => x.2 = y.2 ∧ r x.1 y.1) (xs.zipIdx k) (ys.zipIdx k) := by
  induction h generalizing k with
  | nil => exact .nil
  | cons head _ ih => exact .cons ⟨rfl, head⟩ (ih (k + 1))

theorem memberStands {doc : Value} {nodes : List Schema} {place : Location} {members : Members}
    {ids : List (String × SchemaId)} (h : MirrorsMembers doc nodes place members ids) (name : String) :
    Option.Rel (fun x id => StandsFor doc nodes x (place.child name) id) (members.lookup name)
      (ids.lookup name) := by
  induction h with
  | nil => exact .none
  | @cons e e' _ _ head _ ih =>
    obtain ⟨key, x⟩ := e
    obtain ⟨key', id⟩ := e'
    obtain ⟨rfl, stands⟩ := head
    simp only [List.lookup_cons]
    by_cases same : name == key'
    · simp only [same]
      exact .some (eq_of_beq same ▸ stands)
    · simp only [same]
      exact ih

theorem othersStand {doc v : Value} {nodes : List Schema} {l : Location} {k r : RecordShape} {b : Bool}
    (allowed : k.additional = .allowed b)
    (h : match v.get? "additionalProperties" with
      | some (.obj members) => ∃ id, r.additional = .schema id ∧
          StandsFor doc nodes (.obj members) (l.child "additionalProperties") id
      | _ => r.additional = k.additional) :
    MirrorsOption doc nodes (l.child "additionalProperties") (additionalSchema (.record k) v)
      (Shape.record r).others := by
  simp only [additionalSchema, Shape.others]
  split at h
  · rename_i members held
    obtain ⟨id, same, stands⟩ := h
    simp only [held, same]
    exact stands
  · rename_i other
    simp only [h, allowed]
    split
    · rename_i held
      exact (other _ held).elim
    · trivial

theorem additionalAgree {v w : Value} (k : RecordShape)
    (h : Option.Rel Agrees (v.get? "additionalProperties") (w.get? "additionalProperties")) :
    Option.Rel Agrees (additionalSchema (.record k) v) (additionalSchema (.record k) w) := by
  simp only [additionalSchema]
  generalize v.get? "additionalProperties" = a at h
  generalize w.get? "additionalProperties" = b at h
  cases h with
  | none => exact .none
  | @some x y agrees =>
    cases x <;> cases y <;> first
      | exact .none
      | exact .some agrees
      | simp [Agrees, agree, BEq.beq, Value.same] at agrees

section Matching
variable {doc v w : Value} {g : Graph} {s t : Schema} {a b : SchemaId} {l l' : Location}
  (lawful : doc.lawful = true) (mirrored : ∀ s ∈ g.schemas, ∃ v, Mirrors doc g.schemas s v)
include mirrored

theorem mirrorsAt (held : g.schema? a = some s) (at_ : Tree.get? s.location doc = some v) :
    Mirrors doc g.schemas s v := by
  obtain ⟨x, mirrors⟩ := mirrored s (List.mem_of_getElem? held)
  cases mirrors.located.symm.trans at_
  exact mirrors

include lawful

theorem matchIff (held : g.schema? a = some s) (at_ : Tree.get? s.location doc = some v)
    (held' : g.schema? b = some t) (at' : Tree.get? t.location doc = some w) :
    g.schemasMatch doc a b = true ↔ agree v w = true := by
  have fits := Tree.lawfulAt lawful at_
  rw [schemasMatchIff]
  constructor
  · rintro (rfl | ⟨s', t', v', w', found, found', _, _, there, there', agrees⟩)
    · cases held.symm.trans held'
      cases at_.symm.trans at'
      exact agreeRefl v fits
    · cases held.symm.trans found
      cases held'.symm.trans found'
      cases at_.symm.trans there
      cases at'.symm.trans there'
      exact agrees
  · intro agrees
    have same := classifiedAlike lawful (mirrorsAt mirrored held at_) (mirrorsAt mirrored held' at')
      agrees
    exact .inr ⟨s, t, v, w, held, held', congrArg Classified.baseType same,
      congrArg Classified.format same, at_, at', agrees⟩

theorem childMatch (at_ : Tree.get? l doc = some v) (at' : Tree.get? l' doc = some w)
    (h : agree v w = true) (stands : StandsFor doc g.schemas v l a)
    (stands' : StandsFor doc g.schemas w l' b) : g.Matches doc a b := by
  obtain ⟨r, s, resolved, held, placed⟩ := stands
  obtain ⟨r', t, resolved', held', placed'⟩ := stands'
  have there := resolvedAt (readAt at_) resolved
  have there' := resolvedAt (readAt at') resolved'
  rw [← placed] at there
  rw [← placed'] at there'
  refine (matchIff lawful mirrored held there held' there').mpr ?_
  exact resolvedAgree lawful (readAt at_) (Tree.lawfulAt lawful at_) (Tree.lawfulAt lawful at') h
    resolved resolved'

theorem itemsMatch {key : String} {ids ids' : List SchemaId} (at_ : Tree.get? l doc = some v)
    (at' : Tree.get? l' doc = some w) (h : Option.Rel Agrees (v.get? key) (w.get? key))
    (items : MirrorsItems doc g.schemas v l key ids)
    (items' : MirrorsItems doc g.schemas w l' key ids') : List.Forall₂ (g.Matches doc) ids ids' := by
  have elements : List.Forall₂ Agrees ((v.itemsAt? key).getD []) ((w.itemsAt? key).getD []) := by
    simp only [Value.itemsAt?]
    generalize v.get? key = a at h
    generalize w.get? key = b at h
    cases h with
    | none => exact .nil
    | @some x y agrees =>
      cases x <;> cases y <;> simp only [Agrees, agree, agreeItemsIff] at agrees <;>
        first | exact .nil | exact agrees | simp [BEq.beq, Value.same] at agrees
  have there : ∀ {u : Value} {place : Location} {e : Value × Nat}, Tree.get? place doc = some u →
      e ∈ ((u.itemsAt? key).getD []).zipIdx →
      Tree.get? ((place.child key).child (toString e.2)) doc = some e.1 := by
    intro u place e at_ mem
    have found := List.mk_mem_zipIdx_iff_getElem?.mp mem
    cases listed : u.itemsAt? key with
    | none => simp [listed] at found
    | some xs =>
      rw [listed] at found
      exact Tree.itemAt at_ listed found
  have across : List.Forall₂ (fun (e : Value × Nat) id => ∃ x,
      Tree.get? ((l'.child key).child (toString e.2)) doc = some x ∧ Agrees e.1 x ∧
        StandsFor doc g.schemas x ((l'.child key).child (toString e.2)) id) _ ids' :=
    itemsTrans (zipIdxRel elements 0) items' fun e _ e' mem id _ same stands =>
      ⟨e'.1, same.1 ▸ there at' mem, same.2, same.1 ▸ stands⟩
  refine itemsTrans (itemsBack items fun _ _ _ _ => id) across ?_
  intro id _ e mem id' _ stands found
  obtain ⟨x, there', agrees, stands'⟩ := found
  exact childMatch lawful mirrored (there at_ mem) there' agrees stands stands'

theorem optionMatch {x y : Option Value} {id id' : Option SchemaId}
    (at_ : ∀ u, x = some u → Tree.get? l doc = some u)
    (at' : ∀ u, y = some u → Tree.get? l' doc = some u) (h : Option.Rel Agrees x y)
    (option : MirrorsOption doc g.schemas l x id) (option' : MirrorsOption doc g.schemas l' y id') :
    Option.Rel (g.Matches doc) id id' := by
  cases h with
  | none =>
    cases id <;> cases id' <;> simp only [MirrorsOption] at option option'
    exact .none
  | some agrees =>
    cases id <;> cases id' <;> simp only [MirrorsOption] at option option'
    exact .some (childMatch lawful mirrored (at_ _ rfl) (at' _ rfl) agrees option option')

theorem membersMatch {xs ys : Members} {ids ids' : List (String × SchemaId)} {name : String}
    (at_ : Tree.get? l doc = some (.obj xs)) (at' : Tree.get? l' doc = some (.obj ys))
    (h : Option.Rel Agrees (xs.lookup name) (ys.lookup name))
    (members : MirrorsMembers doc g.schemas l xs ids)
    (members' : MirrorsMembers doc g.schemas l' ys ids') :
    Option.Rel (g.Matches doc) (ids.lookup name) (ids'.lookup name) := by
  have across : Option.Rel (fun x id => ∃ y, Tree.get? (l'.child name) doc = some y ∧ Agrees x y ∧
      StandsFor doc g.schemas y (l'.child name) id) (xs.lookup name) (ids'.lookup name) :=
    relTrans h (memberStands members' name) fun x y id _ held' _ agrees stands =>
      ⟨y, Tree.childAt at' held', agrees, stands⟩
  refine relTrans (relBack (memberStands members name) fun _ _ _ _ => id) across ?_
  intro id x id' _ held _ stands found
  obtain ⟨y, there', agrees, stands'⟩ := found
  exact childMatch lawful mirrored (Tree.childAt at_ held) there' agrees stands stands'

theorem propertiesMatch {name : String} (at_ : Tree.get? l doc = some v)
    (at' : Tree.get? l' doc = some w) (h : agree v w = true) (counts : takesPart v name = true)
    {ids ids' : List (String × SchemaId)}
    (members : MirrorsMembers doc g.schemas (l.child "properties")
      ((v.membersAt? "properties").getD []) ids)
    (members' : MirrorsMembers doc g.schemas (l'.child "properties")
      ((w.membersAt? "properties").getD []) ids') :
    Option.Rel (g.Matches doc) (ids.lookup name) (ids'.lookup name) := by
  rcases propertiesAgree (Tree.lawfulAt lawful at_) (Tree.lawfulAt lawful at') h counts with
    ⟨none, none'⟩ | ⟨xs, ys, held, held', related⟩
  · rw [none] at members
    rw [none'] at members'
    cases members
    cases members'
    exact .none
  · simp only [Value.membersAt?, held, held', Option.bind_some, Value.members?,
      Option.getD_some] at members members'
    exact membersMatch lawful mirrored (Tree.childAt at_ held) (Tree.childAt at' held') related
      members members'

theorem shapesMatch {shape shape' : Shape} (at_ : Tree.get? l doc = some v)
    (at' : Tree.get? l' doc = some w) (h : agree v w = true)
    (mirrors : MirrorsShape doc g.schemas v l shape.bare shape)
    (mirrors' : MirrorsShape doc g.schemas w l' shape.bare shape') :
    (∀ name, takesPart v name = true →
      Option.Rel (g.Matches doc) (shape.properties.lookup name) (shape'.properties.lookup name)) ∧
    Option.Rel (g.Matches doc) shape.others shape'.others ∧
    Option.Rel (g.Matches doc) shape.items shape'.items := by
  have member : ∀ {key}, compared true key = true → compared false key = true →
      Option.Rel Agrees (v.get? key) (w.get? key) :=
    agreeMember (Tree.lawfulAt lawful at_) (Tree.lawfulAt lawful at') h
  have bare := bareAdditional shape
  generalize shape.bare = c at mirrors mirrors' bare
  cases mirrors with
  | leaf =>
    cases mirrors'
    exact ⟨fun _ _ => .none, .none, .none⟩
  | array _ element =>
    cases mirrors' with
    | array _ element' =>
      refine ⟨fun _ _ => .none, .none, ?_⟩
      exact optionMatch lawful mirrored (fun _ held => Tree.childAt at_ held)
        (fun _ held => Tree.childAt at' held) (member (by decide) (by decide)) element element'
  | @record k r _ properties additional =>
    cases mirrors' with
    | @record _ r' _ properties' additional' =>
      refine ⟨fun name counts =>
        propertiesMatch lawful mirrored at_ at' h counts properties properties', ?_, .none⟩
      obtain ⟨b, allowed⟩ := bare k rfl
      refine optionMatch lawful mirrored (fun _ held => Tree.childAt at_ (additionalSchemaSource held))
        (fun _ held => Tree.childAt at' (additionalSchemaSource held)) ?_
        (othersStand allowed additional) (othersStand allowed additional')
      exact additionalAgree k (member (by decide) (by decide))

end Matching

/- Of the one node and of the other everything is found that matches: what they say of themselves is
the same, and so are their children up to matches; the properties are as far as they take part. -/
structure Interchangeable (g : Graph) (doc : Value) (counts : String → Bool) (s t : Schema) :
    Prop where
  classified : s.classified = t.classified
  properties : ∀ name, counts name = true →
    Option.Rel (g.Matches doc) (s.shape.properties.lookup name) (t.shape.properties.lookup name)
  others : Option.Rel (g.Matches doc) s.shape.others t.shape.others
  items : Option.Rel (g.Matches doc) s.shape.items t.shape.items
  allOf : List.Forall₂ (g.Matches doc) s.allOf t.allOf
  oneOf : List.Forall₂ (g.Matches doc) s.oneOf t.oneOf
  anyOf : List.Forall₂ (g.Matches doc) s.anyOf t.anyOf
  not : Option.Rel (g.Matches doc) s.not t.not

section Interchange
variable {doc v w : Value} {g : Graph} {s t : Schema} {a b : SchemaId}

theorem agreeInterchange (lawful : doc.lawful = true)
    (mirrored : ∀ s ∈ g.schemas, ∃ v, Mirrors doc g.schemas s v)
    (mirrors : Mirrors doc g.schemas s v) (mirrors' : Mirrors doc g.schemas t w)
    (h : agree v w = true) : Interchangeable g doc (takesPart v) s t := by
  have at_ := mirrors.located
  have at' := mirrors'.located
  have member : ∀ {key}, compared true key = true → compared false key = true →
      Option.Rel Agrees (v.get? key) (w.get? key) :=
    agreeMember (Tree.lawfulAt lawful at_) (Tree.lawfulAt lawful at') h
  have classified := classifiedAlike lawful mirrors mirrors' h
  have shape' := mirrors'.shaped
  rw [← show s.shape.bare = t.shape.bare from congrArg Classified.shape classified] at shape'
  obtain ⟨properties, others, items⟩ := shapesMatch lawful mirrored at_ at' h mirrors.shaped shape'
  exact {
    classified := classified
    properties := properties
    others := others
    items := items
    allOf := itemsMatch lawful mirrored at_ at' (member (by decide) (by decide)) mirrors.allOf
      mirrors'.allOf
    oneOf := itemsMatch lawful mirrored at_ at' (member (by decide) (by decide)) mirrors.oneOf
      mirrors'.oneOf
    anyOf := itemsMatch lawful mirrored at_ at' (member (by decide) (by decide)) mirrors.anyOf
      mirrors'.anyOf
    not := optionMatch lawful mirrored (fun _ held => Tree.childAt at_ held)
      (fun _ held => Tree.childAt at' held) (member (by decide) (by decide)) mirrors.not
      mirrors'.not }

end Interchange

/- Matching schemas are interchangeable as far as their properties take part in the comparison. When
all the properties of both do, they have the same ones, with matching schemas. A schema that is not
listed because it is not new is interchangeable with one that is. -/
theorem matchingInterchange {c : Config} {doc doc' : Value} {g : Graph} (lawful : doc.lawful = true)
    (built : build c doc = (doc', .ok g)) :
    (∀ a b s t v, g.schema? a = some s → g.schema? b = some t → Tree.get? s.location doc' = some v →
      g.schemasMatch doc' a b = true → Interchangeable g doc' (takesPart v) s t ∧
        ((∀ name ∈ Entries.keys s.shape.properties ++ Entries.keys t.shape.properties,
          takesPart v name = true) → ∀ name, Option.Rel (g.Matches doc')
            (s.shape.properties.lookup name) (t.shape.properties.lookup name))) ∧
    ∀ cx seen id t, cx.doc = doc' → g.schema? id = some t → isNew cx g seen id = false →
      ∃ kept ∈ seen, ∃ s v, g.schema? kept = some s ∧ Tree.get? s.location doc' = some v ∧
        Interchangeable g doc' (takesPart v) s t := by
  have mirrored := fun s (mem : s ∈ g.schemas) => builtSchemas lawful built mem
  have lawful' := buildLawful lawful built
  have one : ∀ a b s t v, g.schema? a = some s → g.schema? b = some t →
      Tree.get? s.location doc' = some v → g.schemasMatch doc' a b = true →
      Interchangeable g doc' (takesPart v) s t := by
    intro a b s t v held held' at_ same
    obtain ⟨w, mirrors'⟩ := mirrored t (List.mem_of_getElem? held')
    have agrees := (matchIff lawful' mirrored held at_ held' mirrors'.located).mp same
    exact agreeInterchange lawful' mirrored (mirrorsAt mirrored held at_) mirrors' agrees
  refine ⟨fun a b s t v held held' at_ same => ⟨one a b s t v held held' at_ same, ?_⟩, ?_⟩
  · intro all name
    by_cases listed : name ∈ Entries.keys s.shape.properties ++ Entries.keys t.shape.properties
    · exact (one a b s t v held held' at_ same).properties name (all name listed)
    · rw [List.mem_append, not_or] at listed
      rw [Entries.lookupFresh fun e mem same => listed.1 (List.mem_map.mpr ⟨e, mem, same⟩),
        Entries.lookupFresh fun e mem same => listed.2 (List.mem_map.mpr ⟨e, mem, same⟩)]
      exact .none
  · rintro cx seen id t rfl held' known
    simp only [isNew, Bool.not_eq_eq_eq_not, Bool.not_false, List.any_eq_true] at known
    obtain ⟨kept, inside, same⟩ := known
    obtain ⟨s, v, held, at_⟩ : ∃ s v, g.schema? kept = some s ∧
        Tree.get? s.location cx.doc = some v := by
      rcases schemasMatchIff.mp same with rfl | ⟨s, _, v, _, held, _, _, _, at_, _⟩
      · obtain ⟨v, mirrors⟩ := mirrored t (List.mem_of_getElem? held')
        exact ⟨t, v, held', mirrors.located⟩
      · exact ⟨s, v, held, at_⟩
    exact ⟨kept, inside, s, v, held, at_, one kept id s t v held held' at_ same⟩

def eitherDocument (first second : Members) : Value :=
  let media (properties : Members) : Value :=
    .obj [("schema", .obj [("type", .str "object"), ("properties", .obj properties)])]
  .obj [
    ("tags", .arr [.obj [("name", .str "notes")]]),
    ("paths", .obj [("/notes", .obj [("get", .obj [
      ("tags", .arr [.str "notes"]), ("operationId", .str "listNotes"),
      ("responses", .obj [("200", .obj [("content", .obj [
        ("application/json", media first), ("text/plain", media second)])])])])])])]

def eitherPlace (media : String) (inside : List String) : Location :=
  ⟨["paths", "/notes", "get", "responses", "200", "content", media, "schema"] ++ inside⟩

def dated : Members := [("on", .obj [("type", .str "date")])]

def datedText : Members := [("on", .obj [("format", .str "date"), ("type", .str "string")])]

theorem datedInterchange : ∃ g s t v,
    build Config.default (eitherDocument dated datedText) = (eitherDocument dated datedText, .ok g) ∧
    g.schema? ⟨0⟩ = some s ∧ g.schema? ⟨2⟩ = some t ∧ s.location ≠ t.location ∧
    Tree.get? s.location (eitherDocument dated datedText) = some v ∧
    g.schemasMatch (eitherDocument dated datedText) ⟨0⟩ ⟨2⟩ = true ∧
    Interchangeable g (eitherDocument dated datedText) (takesPart v) s t := by
  have told : Declaration.declare Config.default (eitherDocument dated datedText) =
      .ok (eitherDocument dated datedText, 0) := by rfl
  obtain ⟨g, walked, first, second, same⟩ : ∃ g,
      graphOf Config.default (eitherDocument dated datedText) = .ok g ∧
      (g.schema? ⟨0⟩).map Schema.location = some (eitherPlace "application/json" []) ∧
      (g.schema? ⟨2⟩).map Schema.location = some (eitherPlace "text/plain" []) ∧
      g.schemasMatch (eitherDocument dated datedText) ⟨0⟩ ⟨2⟩ = true := by decide +kernel
  have built : build Config.default (eitherDocument dated datedText) =
      (eitherDocument dated datedText, .ok g) := by simp [build, told, walked]
  obtain ⟨s, held, place⟩ := Option.map_eq_some_iff.mp first
  obtain ⟨t, held', place'⟩ := Option.map_eq_some_iff.mp second
  obtain ⟨v, at_⟩ : ∃ v, Tree.get? s.location (eitherDocument dated datedText) = some v :=
    ⟨_, by rw [place]; rfl⟩
  exact ⟨g, s, t, v, built, held, held', by simp [place, place', eitherPlace], at_, same,
    ((matchingInterchange (by decide +kernel) built).1 _ _ s t v held held' at_ same).1⟩

def revised : Members :=
  [("id", .obj [("type", .str "string")]), ("$rev", .obj [("type", .str "string")])]

/- The second schema has one more property. It matches the first one, and is not listed. -/
theorem revisedLost : ∃ g s t, build Config.default (eitherDocument (revised.take 1) revised) =
      (eitherDocument (revised.take 1) revised, .ok g) ∧
    g.schema? ⟨0⟩ = some s ∧ g.schema? ⟨2⟩ = some t ∧
    g.schemasMatch (eitherDocument (revised.take 1) revised) ⟨0⟩ ⟨2⟩ = true ∧
    Entries.keys s.shape.properties = ["id"] ∧ Entries.keys t.shape.properties = ["id", "$rev"] ∧
    g.responses.map (·.schemas) = [[⟨0⟩]] := by
  have told : Declaration.declare Config.default (eitherDocument (revised.take 1) revised) =
      .ok (eitherDocument (revised.take 1) revised, 0) := by rfl
  obtain ⟨g, walked, first, second, same, listed⟩ : ∃ g,
      graphOf Config.default (eitherDocument (revised.take 1) revised) = .ok g ∧
      (g.schema? ⟨0⟩).map (fun s => Entries.keys s.shape.properties) = some ["id"] ∧
      (g.schema? ⟨2⟩).map (fun s => Entries.keys s.shape.properties) = some ["id", "$rev"] ∧
      g.schemasMatch (eitherDocument (revised.take 1) revised) ⟨0⟩ ⟨2⟩ = true ∧
      g.responses.map (·.schemas) = [[⟨0⟩]] := by decide +kernel
  obtain ⟨s, held, keys⟩ := Option.map_eq_some_iff.mp first
  obtain ⟨t, held', keys'⟩ := Option.map_eq_some_iff.mp second
  exact ⟨g, s, t, by simp [build, told, walked], held, held', same, keys, keys', listed⟩

end ApiGraph.Build
