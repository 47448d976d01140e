import ApiGraph.Proofs.Mirror
import ApiGraph.Proofs.Runs

/-! Walks through schemas. Such a walk leaves the nodes that it found and finishes all that it adds,
also where it meets a node that is still being filled. -/
namespace ApiGraph.Build
open Json Resolve Classify ApiGraph.Graph

structure Adds {α : Type} (nodes : Graph → List α) (P : Graph → α → Prop) (g g' : Graph) :
    Prop where
  kept : nodes g <+: nodes g'
  fresh : Indexed g → ∀ i x, (nodes g).length ≤ i → (nodes g')[i]? = some x → P g' x

namespace Adds
variable {α : Type} {nodes : Graph → List α} {P : Graph → α → Prop} {g m g' : Graph}

theorem none (same : nodes g' = nodes g) : Adds nodes P g g' where
  kept := same ▸ List.prefix_refl _
  fresh _ i x outside found := by
    rw [same, List.getElem?_eq_none outside] at found
    contradiction

theorem trans (h : Adds nodes P g m) (h' : Adds nodes P m g') (indexed : Indexed g → Indexed m)
    (mono : ∀ {x}, P m x → P g' x) : Adds nodes P g g' where
  kept := h.kept.trans h'.kept
  fresh start i x outside found := by
    by_cases old : i < (nodes m).length
    · have before : (nodes m)[i]? = some x := by
        obtain ⟨more, eq⟩ := h'.kept
        rw [← eq, List.getElem?_append_left old] at found
        exact found
      exact mono (h.fresh start i x outside before)
    · exact h'.fresh (indexed start) i x (by omega) found

theorem source (h : Adds nodes P g g') (indexed : Indexed g) {x : α} (mem : x ∈ nodes g') :
    x ∈ nodes g ∨ P g' x := by
  obtain ⟨i, found⟩ := List.getElem?_of_mem mem
  by_cases old : i < (nodes g).length
  · obtain ⟨more, eq⟩ := h.kept
    rw [← eq, List.getElem?_append_left old] at found
    exact .inl (List.mem_of_getElem? found)
  · exact .inr (h.fresh indexed i x (by omega) found)

end Adds

structure Grows (k : Scope) (doc : Value) (g g' : Graph) : Prop where
  edits : Edits k g g'
  schemas : Adds Graph.schemas (fun g s => ∃ v, Mirrors doc g.schemas s v) g g'

namespace Grows
variable {k : Scope} {doc : Value} {g g' g'' : Graph}

theorem keepsPlaces (h : Grows k doc g g') : KeepsPlaces g.schemas g'.schemas :=
  prefixKeepsPlaces h.schemas.kept

theorem indexed (h : Grows k doc g g') (before : Indexed g) : Indexed g' := h.edits.indexed before

theorem refl (g : Graph) : Grows k doc g g := ⟨.refl, .none rfl⟩

theorem trans (h : Grows k doc g g') (h' : Grows k doc g' g'') : Grows k doc g g'' where
  edits := h.edits.trans h'.edits
  schemas := h.schemas.trans h'.schemas h.indexed
    fun ⟨v, mirrors⟩ => ⟨v, mirrors.mono h'.keepsPlaces⟩

theorem widen {k' : Scope} (within : k.Within k') (h : Grows k doc g g') : Grows k' doc g g' :=
  ⟨h.edits.widen within, h.schemas⟩

theorem edit (e : Edit k g g') (same : g'.schemas = g.schemas) : Grows k doc g g' :=
  ⟨.single e, .none same⟩

end Grows

theorem Runs.grows {k : Scope} {doc : Value} {α β : Type} {f : α → Walk β}
    {P : List Schema → α → β → Prop} {xs : List α} {ys : List β} {g g' : Graph}
    (runs : Runs f xs g ys g')
    (mono : ∀ {nodes nodes' x y}, KeepsPlaces nodes nodes' → P nodes x y → P nodes' x y)
    (each : ∀ x ∈ xs, ∀ {g y g'}, f x g = .ok (y, g') →
      Grows k doc g g' ∧ (Indexed g → P g'.schemas x y)) :
    Grows k doc g g' ∧ (Indexed g → List.Forall₂ (P g'.schemas) xs ys) := by
  induction runs with
  | nil g => exact ⟨.refl g, fun _ => .nil⟩
  | cons head tail ih =>
    obtain ⟨first, holds⟩ := each _ List.mem_cons_self head
    obtain ⟨rest, all⟩ := ih fun x mem _ _ _ => each x (List.mem_cons_of_mem _ mem)
    refine ⟨first.trans rest, fun indexed => ?_⟩
    exact .cons (mono rest.keepsPlaces (holds indexed)) (all (first.indexed indexed))

def Visits (doc : Value) (visit : Value → Location → Walk SchemaId) : Prop :=
  ∀ {v l g id g'}, ReadAt doc v l → visit v l g = .ok (id, g') →
    Grows .schemas doc g g' ∧ (Indexed g → StandsFor doc g'.schemas v l id)

section Visiting
variable {doc : Value} {visit : Value → Location → Walk SchemaId} {g g' : Graph}
  {schema : Value} {l : Location}

theorem visitItemsGrows (visits : Visits doc visit)
    (at_ : Tree.get? l doc = some schema) {key : String} {ids : List SchemaId}
    (run : visitItems visit schema l key g = .ok (ids, g')) :
    Grows .schemas doc g g' ∧ (Indexed g → MirrorsItems doc g'.schemas schema l key ids) := by
  refine (runMapM.mp run).grows
    (P := fun nodes e id => StandsFor doc nodes e.1 ((l.child key).child (toString e.2)) id)
    ?_ ?_
  · intro _ _ _ _ keeps stands
    exact stands.mono keeps
  · rintro ⟨x, i⟩ mem _ _ _ one
    have found := List.mk_mem_zipIdx_iff_getElem?.mp mem
    cases held : schema.itemsAt? key with
    | none => simp [held] at found
    | some items =>
      rw [held] at found
      exact visits (readAt (Tree.itemAt at_ held found)) one

theorem visitOptionGrows (visits : Visits doc visit) {key : String} {x : Option Value}
    {id : Option SchemaId} (read : ∀ v, x = some v → Tree.get? (l.child key) doc = some v)
    (run : visitOption visit l key x g = .ok (id, g')) :
    Grows .schemas doc g g' ∧ (Indexed g → MirrorsOption doc g'.schemas (l.child key) x id) := by
  cases x with
  | none =>
    obtain ⟨rfl, rfl⟩ := runPure.mp run
    exact ⟨.refl _, fun _ => trivial⟩
  | some v =>
    simp only [visitOption, runBind, runPure] at run
    obtain ⟨made, m, one, rfl, rfl⟩ := run
    exact visits (readAt (read v rfl)) one

theorem visitMembersGrows (visits : Visits doc visit) {key : String} {members : Members}
    {ids : List (String × SchemaId)}
    (read : ∀ e ∈ members, Tree.get? ((l.child key).child e.1) doc = some e.2)
    (run : visitMembers visit l key members g = .ok (ids, g')) :
    Grows .schemas doc g g' ∧
      (Indexed g → MirrorsMembers doc g'.schemas (l.child key) members ids) := by
  refine (runMapM.mp run).grows
    (P := fun nodes e e' => e'.1 = e.1 ∧ StandsFor doc nodes e.2 ((l.child key).child e.1) e'.2)
    ?_ ?_
  · intro _ _ _ _ keeps e
    exact ⟨e.1, e.2.mono keeps⟩
  · rintro ⟨name, x⟩ mem _ _ _ one
    simp only [runBind, runPure] at one
    obtain ⟨id, m, visited, rfl, rfl⟩ := one
    obtain ⟨grows, stands⟩ := visits (readAt (read _ mem)) visited
    exact ⟨grows, fun indexed => ⟨rfl, stands indexed⟩⟩

theorem visitPropertiesGrows (lawful : doc.lawful = true) (visits : Visits doc visit)
    (at_ : Tree.get? l doc = some schema) {shape : Shape} {ids : List (String × SchemaId)}
    (run : visitProperties visit shape schema l g = .ok (ids, g')) :
    Grows .schemas doc g g' ∧
      (schema.membersAt? "properties" = none ∨ ∃ r, shape = .record r) ∧
      (Indexed g → MirrorsMembers doc g'.schemas (l.child "properties")
        ((schema.membersAt? "properties").getD []) ids) := by
  cases held : schema.membersAt? "properties" with
  | none =>
    simp only [visitProperties, held, runPure] at run
    obtain ⟨rfl, rfl⟩ := run
    exact ⟨.refl _, .inl rfl, fun _ => .nil⟩
  | some members =>
    cases shape with
    | record r =>
      simp only [visitProperties, held] at run
      obtain ⟨grows, mirrors⟩ := visitMembersGrows visits
        (fun e mem => Tree.memberAt lawful at_ held mem) run
      exact ⟨grows, .inr ⟨r, rfl⟩, mirrors⟩
    | leaf => simp only [visitProperties, held, runThrow] at run
    | array unset => simp only [visitProperties, held, runThrow] at run

theorem additionalSchemaSource {shape : Shape} {x : Value}
    (h : additionalSchema shape schema = some x) :
    schema.get? "additionalProperties" = some x := by
  unfold additionalSchema at h
  split at h
  · rename_i found
    rw [found, h]
  · contradiction

theorem itemsSchemaSource {shape : Shape} {x : Value} (h : itemsSchema shape schema = some x) :
    schema.get? "items" = some x := by
  unfold itemsSchema at h
  split at h
  · exact h
  · contradiction

theorem fillSchemaGrows (lawful : doc.lawful = true) (visits : Visits doc visit)
    (at_ : Tree.get? l doc = some schema) {id : SchemaId} {shape : Shape} {u : PUnit}
    (run : fillSchema visit id shape schema l g = .ok (u, g')) :
    ∃ c m, Grows .schemas doc g m ∧ g' = m.setSchema id (·.withChildren c) ∧
      (Indexed g → MirrorsChildren doc m.schemas shape schema l c) := by
  simp only [fillSchema, runBind, runModify] at run
  obtain ⟨allOf, g₁, run₁, oneOf, g₂, run₂, anyOf, g₃, run₃, not, g₄, run₄, properties, g₅, run₅,
    additional, g₆, run₆, items, g₇, run₇, rfl⟩ := run
  obtain ⟨grows₁, mirror₁⟩ := visitItemsGrows visits at_ run₁
  obtain ⟨grows₂, mirror₂⟩ := visitItemsGrows visits at_ run₂
  obtain ⟨grows₃, mirror₃⟩ := visitItemsGrows visits at_ run₃
  obtain ⟨grows₄, mirror₄⟩ := visitOptionGrows visits (fun v held => Tree.childAt at_ held) run₄
  obtain ⟨grows₅, record, mirror₅⟩ := visitPropertiesGrows lawful visits at_ run₅
  obtain ⟨grows₆, mirror₆⟩ := visitOptionGrows visits
    (fun v held => Tree.childAt at_ (additionalSchemaSource held)) run₆
  obtain ⟨grows₇, mirror₇⟩ := visitOptionGrows visits
    (fun v held => Tree.childAt at_ (itemsSchemaSource held)) run₇
  have from₆ := grows₇
  have from₅ := grows₆.trans from₆
  have from₄ := grows₅.trans from₅
  have from₃ := grows₄.trans from₄
  have from₂ := grows₃.trans from₃
  have from₁ := grows₂.trans from₂
  refine ⟨⟨allOf, oneOf, anyOf, not, properties, additional, items⟩, g₇, grows₁.trans from₁, rfl,
    fun indexed => ?_⟩
  have indexed₁ := grows₁.indexed indexed
  have indexed₂ := grows₂.indexed indexed₁
  have indexed₃ := grows₃.indexed indexed₂
  have indexed₄ := grows₄.indexed indexed₃
  have indexed₅ := grows₅.indexed indexed₄
  have indexed₆ := grows₆.indexed indexed₅
  exact {
    allOf := (mirror₁ indexed).mono from₁.keepsPlaces
    oneOf := (mirror₂ indexed₁).mono from₂.keepsPlaces
    anyOf := (mirror₃ indexed₂).mono from₃.keepsPlaces
    not := (mirror₄ indexed₃).mono from₄.keepsPlaces
    record := record
    properties := (mirror₅ indexed₄).mono from₅.keepsPlaces
    additional := (mirror₆ indexed₅).mono from₆.keepsPlaces
    items := mirror₇ indexed₆ }

end Visiting

theorem runSchemaNode {cx : Setting} {steps : Nat} {v : Value} {place : Location} {g g' : Graph}
    {id : SchemaId} :
    schemaNode cx (steps + 1) v place g = .ok (id, g') ↔
      ∃ r, Resolve.resolve cx.doc v = .ok r ∧
        ((g.schemaAt (r.locationOr place) = some id ∧ g' = g) ∨
          (g.schemaAt (r.locationOr place) = none ∧ ∃ c,
            classify r.value (r.locationOr place) = .ok c ∧ id = ⟨g.schemas.length⟩ ∧
            fillSchema (schemaNode cx steps) id c.shape r.value (r.locationOr place)
              (g.plant (newSchema c r.value (r.locationOr place)
                (r.location?.bind Location.last?))) = .ok ((), g'))) := by
  simp only [schemaNode, runBind, runResolve, runGet]
  constructor
  · intro run
    obtain ⟨r, _, ⟨resolved, rfl⟩, _, m, ⟨rfl, rfl⟩, rest⟩ := run
    refine ⟨r, resolved, ?_⟩
    cases held : m.schemaAt (r.locationOr place) with
    | some old =>
      simp only [held, runPure] at rest
      obtain ⟨rfl, rfl⟩ := rest
      exact .inl ⟨rfl, rfl⟩
    | none =>
      simp only [held, runBind, runLift, mapErrorOk, runGet, runSet, runPure] at rest
      obtain ⟨c, _, ⟨told, rfl⟩, _, _, ⟨rfl, rfl⟩, _, _, rfl, _, m', filled, rfl, rfl⟩ := rest
      exact .inr ⟨rfl, c, told, rfl, filled⟩
  · rintro ⟨r, resolved, ⟨held, rfl⟩ | ⟨held, c, told, rfl, filled⟩⟩
    · exact ⟨r, _, ⟨resolved, rfl⟩, _, _, ⟨rfl, rfl⟩, by simp only [held, runPure, and_self]⟩
    · refine ⟨r, _, ⟨resolved, rfl⟩, _, _, ⟨rfl, rfl⟩, ?_⟩
      simp only [held, runBind, runLift, mapErrorOk, runGet, runSet, runPure]
      exact ⟨c, _, ⟨told, rfl⟩, _, _, ⟨rfl, rfl⟩, (), _, rfl, (), _, filled, rfl, rfl⟩

theorem plantSchemas (g : Graph) (s : Schema) : (g.plant s).schemas = g.schemas ++ [s] := by
  unfold plant
  split <;> rfl

theorem modifyMiddle {α : Type} (xs more : List α) (x : α) (f : α → α) :
    (xs ++ x :: more).modify xs.length f = xs ++ f x :: more := by
  induction xs with
  | nil => rfl
  | cons y ys ih => simpa using ih

theorem newSchemaNamed {c : Classified} {r : Resolved} {place : Location} :
    (newSchema c r.value (r.locationOr place) (r.location?.bind Location.last?)).Named := by
  intro name told
  obtain ⟨l, target, last⟩ := Option.bind_eq_some_iff.mp told
  obtain ⟨pointer, _, rfl⟩ := Option.map_eq_some_iff.mp target
  have there : r.locationOr place = .ofPointer pointer := by
    simp [Resolved.locationOr, target]
  exact ⟨there ▸ Location.ofPointerSpelled pointer, there ▸ last⟩

theorem schemaNodeVisits {cx : Setting} (lawful : cx.doc.lawful = true) (steps : Nat) :
    Visits cx.doc (schemaNode cx steps) := by
  induction steps with
  | zero =>
    intro _ _ _ _ _ _ run
    exact (runThrow.mp run).elim
  | succ steps ih =>
    intro v place g id g' read run
    obtain ⟨r, resolved, ⟨held, rfl⟩ | ⟨free, c, told, rfl, filled⟩⟩ := runSchemaNode.mp run
    · refine ⟨.refl _, fun indexed => ?_⟩
      obtain ⟨s, found, placed⟩ := schemaAtPlaced indexed held
      exact ⟨r, s, resolved, found, placed⟩
    · have at_ := resolvedAt read resolved
      obtain ⟨children, m, grows, rfl, mirrors⟩ := fillSchemaGrows lawful ih at_ filled
      have planted := Edit.schema (k := .schemas) (newSchema c r.value (r.locationOr place)
        (r.location?.bind Location.last?)) newSchemaNamed free
      generalize entry : newSchema c r.value (r.locationOr place)
        (r.location?.bind Location.last?) = s at grows mirrors planted
      -- the node stands between the old ones and those its children add
      obtain ⟨more, split⟩ := grows.schemas.kept
      rw [plantSchemas, List.append_assoc, List.singleton_append] at split
      have after : (m.setSchema ⟨g.schemas.length⟩ (·.withChildren children)).schemas =
          g.schemas ++ s.withChildren children :: more := by
        simp [setSchema, ← split, modifyMiddle]
      have keeps := fillKeepsPlaces m.schemas g.schemas.length children
      refine ⟨⟨?_, ?_, ?_⟩, fun indexed => ?_⟩
      · exact (Relation.ReflTransGen.head planted grows.edits).tail (.fill _ _)
      · exact after ▸ List.prefix_append _ _
      · intro indexed i s' outside found
        have indexed' := Edits.indexed (.single planted) indexed
        rcases Nat.eq_or_lt_of_le outside with own | later
        · have same : s.withChildren children = s' := by simpa [after, ← own] using found
          rw [← same, ← entry]
          exact ⟨_, (newSchemaMirrors at_ (resolvedPlain resolved) told (mirrors indexed')).mono keeps⟩
        · have before : m.schemas[i]? = some s' := by
            simpa [setSchema, Nat.ne_of_lt later] using found
          have beyond : (g.plant s).schemas.length ≤ i := by
            simp only [plantSchemas, List.length_append, List.length_singleton]
            omega
          obtain ⟨v', finished⟩ := grows.schemas.fresh indexed' i s' beyond before
          exact ⟨v', finished.mono keeps⟩
      · exact ⟨r, s.withChildren children, resolved, by simp [after], by simp [← entry, newSchema]⟩

theorem schemaAtVisits {cx : Setting} (lawful : cx.doc.lawful = true) :
    Visits cx.doc (schemaAt cx) := schemaNodeVisits lawful cx.bound

/- A schema of the document is visited, where it stands or as if referred to. -/
inductive Trip (cx : Setting) : Graph → Graph → Prop
  | visit {g g' v place id} (at_ : Tree.get? place cx.doc = some v)
      (run : schemaAt cx v place g = .ok (id, g')) : Trip cx g g'
  | register {g g' l id} (run : registerType cx l g = .ok (id, g')) : Trip cx g g'

def Trips (cx : Setting) : Graph → Graph → Prop := Relation.ReflTransGen (Trip cx)

section Carrying
variable {cx : Setting} {g g' g'' : Graph} {v : Value} {l : Location}

theorem Trips.refl (g : Graph) : Trips cx g g := Relation.ReflTransGen.refl

theorem Trips.trans (h : Trips cx g g') (h' : Trips cx g' g'') : Trips cx g g'' :=
  Relation.ReflTransGen.trans h h'

theorem Trip.grows (lawful : cx.doc.lawful = true) (h : Trip cx g g') :
    Grows .schemas cx.doc g g' := by
  cases h with
  | visit at_ run => exact (schemaAtVisits lawful (readAt at_) run).1
  | @register l _ run => exact (schemaAtVisits lawful (readReference cx.doc l.toPointer l) run).1

theorem Trips.grows (lawful : cx.doc.lawful = true) (h : Trips cx g g') :
    Grows .schemas cx.doc g g' := by
  induction h with
  | refl => exact .refl _
  | tail _ last ih => exact ih.trans (last.grows lawful)

def Travels {α : Type} (cx : Setting) (x : Walk α) : Prop :=
  ∀ g a g', x g = .ok (a, g') → Trips cx g g'

namespace Travels
variable {α β : Type}

theorem pure (a : α) : Travels cx (Pure.pure a : Walk α) := by
  intro g b g' run
  obtain ⟨_, rfl⟩ := runPure.mp run
  exact .refl _

theorem bind {x : Walk α} {f : α → Walk β} (first : Travels cx x) (rest : ∀ a, Travels cx (f a)) :
    Travels cx (x >>= f) := by
  intro g b g' run
  obtain ⟨a, m, run, run'⟩ := runBind.mp run
  exact (first _ _ _ run).trans (rest a _ _ _ run')

theorem mapM {f : α → Walk β} {xs : List α} (each : ∀ x ∈ xs, Travels cx (f x)) :
    Travels cx (xs.mapM f) := by
  intro g ys g' run
  exact (runMapM.mp run).keeps (R := Trips cx) .refl .trans fun x mem => each x mem _ _ _

theorem forM {f : α → Walk PUnit} {xs : List α} (each : ∀ x ∈ xs, Travels cx (f x)) :
    Travels cx (xs.forM f) := by
  intro g u g' run
  obtain ⟨us, runs⟩ := runForM.mp run
  exact runs.keeps (R := Trips cx) .refl .trans fun x mem => each x mem _ _ _

end Travels

def Carries (cx : Setting) (header : Value → Location → Walk (Option SchemaId)) : Prop :=
  ∀ {v l}, Tree.get? l cx.doc = some v → Travels cx (header v l)

variable {header : Value → Location → Walk (Option SchemaId)}

theorem joinTwo (l : Location) (a b : String) : l.join [a, b] = (l.child a).child b := by
  simp [Location.join, Location.child]

theorem joinFour (l : Location) (a b c d : String) :
    l.join [a, b, c, d] = (((l.child a).child b).child c).child d := by
  simp [Location.join, Location.child]

theorem visitOptionTravels {key : String} {x : Option Value}
    (read : ∀ v, x = some v → Tree.get? (l.child key) cx.doc = some v) :
    Travels cx (visitOption (schemaAt cx) l key x) := by
  intro g id g' run
  cases x with
  | none =>
    obtain ⟨_, rfl⟩ := runPure.mp run
    exact .refl _
  | some v =>
    simp only [visitOption, runBind, runPure] at run
    obtain ⟨made, _, one, _, rfl⟩ := run
    exact .single (.visit (read v rfl) one)

theorem resolvedHeaderTravels (carries : Carries cx header) {raw : Value} {place : Location}
    (at_ : Tree.get? place cx.doc = some raw) :
    Travels cx (do let r ← cx.resolve raw; let _ ← header r.value (r.locationOr place)) := by
  intro g u g' run
  simp only [runBind, runResolve, runPure] at run
  obtain ⟨r, _, ⟨resolved, rfl⟩, _, _, visited, _, rfl⟩ := run
  exact carries (resolvedAt (readAt at_) resolved) _ _ _ visited

theorem encodingHeadersAt (lawful : cx.doc.lawful = true) {encoding : Value}
    (at_ : Tree.get? l cx.doc = some encoding) {e : String × Value}
    (mem : e ∈ (encoding.membersAt? "headers").getD []) :
    Tree.get? ((l.child "headers").child e.1) cx.doc = some e.2 := by
  cases headers : encoding.membersAt? "headers" with
  | none => simp [headers] at mem
  | some members =>
    rw [headers] at mem
    exact Tree.memberAt lawful at_ headers mem

theorem encodingsAt (lawful : cx.doc.lawful = true) (at_ : Tree.get? l cx.doc = some v)
    {e : String × Value} (mem : e ∈ (v.membersAt? "encoding").getD []) :
    Tree.get? ((l.child "encoding").child e.1) cx.doc = some e.2 := by
  cases encodings : v.membersAt? "encoding" with
  | none => simp [encodings] at mem
  | some members =>
    rw [encodings] at mem
    exact Tree.memberAt lawful at_ encodings mem

theorem encodingTravels (lawful : cx.doc.lawful = true) (carries : Carries cx header)
    (at_ : Tree.get? l cx.doc = some v) {e : String × Value}
    (mem : e ∈ (v.membersAt? "encoding").getD []) :
    Travels cx (((e.2.membersAt? "headers").getD []).forM fun (name, raw) => do
      let r ← cx.resolve raw
      let _ ← header r.value (r.locationOr (l.join ["encoding", e.1, "headers", name]))) := by
  refine Travels.forM fun e' mem' => ?_
  simp only [joinFour]
  exact resolvedHeaderTravels carries (encodingHeadersAt lawful (encodingsAt lawful at_ mem) mem')

theorem visitEncodingsTravels (lawful : cx.doc.lawful = true) (carries : Carries cx header)
    (at_ : Tree.get? l cx.doc = some v) : Travels cx (visitEncodings cx header v l) :=
  Travels.forM fun _ mem => encodingTravels lawful carries at_ mem

theorem mediaSchemaTravels (lawful : cx.doc.lawful = true) (carries : Carries cx header)
    (at_ : Tree.get? l cx.doc = some v) : Travels cx (mediaSchema cx header v l) := by
  have own := visitOptionTravels (fun x (held : v.get? "schema" = some x) => Tree.childAt at_ held)
  have encodings := visitEncodingsTravels lawful carries at_
  exact own.bind fun id => encodings.bind fun _ => Travels.pure id

theorem headerSchemaCarries (lawful : cx.doc.lawful = true) (steps : Nat) :
    Carries cx (headerSchema cx steps) := by
  induction steps with
  | zero =>
    intro _ _ _ _ _ _ run
    exact (runThrow.mp run).elim
  | succ steps ih =>
    intro v l at_
    unfold headerSchema
    cases held : v.membersAt? "content" with
    | none => exact visitOptionTravels fun x has => Tree.childAt at_ has
    | some content =>
      have each : ∀ e ∈ content, Travels cx
          (mediaSchema cx (headerSchema cx steps) e.2 ((l.child "content").child e.1)) :=
        fun e mem => mediaSchemaTravels lawful ih (Tree.memberAt lawful at_ held mem)
      simp only [joinTwo]
      exact (Travels.mapM each).bind fun found => Travels.pure (found.findSome? id)

theorem headerAtTravels (lawful : cx.doc.lawful = true) : Carries cx (headerAt cx) :=
  headerSchemaCarries lawful cx.bound

theorem mediaAtTrips (lawful : cx.doc.lawful = true) (at_ : Tree.get? l cx.doc = some v)
    {id : Option SchemaId} (run : mediaAt cx v l g = .ok (id, g')) :
    Trips cx g g' ∧
      (Indexed g → MirrorsOption cx.doc g'.schemas (l.child "schema") (v.get? "schema") id) := by
  refine ⟨mediaSchemaTravels lawful (headerAtTravels lawful) at_ _ _ _ run, fun indexed => ?_⟩
  simp only [mediaAt, mediaSchema, runBind, runPure] at run
  obtain ⟨made, m, visited, _, _, rest, rfl, rfl⟩ := run
  have stands := (visitOptionGrows (schemaAtVisits lawful)
    (fun x held => Tree.childAt at_ held) visited).2 indexed
  have more := visitEncodingsTravels lawful (headerAtTravels lawful) at_ _ _ _ rest
  exact stands.mono (more.grows lawful).keepsPlaces

end Carrying
end ApiGraph.Build
