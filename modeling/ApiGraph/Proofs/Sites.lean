import ApiGraph.Proofs.Writes

/-! Where schemas are looked for. The search is one walk by a table that says, for every kind of
value, under which members the search goes on and with what kind. From the table it follows what the
sites of a document are, and that what is inside a site comes before it. -/
namespace ApiGraph.Hoist
open Json ApiGraph.Tree Fingerprint Operation

/- What a value is to the search. A definition is a schema that stays where it is. -/
inductive Role where
  | document
  | components
  | pathItem
  | operation
  | response
  | parameter
  | content
  | media
  | encoding
  | definition
  | schema
  deriving DecidableEq, Repr

inductive Form where
  | one
  | items
  | members
  deriving DecidableEq, Repr

structure Slot where
  key : String
  form : Form
  role : Role
  deriving DecidableEq, Repr

def schemaSlots : List Slot := [⟨"allOf", .items, .schema⟩, ⟨"oneOf", .items, .schema⟩,
  ⟨"anyOf", .items, .schema⟩, ⟨"not", .one, .schema⟩, ⟨"properties", .members, .schema⟩,
  ⟨"additionalProperties", .one, .schema⟩, ⟨"items", .one, .schema⟩]

def slots : Role → List Slot
  | .document => [⟨"components", .one, .components⟩, ⟨"paths", .members, .pathItem⟩]
  | .components => [⟨"schemas", .members, .definition⟩, ⟨"responses", .members, .response⟩,
      ⟨"parameters", .members, .parameter⟩, ⟨"requestBodies", .members, .content⟩,
      ⟨"headers", .members, .parameter⟩]
  | .pathItem => ⟨"parameters", .items, .parameter⟩ ::
      httpMethods.map fun method => ⟨method, .one, .operation⟩
  | .operation => [⟨"parameters", .items, .parameter⟩, ⟨"requestBody", .one, .content⟩,
      ⟨"responses", .members, .response⟩]
  | .response => [⟨"headers", .members, .parameter⟩, ⟨"content", .members, .media⟩]
  | .parameter => [⟨"schema", .one, .schema⟩, ⟨"content", .members, .media⟩]
  | .content => [⟨"content", .members, .media⟩]
  | .media => [⟨"schema", .one, .schema⟩, ⟨"encoding", .members, .encoding⟩]
  | .encoding => [⟨"headers", .members, .parameter⟩]
  | .definition => schemaSlots
  | .schema => schemaSlots

def entered (role : Role) (v : Value) : Bool :=
  match role with
  | .definition | .schema => (refOf v).isNone && v.isObject
  | .pathItem | .response | .parameter | .content => (refOf v).isNone
  | _ => true

structure Part where
  role : Role
  path : List String
  value : Value

def within (v : Value) (s : Slot) : List Part :=
  match s.form with
  | .one => (v.get? s.key).toList.map fun x => ⟨s.role, [s.key], x⟩
  | .items => ((v.itemsAt? s.key).getD []).zipIdx.map fun (x, i) =>
      ⟨s.role, [s.key, toString i], x⟩
  | .members => ((v.membersAt? s.key).getD []).map fun (name, x) => ⟨s.role, [s.key, name], x⟩

def parts (role : Role) (v : Value) : List Part :=
  if entered role v then (slots role).flatMap (within v) else []

theorem withinSmaller {v : Value} {s : Slot} {p : Part} (mem : p ∈ within v s) :
    sizeOf p.value < sizeOf v := by
  unfold within at mem
  split at mem
  · obtain ⟨x, held, rfl⟩ := List.mem_map.mp mem
    exact Value.sizeOf_get? (Option.mem_toList.mp held)
  · obtain ⟨⟨x, i⟩, inside, rfl⟩ := List.mem_map.mp mem
    have found := List.mk_mem_zipIdx_iff_getElem?.mp inside
    cases held : v.itemsAt? s.key with
    | none => simp [held] at found
    | some items =>
      rw [held, Option.getD_some] at found
      have outer := sizeOf_items (Value.itemsAtSome held)
      have inner := List.sizeOf_lt_of_mem (List.mem_of_getElem? found)
      exact Nat.lt_trans inner outer
  · obtain ⟨⟨name, x⟩, inside, rfl⟩ := List.mem_map.mp mem
    cases held : v.membersAt? s.key with
    | none => simp [held] at inside
    | some members =>
      rw [held, Option.getD_some] at inside
      have outer := sizeOf_members (Value.membersAtSome held)
      exact Nat.lt_trans (PathItems.sizeOfMember inside) outer

theorem partSmaller {role : Role} {v : Value} {p : Part} (mem : p ∈ parts role v) :
    sizeOf p.value < sizeOf v := by
  unfold parts at mem
  split at mem
  · obtain ⟨s, _, inside⟩ := List.mem_flatMap.mp mem
    exact withinSmaller inside
  · cases mem

/- A schema that is not a definition is a site itself, after what it contains. -/
def own (role : Role) (l : Location) (v : Value) : List Site :=
  match role, entered role v, fingerprint v with
  | .schema, true, some fp => [⟨l, fp⟩]
  | _, _, _ => []

def visit (role : Role) (l : Location) (v : Value) : List Site :=
  ((parts role v).attach.flatMap fun ⟨p, _⟩ => visit p.role (l.join p.path) p.value) ++ own role l v
termination_by sizeOf v
decreasing_by exact partSmaller ‹_›

theorem visitParts (role : Role) (l : Location) (v : Value) : visit role l v =
    ((parts role v).flatMap fun p => visit p.role (l.join p.path) p.value) ++ own role l v := by
  rw [visit]
  simp

theorem joinOne (l : Location) (k : String) : l.join [k] = l.child k := rfl

theorem joinTwo (l : Location) (k name : String) : l.join [k, name] = (l.child k).child name := by
  simp [Location.join, Location.child]

section Slots
variable {f : Role → Location → Value → List Site} {l : Location} {v : Value} {k : String}
  {role : Role}

theorem oneVisited :
    ((within v ⟨k, .one, role⟩).flatMap fun p => f p.role (l.join p.path) p.value) =
    match v.get? k with
    | some x => f role (l.child k) x
    | none => [] := by
  cases held : v.get? k <;> simp [within, held, joinOne]

theorem itemsVisited :
    ((within v ⟨k, .items, role⟩).flatMap fun p => f p.role (l.join p.path) p.value) =
    ((v.itemsAt? k).getD []).zipIdx.flatMap fun (x, i) =>
      f role ((l.child k).child (toString i)) x := by
  simp [within, List.flatMap_map, joinTwo]

theorem membersVisited :
    ((within v ⟨k, .members, role⟩).flatMap fun p => f p.role (l.join p.path) p.value) =
      overMembers (f role) l v k := by
  simp [within, overMembers, List.flatMap_map, joinTwo]

end Slots

theorem itemSitesEach (l : Location) (k : Nat) (items : List Value) :
    itemSites l k items = (items.zipIdx k).flatMap fun (x, i) =>
      schemaSites (l.child (toString i)) true x := by
  induction items generalizing k with
  | nil => simp [itemSites]
  | cons x r ih => simp [itemSites, ih]

theorem memberSitesEach (l : Location) (members : Members) :
    memberSites l members = members.flatMap fun (name, x) =>
      schemaSites (l.child name) true x := by
  induction members with
  | nil => simp [memberSites]
  | cons e r ih =>
    obtain ⟨name, x⟩ := e
    simp [memberSites, ih]

theorem headerSitesEach (l : Location) (headers : Members) :
    headerSites l headers = headers.flatMap fun (name, x) => parameterSites (l.child name) x := by
  induction headers with
  | nil => simp [headerSites]
  | cons e r ih =>
    obtain ⟨name, x⟩ := e
    simp [headerSites, ih]

theorem appendSame {α : Type} {a b c d : List α} (h : a = b) (h' : c = d) : a ++ c = b ++ d := by
  rw [h, h']

section Schemas
variable {l : Location} {v : Value} {k : String}
  (each : ∀ x, sizeOf x < sizeOf v → ∀ l, schemaSites l true x = visit .schema l x)
include each

theorem itemsSearched {items : List Value} (held : v.get? k = some (.arr items)) :
    itemSites (l.child k) 0 items =
      (within v ⟨k, .items, .schema⟩).flatMap fun p => visit p.role (l.join p.path) p.value := by
  rw [itemsVisited, itemSitesEach]
  have declared : v.itemsAt? k = some items := by simp [Value.itemsAt?, held, Value.items?]
  rw [declared, Option.getD_some]
  refine List.flatMap_congr fun e mem => each e.1 ?_ _
  have inner := List.sizeOf_lt_of_mem (List.mem_of_getElem? (List.mk_mem_zipIdx_iff_getElem?.mp mem))
  exact Nat.lt_trans inner (sizeOf_items held)

theorem membersSearched {members : Members} (held : v.get? k = some (.obj members)) :
    memberSites (l.child k) members =
      (within v ⟨k, .members, .schema⟩).flatMap fun p => visit p.role (l.join p.path) p.value := by
  rw [membersVisited, memberSitesEach, overMembers]
  have declared : v.membersAt? k = some members := by simp [Value.membersAt?, held, Value.members?]
  rw [declared, Option.getD_some]
  exact List.flatMap_congr fun e mem =>
    each e.2 (Nat.lt_trans (PathItems.sizeOfMember mem) (sizeOf_members held)) _

end Schemas

theorem withinNoItems {v : Value} {k : String} {role : Role}
    (other : ∀ items, v.get? k = some (.arr items) → False) : within v ⟨k, .items, role⟩ = [] := by
  cases held : v.itemsAt? k with
  | none => simp [within, held]
  | some items => exact (other items (Value.itemsAtSome held)).elim

theorem withinNoMembers {v : Value} {k : String} {role : Role}
    (other : ∀ members, v.get? k = some (.obj members) → False) :
    within v ⟨k, .members, role⟩ = [] := by
  cases held : v.membersAt? k with
  | none => simp [within, held]
  | some members => exact (other members (Value.membersAtSome held)).elim

theorem schemaSitesVisit (v : Value) (l : Location) (movable : Bool) :
    schemaSites l movable v = visit (if movable then .schema else .definition) l v := by
  induction n : sizeOf v using Nat.strongRecOn generalizing v l movable with
  | ind n ih =>
    subst n
    have each : ∀ x, sizeOf x < sizeOf v → ∀ l, schemaSites l true x = visit .schema l x :=
      fun x less l => ih _ less x l true rfl
    rw [visitParts]
    unfold schemaSites
    split
    · rename_i closed
      have shut : ((refOf v).isNone && v.isObject) = false := by
        cases named : refOf v <;> simp_all
      cases movable <;> simp [parts, own, entered, shut]
    · rename_i open_
      have clear : ((refOf v).isNone && v.isObject) = true := by
        cases named : refOf v <;> simp_all
      have table : parts (if movable then .schema else .definition) v =
          schemaSlots.flatMap (within v) := by
        cases movable <;> simp [parts, entered, clear, slots]
      rw [table]
      simp only [schemaSlots, List.flatMap_cons, List.flatMap_nil, List.flatMap_append,
        List.append_assoc, oneVisited]
      refine appendSame ?_ (appendSame ?_ (appendSame ?_ (appendSame ?_ (appendSame ?_
        (appendSame ?_ (appendSame ?_ ?_))))))
      · split
        · exact itemsSearched each ‹_›
        · rw [withinNoItems ‹_›, List.flatMap_nil]
      · split
        · exact itemsSearched each ‹_›
        · rw [withinNoItems ‹_›, List.flatMap_nil]
      · split
        · exact itemsSearched each ‹_›
        · rw [withinNoItems ‹_›, List.flatMap_nil]
      · split
        · rename_i held
          simp only [held]
          exact each _ (Value.sizeOf_get? held) _
        · rename_i absent
          simp only [absent]
      · split
        · exact membersSearched each ‹_›
        · rw [withinNoMembers ‹_›, List.flatMap_nil]
      · split
        · rename_i held
          simp only [held]
          exact each _ (Value.sizeOf_get? held) _
        · rename_i absent
          simp only [absent]
      · split
        · rename_i held
          simp only [held]
          exact each _ (Value.sizeOf_get? held) _
        · rename_i absent
          simp only [absent]
      · cases movable <;> cases fp : fingerprint v <;> simp [own, entered, clear, fp]

theorem inlineSitesVisit (l : Location) (owner : Value) (key : String) :
    inlineSites l owner key =
      (within owner ⟨key, .one, .schema⟩).flatMap fun p => visit p.role (l.join p.path) p.value := by
  rw [oneVisited, inlineSites]
  cases owner.get? key with
  | none => rfl
  | some schema => exact schemaSitesVisit schema _ true

theorem visitOpen {role : Role} {v : Value} (other : role ≠ .schema) (open_ : entered role v = true)
    (l : Location) : visit role l v = ((slots role).flatMap (within v)).flatMap fun p =>
      visit p.role (l.join p.path) p.value := by
  rw [visitParts, parts, if_pos open_]
  cases role <;> simp [own] at other ⊢

theorem visitShut {role : Role} {v : Value} (shut : entered role v = false) (l : Location) :
    visit role l v = [] := by
  rw [visitParts, parts, if_neg (by simp [shut])]
  cases role <;> simp [own, shut]

section Parameters
variable {v : Value}
  (each : ∀ x, sizeOf x < sizeOf v → ∀ l, parameterSites l x = visit .parameter l x)
include each

theorem encodingSitesVisit {l : Location} {encodings : Members}
    (less : sizeOf encodings < sizeOf v) :
    encodingSites l encodings =
      encodings.flatMap fun (name, x) => visit .encoding (l.child name) x := by
  induction encodings with
  | nil => simp [encodingSites]
  | cons e r ih =>
    obtain ⟨name, x⟩ := e
    simp only [List.cons.sizeOf_spec, Prod.mk.sizeOf_spec] at less
    simp only [encodingSites, List.flatMap_cons, ih (by omega)]
    refine appendSame ?_ rfl
    rw [visitOpen (by decide) rfl]
    simp only [slots, List.flatMap_cons, List.flatMap_nil, List.append_nil]
    split
    · rename_i headers held
      rw [membersVisited, overMembers, headerSitesEach]
      have declared : x.membersAt? "headers" = some headers := by
        simp [Value.membersAt?, held, Value.members?]
      rw [declared, Option.getD_some]
      refine List.flatMap_congr fun e mem => each e.2 ?_ _
      have inner := PathItems.sizeOfMember mem
      have outer := sizeOf_members held
      omega
    · rw [withinNoMembers ‹_›, List.flatMap_nil]

theorem mediaSitesVisit {l : Location} {media : Members} (less : sizeOf media < sizeOf v) :
    mediaSites l media = media.flatMap fun (name, x) => visit .media (l.child name) x := by
  induction media with
  | nil => simp [mediaSites]
  | cons e r ih =>
    obtain ⟨name, x⟩ := e
    simp only [List.cons.sizeOf_spec, Prod.mk.sizeOf_spec] at less
    simp only [mediaSites, List.flatMap_cons, ih (by omega)]
    refine appendSame ?_ rfl
    rw [visitOpen (by decide) rfl]
    simp only [slots, List.flatMap_cons, List.flatMap_nil, List.append_nil, List.flatMap_append,
      inlineSitesVisit]
    refine appendSame rfl ?_
    split
    · rename_i encodings held
      have outer := sizeOf_members held
      rw [membersVisited, overMembers, encodingSitesVisit each (by omega)]
      simp [Value.membersAt?, held, Value.members?]
    · rw [withinNoMembers ‹_›, List.flatMap_nil]

theorem contentSitesVisit (l : Location) : contentSites l v = visit .content l v := by
  unfold contentSites
  split
  · rename_i named
    rw [visitShut]
    cases held : refOf v <;> simp_all [entered]
  · rename_i plain
    rw [visitOpen (by decide) (by cases held : refOf v <;> simp_all [entered])]
    simp only [slots, List.flatMap_cons, List.flatMap_nil, List.append_nil]
    split
    · rename_i media held
      rw [membersVisited, overMembers, mediaSitesVisit each (sizeOf_members held)]
      simp [Value.membersAt?, held, Value.members?]
    · rw [withinNoMembers ‹_›, List.flatMap_nil]

end Parameters

theorem parameterSitesVisit (v : Value) (l : Location) :
    parameterSites l v = visit .parameter l v := by
  induction n : sizeOf v using Nat.strongRecOn generalizing v l with
  | ind n ih =>
    subst n
    have each : ∀ x, sizeOf x < sizeOf v → ∀ l, parameterSites l x = visit .parameter l x :=
      fun x less l => ih _ less x l rfl
    unfold parameterSites
    split
    · rename_i named
      rw [visitShut]
      cases held : refOf v <;> simp_all [entered]
    · rename_i plain
      have bare : refOf v = none := by simpa using plain
      rw [visitOpen (by decide) (by simp [entered, bare]), inlineSitesVisit,
        contentSitesVisit each, visitOpen (by decide) (by simp [entered, bare])]
      simp [slots]

theorem overMembersVisit {f : Location → Value → List Site} {role : Role}
    (each : ∀ l x, f l x = visit role l x) (l : Location) (owner : Value) (key : String) :
    overMembers f l owner key =
      (within owner ⟨key, .members, role⟩).flatMap fun p => visit p.role (l.join p.path) p.value := by
  rw [membersVisited, overMembers, overMembers]
  exact List.flatMap_congr fun e _ => each _ _

theorem contentSitesWalk (v : Value) (l : Location) : contentSites l v = visit .content l v :=
  contentSitesVisit (fun x _ l => parameterSitesVisit x l) l

theorem responseSitesVisit (v : Value) (l : Location) : responseSites l v = visit .response l v := by
  unfold responseSites
  split
  · rename_i named
    rw [visitShut]
    cases held : refOf v <;> simp_all [entered]
  · rename_i plain
    have bare : refOf v = none := by simpa using plain
    rw [visitOpen (by decide) (by simp [entered, bare]), contentSitesWalk,
      visitOpen (by decide) (by simp [entered, bare]),
      overMembersVisit fun l x => parameterSitesVisit x l]
    simp [slots]

theorem parametersSitesVisit (v : Value) (l : Location) : parametersSites l v =
    (within v ⟨"parameters", .items, .parameter⟩).flatMap fun p =>
      visit p.role (l.join p.path) p.value := by
  rw [itemsVisited, parametersSites]
  exact List.flatMap_congr fun e _ => parameterSitesVisit _ _

theorem operationSitesVisit (v : Value) (l : Location) :
    operationSites l v = visit .operation l v := by
  rw [visitOpen (by decide) rfl, operationSites, parametersSitesVisit,
    overMembersVisit fun l x => responseSitesVisit x l]
  simp only [slots, List.flatMap_cons, List.flatMap_nil, List.append_nil, List.flatMap_append,
    List.append_assoc, oneVisited]
  refine appendSame rfl (appendSame ?_ rfl)
  cases v.get? "requestBody" with
  | none => rfl
  | some body => exact contentSitesWalk body _

theorem pathItemSitesVisit (v : Value) (l : Location) :
    pathItemSites l v = visit .pathItem l v := by
  unfold pathItemSites
  split
  · rename_i named
    rw [visitShut]
    cases held : refOf v <;> simp_all [entered]
  · rename_i plain
    have bare : refOf v = none := by simpa using plain
    rw [visitOpen (by decide) (by simp [entered, bare]), parametersSitesVisit]
    simp only [slots, List.flatMap_cons, List.flatMap_append, List.flatMap_map, List.flatMap_assoc]
    refine appendSame rfl (List.flatMap_congr fun method _ => ?_)
    rw [oneVisited]
    cases v.get? method with
    | none => rfl
    | some operation => exact operationSitesVisit operation _

theorem sitesVisit (doc : Value) : sites doc = visit .document .root doc := by
  rw [visitOpen (by decide) rfl]
  simp only [slots, List.flatMap_cons, List.flatMap_nil, List.append_nil, List.flatMap_append,
    oneVisited, sites]
  rw [overMembersVisit fun l x => pathItemSitesVisit x l]
  refine appendSame ?_ rfl
  have components : ∀ l v, visit .components l v =
      overMembers (schemaSites · false ·) l v "schemas" ++ overMembers responseSites l v "responses" ++
      overMembers parameterSites l v "parameters" ++ overMembers contentSites l v "requestBodies" ++
      overMembers parameterSites l v "headers" := by
    intro l v
    rw [visitOpen (by decide) rfl, overMembersVisit fun l x => schemaSitesVisit x l false,
      overMembersVisit fun l x => responseSitesVisit x l,
      overMembersVisit fun l x => parameterSitesVisit x l,
      overMembersVisit fun l x => contentSitesWalk x l,
      overMembersVisit fun l x => parameterSitesVisit x l]
    simp [slots]
  cases held : doc.get? "components" with
  | none => simp [overMembers, Value.membersAt?, Value.get?]
  | some v => simp [components, Location.child, Location.root]

theorem slotsOnce (role : Role) : ((slots role).map Slot.key).Nodup := by
  cases role <;> decide

theorem slotUnique {role : Role} {s s' : Slot} (mem : s ∈ slots role) (mem' : s' ∈ slots role)
    (same : s.key = s'.key) : s = s' :=
  List.inj_on_of_nodup_map (slotsOnce role) mem mem' same

inductive Held (v : Value) (s : Slot) : List String → Value → Prop
  | one {x} (form : s.form = .one) (held : v.get? s.key = some x) : Held v s [s.key] x
  | item {items : List Value} {i : Nat} {x} (form : s.form = .items)
      (held : v.get? s.key = some (.arr items))
      (found : items[i]? = some x) : Held v s [s.key, toString i] x
  | member {members : Members} {name x} (form : s.form = .members)
      (held : v.get? s.key = some (.obj members))
      (found : (name, x) ∈ members) : Held v s [s.key, name] x

theorem memWithin {v : Value} {s : Slot} {p : Part} :
    p ∈ within v s ↔ p.role = s.role ∧ Held v s p.path p.value := by
  obtain ⟨role, path, value⟩ := p
  unfold within
  constructor
  · intro mem
    split at mem
    · rename_i form
      obtain ⟨x, held, same⟩ := List.mem_map.mp mem
      cases same
      exact ⟨rfl, .one form (Option.mem_toList.mp held)⟩
    · rename_i form
      obtain ⟨⟨x, i⟩, inside, same⟩ := List.mem_map.mp mem
      cases same
      have found := List.mk_mem_zipIdx_iff_getElem?.mp inside
      cases held : v.itemsAt? s.key with
      | none => simp [held] at found
      | some items =>
        rw [held] at found
        exact ⟨rfl, .item form (Value.itemsAtSome held) found⟩
    · rename_i form
      obtain ⟨⟨name, x⟩, inside, same⟩ := List.mem_map.mp mem
      cases same
      cases held : v.membersAt? s.key with
      | none => simp [held] at inside
      | some members =>
        rw [held] at inside
        exact ⟨rfl, .member form (Value.membersAtSome held) inside⟩
  · rintro ⟨rfl, held⟩
    cases held with
    | one form held => simp [form, held]
    | item form held found =>
      simp only [form, Value.itemsAt?, held, Value.items?, Option.bind_some, Option.getD_some]
      exact List.mem_map.mpr ⟨_, List.mk_mem_zipIdx_iff_getElem?.mpr found, rfl⟩
    | member form held found =>
      simp only [form, Value.membersAt?, held, Value.members?, Option.bind_some, Option.getD_some]
      exact List.mem_map.mpr ⟨_, found, rfl⟩

theorem memParts {role : Role} {v : Value} {p : Part} : p ∈ parts role v ↔
    entered role v = true ∧ ∃ s ∈ slots role, p.role = s.role ∧ Held v s p.path p.value := by
  unfold parts
  split
  · rename_i open_
    simp [open_, List.mem_flatMap, memWithin]
  · rename_i shut
    simp [shut]

namespace Held
variable {v x : Value} {s : Slot} {path : List String}

theorem headed (h : Held v s path x) : ∃ r, path = s.key :: r := by
  cases h with
  | one => exact ⟨[], rfl⟩
  | item => exact ⟨_, rfl⟩
  | member => exact ⟨_, rfl⟩

theorem reads (h : Held v s path x) (lawful : v.lawful = true) : walk? path v = some x := by
  cases v with
  | obj members =>
    have each := (Value.lawfulObject.mp lawful).2
    cases h with
    | one form held => simpa [walk?, step?, Value.get?] using held
    | @item items i x form held found =>
      have inside : members.lookup s.key = some (.arr items) := held
      simpa only [walk?, step?, inside, Option.bind_some, indexOfNumeral, Option.bind_fun_some]
        using found
    | @member inner name x form held found =>
      have inside : members.lookup s.key = some (.obj inner) := held
      have object := each _ (Entries.mem_of_lookup inside)
      have once := (Value.lawfulObject.mp object).1
      simpa [walk?, step?, inside] using Entries.lookupOfMem once found
  | _ => cases h <;> simp [Value.get?] at *

end Held

inductive Reach : Role → Value → List String → Role → Value → Prop
  | here (role v) : Reach role v [] role v
  | part {role v p path σ y} (mem : p ∈ parts role v) (rest : Reach p.role p.value path σ y) :
      Reach role v (p.path ++ path) σ y

namespace Reach
variable {role σ τ : Role} {v x y : Value} {path path' : List String}

theorem reads (h : Reach role v path σ y) (lawful : v.lawful = true) :
    walk? path v = some y ∧ y.lawful = true := by
  induction h with
  | here => exact ⟨rfl, lawful⟩
  | part mem _ ih =>
    obtain ⟨_, s, _, _, held⟩ := memParts.mp mem
    have there := held.reads lawful
    obtain ⟨reads, lawful'⟩ := ih (lawfulAt (l := ⟨_⟩) lawful there)
    exact ⟨by rw [walk?_append, there, Option.bind_some, reads], lawful'⟩

theorem append (h : Reach role v path σ x) (h' : Reach σ x path' τ y) :
    Reach role v (path ++ path') τ y := by
  induction h with
  | here => exact h'
  | part mem _ ih =>
    rw [List.append_assoc]
    exact .part mem (ih h')

end Reach

theorem memOwn {role : Role} {l : Location} {v : Value} {s : Site} : s ∈ own role l v ↔
    role = .schema ∧ entered .schema v = true ∧ s.location = l ∧
      fingerprint v = some s.fingerprint := by
  obtain ⟨location, fp⟩ := s
  unfold own
  split
  · rename_i open_ told
    simp [open_, told, eq_comm]
  · rename_i other
    simp only [List.not_mem_nil, false_iff]
    rintro ⟨rfl, open_, _, told⟩
    exact other _ rfl open_ told

theorem joinNil (l : Location) : l.join [] = l := by simp [Location.join]

theorem joinAppend (l : Location) (p q : List String) : l.join (p ++ q) = (l.join p).join q := by
  simp [Location.join]

theorem memVisit {role : Role} {l : Location} {v : Value} {s : Site} :
    s ∈ visit role l v ↔ ∃ path y, s.location = l.join path ∧ Reach role v path .schema y ∧
      entered .schema y = true ∧ fingerprint y = some s.fingerprint := by
  constructor
  · intro mem
    induction n : sizeOf v using Nat.strongRecOn generalizing role l v with
    | ind n ih =>
      subst n
      rw [visitParts] at mem
      rcases List.mem_append.mp mem with inside | here
      · obtain ⟨p, part, mem⟩ := List.mem_flatMap.mp inside
        obtain ⟨path, y, placed, reach, rest⟩ := ih _ (partSmaller part) mem rfl
        exact ⟨p.path ++ path, y, by rw [placed, joinAppend], .part part reach, rest⟩
      · obtain ⟨rfl, open_, placed, told⟩ := memOwn.mp here
        exact ⟨[], v, by rw [placed, joinNil], .here _ _, open_, told⟩
  · rintro ⟨path, y, placed, reach, open_, told⟩
    generalize kind : Role.schema = σ at reach
    induction reach generalizing l with
    | here role v =>
      subst kind
      rw [visitParts]
      refine List.mem_append_right _ (memOwn.mpr ⟨rfl, open_, ?_, told⟩)
      rw [placed, joinNil]
    | part mem _ ih =>
      rw [visitParts]
      refine List.mem_append_left _ (List.mem_flatMap.mpr ⟨_, mem, ?_⟩)
      exact ih (by rw [placed, joinAppend]) open_ told kind

structure IsSite (doc : Value) (l : Location) (y : Value) : Prop where
  reached : Reach .document doc l.segments .schema y
  open_ : entered .schema y = true

theorem memSites {doc : Value} {s : Site} :
    s ∈ sites doc ↔ ∃ y, IsSite doc s.location y ∧ fingerprint y = some s.fingerprint := by
  rw [sitesVisit, memVisit]
  constructor
  · rintro ⟨path, y, placed, reach, open_, told⟩
    have same : s.location.segments = path := by simp [placed, Location.join, Location.root]
    exact ⟨y, ⟨same ▸ reach, open_⟩, told⟩
  · rintro ⟨y, ⟨reach, open_⟩, told⟩
    exact ⟨s.location.segments, y, by simp [Location.join, Location.root], reach, open_, told⟩

theorem partsPrefix {role : Role} {v : Value} {p q : Part} (mem : p ∈ parts role v)
    (mem' : q ∈ parts role v) (inside : p.path <+: q.path) : p.path = q.path := by
  obtain ⟨_, s, slot, _, held⟩ := memParts.mp mem
  obtain ⟨_, t, slot', _, held'⟩ := memParts.mp mem'
  have key : s.key = t.key := by
    obtain ⟨r, path⟩ := held.headed
    obtain ⟨r', path'⟩ := held'.headed
    rw [path, path', List.cons_prefix_cons] at inside
    exact inside.1
  cases slotUnique slot slot' key
  refine inside.eq_of_length ?_
  obtain ⟨_, path, value⟩ := p
  obtain ⟨_, path', value'⟩ := q
  cases held <;> cases held' <;> simp_all

def Beside (p q : Part) : Prop := ¬ p.path <+: q.path ∧ ¬ q.path <+: p.path

theorem withinBeside {v : Value} (lawful : v.lawful = true) (s : Slot) :
    (within v s).Pairwise Beside := by
  unfold within
  split
  · cases v.get? s.key <;> simp
  · rw [List.pairwise_map, List.pairwise_iff_getElem]
    intro i j _ _ less
    have other : toString i ≠ toString j := fun same => by
      have := numeralInj same
      omega
    simp only [Beside, List.getElem_zipIdx, Nat.zero_add, List.cons_prefix_cons, true_and,
      List.nil_prefix, and_true]
    exact ⟨other, other.symm⟩
  · rw [List.pairwise_map]
    cases held : v.membersAt? s.key with
    | none => simp
    | some members =>
      have object := lawfulAt (l := ⟨[s.key]⟩) lawful
        (childAt (l := .root) rfl (Value.membersAtSome held))
      refine (List.pairwise_map.mp (Value.lawfulObject.mp object).1).imp fun {e e'} other => ?_
      simp [Beside, List.cons_prefix_cons, other, Ne.symm other]

theorem partsBeside {role : Role} {v : Value} (lawful : v.lawful = true) :
    (parts role v).Pairwise Beside := by
  unfold parts
  split
  · refine List.pairwise_flatMap.mpr ⟨fun s _ => withinBeside lawful s, ?_⟩
    refine (List.pairwise_map.mp (slotsOnce role)).imp fun {s t} other p mem q mem' => ?_
    obtain ⟨r, path⟩ := (memWithin.mp mem).2.headed
    obtain ⟨r', path'⟩ := (memWithin.mp mem').2.headed
    rw [Beside, path, path', List.cons_prefix_cons, List.cons_prefix_cons]
    exact ⟨fun h => other h.1, fun h => other h.1.symm⟩
  · exact .nil

theorem visitBelow {role : Role} {l : Location} {v : Value} {s : Site} (mem : s ∈ visit role l v) :
    l.segments <+: s.location.segments := by
  obtain ⟨path, _, placed, _⟩ := memVisit.mp mem
  rw [placed]
  exact List.prefix_append _ _

theorem visitOrdered {role : Role} {v : Value} (lawful : v.lawful = true) (l : Location) :
    (visit role l v).Pairwise fun s s' => ¬ s.location.segments <+: s'.location.segments := by
  induction n : sizeOf v using Nat.strongRecOn generalizing role l v with
  | ind n ih =>
    subst n
    rw [visitParts]
    refine List.pairwise_append.mpr ⟨List.pairwise_flatMap.mpr ⟨fun p mem => ?_, ?_⟩, ?_, ?_⟩
    · obtain ⟨_, s, _, _, held⟩ := memParts.mp mem
      exact ih _ (partSmaller mem) (lawfulAt (l := ⟨_⟩) lawful (held.reads lawful)) _ rfl
    · refine (partsBeside lawful).imp fun {p q} beside s mem s' mem' inside => ?_
      have first := (visitBelow mem).trans inside
      have second := visitBelow mem'
      simp only [Location.join] at first second
      rcases List.prefix_or_prefix_of_prefix first second with h | h
      · exact beside.1 ((List.prefix_append_right_inj _).mp h)
      · exact beside.2 ((List.prefix_append_right_inj _).mp h)
    · unfold own
      split <;> simp
    · intro s mem s' mem' inside
      obtain ⟨p, part, mem⟩ := List.mem_flatMap.mp mem
      obtain ⟨_, _, placed, _⟩ := memOwn.mp mem'
      rw [placed] at inside
      have longer := ((visitBelow mem).trans inside).length_le
      obtain ⟨_, t, _, _, held⟩ := memParts.mp part
      obtain ⟨r, path⟩ := held.headed
      rw [Location.join, path, List.length_append, List.length_cons] at longer
      omega

theorem sitesOrdered {doc : Value} (lawful : doc.lawful = true) :
    (sites doc).Pairwise fun s s' => ¬ s.location.segments <+: s'.location.segments := by
  rw [sitesVisit]
  exact visitOrdered lawful .root

def least : Role → Nat
  | .document => 0
  | .components => 1
  | .pathItem => 2
  | .operation => 3
  | .response => 3
  | .parameter => 3
  | .content => 3
  | .media => 5
  | .encoding => 7
  | .definition => 3
  | .schema => 4

def Form.steps : Form → Nat
  | .one => 1
  | .items => 2
  | .members => 2

theorem leastSlot (role : Role) : ∀ s ∈ slots role, least s.role ≤ least role + s.form.steps := by
  cases role <;> decide

theorem Held.steps {v x : Value} {s : Slot} {path : List String} (h : Held v s path x) :
    path.length = s.form.steps := by
  cases h <;> rename_i form _ <;> simp_all [Form.steps]

theorem Reach.least {role σ : Role} {v y : Value} {path : List String} (h : Reach role v path σ y) :
    least σ ≤ least role + path.length := by
  induction h with
  | here => simp
  | part mem _ ih =>
    obtain ⟨_, s, slot, kind, held⟩ := memParts.mp mem
    have step := leastSlot _ s slot
    rw [kind] at ih
    rw [List.length_append, held.steps]
    omega

end ApiGraph.Hoist
