import ApiGraph.Proofs.Arrivals
import ApiGraph.Proofs.StatedNames

/-! Which schemas of a graph the search for schemas lists. It lists those that are part of what it
comes to, whatever names are stated for the build. The others are inside of what only a turn of the
build leads to. -/
namespace ApiGraph.Hoist
open Json ApiGraph.Tree Declaration PathItems

def Role.kin : Role → Role
  | .definition => .schema
  | role => role

theorem partsKin (role : Role) (v : Value) : parts role.kin v = parts role v := by
  cases role <;> rfl

def Searched (doc : Value) (role : Role) (l : Location) (v : Value) : Prop :=
  ∃ σ : Role, σ.kin = role.kin ∧ Reach .document doc l.segments σ v

def Stray (doc : Value) (role : Role) (l : Location) (v : Value) : Prop :=
  ¬ Searched doc role l v ∧ ∃ role' l' v', Comes doc role' l' v' ∧ Turn doc role' l' v' role l v

def Beyond (doc : Value) (role : Role) (l : Location) (v : Value) : Prop :=
  ∃ role' l' v' path, Stray doc role' l' v' ∧ Reach role' v' path role v ∧ l = l'.join path

section Beyond
variable {doc v y : Value} {role σ : Role} {l : Location} {path : List String} {p : Part}

theorem Reach.further (h : Reach role v path σ y) (mem : p ∈ parts σ y) :
    Reach role v (path ++ p.path) p.role p.value := by
  simpa using h.append (.part mem (.here _ _))

theorem partFound (h : Searched doc role l v ∨ Beyond doc role l v) (mem : p ∈ parts role v) :
    Reach .document doc (l.join p.path).segments p.role p.value ∨
      Beyond doc p.role (l.join p.path) p.value := by
  rcases h with ⟨σ, kin, reach⟩ | ⟨role', l', v', path, stray, reach, rfl⟩
  · rw [← partsKin, ← kin, partsKin] at mem
    exact .inl (reach.further mem)
  · exact .inr ⟨role', l', v', _, stray, reach.further mem, (joinAppend l' path p.path).symm⟩

theorem Comes.found (h : Comes doc role l v) : Searched doc role l v ∨ Beyond doc role l v := by
  induction h with
  | document => exact .inl ⟨_, rfl, .here _ _⟩
  | part _ mem ih => exact (partFound ih mem).imp_left fun reach => ⟨_, rfl, reach⟩
  | @turn _ _ _ role l v owner taken _ =>
    by_cases searched : Searched doc role l v
    · exact .inl searched
    · exact .inr ⟨role, l, v, [], ⟨searched, _, _, _, owner, taken⟩, .here _ _, (joinNil l).symm⟩

theorem Inline.found (h : Inline doc l v) :
    Reach .document doc l.segments .schema v ∨ Beyond doc .schema l v := by
  obtain ⟨role, owner, x, p, comes, mem, kind, rfl, rfl⟩ := h
  exact kind ▸ partFound comes.found mem

theorem rootBeyond (h : Comes doc .schema .root v) : Beyond doc .schema .root v := by
  refine h.found.resolve_left ?_
  rintro ⟨σ, kin, reach⟩
  have deep := reach.least
  cases σ <;> simp [Role.kin, least, Location.root] at kin deep

end Beyond

/- The search reaches no schema in the second value that it does not reach in the first one. -/
def Covers (role : Role) (v v' : Value) : Prop :=
  ∀ path y, Reach role v' path .schema y → Reach role v path .schema y

section Covers
variable {doc doc' v v' x : Value} {role : Role} {p : Part} {f : Found} {found : List Found}

theorem coversUnread (other : role ≠ .schema)
    (open_ : entered role v' = true → entered role v = true)
    (same : ∀ s ∈ slots role, v'.get? s.key = v.get? s.key) : Covers role v v' := by
  intro path y reach
  cases reach with
  | here => exact absurd rfl other
  | part mem rest =>
    obtain ⟨inside, s, slot, kind, held⟩ := memParts.mp mem
    exact .part (memParts.mpr ⟨open_ inside, s, slot, kind, (heldSame (same s slot)).mp held⟩) rest

theorem coversPart (other : role ≠ .schema) (mem : p ∈ parts role v) (lawful : v.lawful = true)
    (wrote : Wrote x p.path v v') (below : Covers p.role p.value x) : Covers role v v' := by
  intro path y reach
  cases reach with
  | here => exact absurd rfl other
  | part mem' rest =>
    rcases (partsReplaced mem lawful wrote _).mp mem' with ⟨old, _⟩ | rfl
    · exact .part old rest
    · exact .part (p := p) mem (below _ _ rest)

theorem keysLower : ∀ s ∈ slots .pathItem, Text.asciiLowercase s.key = s.key := by decide

theorem coversId (lawful : doc.lawful = true) (plain : Plain doc) (stands : Stands doc f) {name : String}
    (written : set? f.slot (.str name) doc = some doc') : Covers .document doc doc' := by
  obtain ⟨members, at_, bare, inside⟩ := Build.itemHeld plain stands
  have whole : Wrote (.str name) (["paths", f.pattern] ++ [f.verb, "operationId"]) doc doc' := by
    have wrote := writeFollowed written
    rwa [slotSpelled stands.item] at wrote
  have there := at_.reads lawful
  have lawful' := lawfulAt (l := ⟨_⟩) lawful there
  obtain ⟨item, inner, outer⟩ := whole.split there
  have step : walk? [f.verb] (.obj members) = some f.operation := by simp [walk?, step?, inside]
  obtain ⟨operation, innermost, middle⟩ := Wrote.split (p := [f.verb]) inner step
  have listed : ⟨.pathItem, ["paths", f.pattern], .obj members⟩ ∈ parts .document doc :=
    partIn rfl (by decide) at_
  suffices within : Covers .pathItem (.obj members) item from
    coversPart (by decide) listed lawful outer within
  by_cases spelled : Text.asciiLowercase f.verb = f.verb
  · have held : Held (.obj members) ⟨f.verb, .one, .operation⟩ [f.verb] f.operation := .one rfl inside
    have part := partIn (by simp [entered, bare]) (Build.verbSlot stands spelled) held
    have keys : ∀ s ∈ slots .operation, s.key ≠ "operationId" := by decide
    have unread : Covers .operation f.operation operation :=
      coversUnread (by decide) id fun s slot => innermost.others (keys s slot)
    exact coversPart (by decide) part lawful' middle unread
  · -- no key that is read is spelled like this verb
    have others : ∀ key, Text.asciiLowercase key = key →
        item.get? key = (Value.obj members).get? key := fun key lower =>
      middle.others fun same => spelled (same ▸ lower)
    refine coversUnread (by decide) (fun _ => ?_) fun s slot => others _ (keysLower s slot)
    simp [entered, bare]

theorem coversIds (h : Stated found doc) :
    Covers .document doc (writeIds (missingIds found) doc).1 := by
  unfold writeIds
  refine (List.foldlRecOn (motive := fun acc : Value × Nat =>
    Stated found acc.1 ∧ Covers .document doc acc.1) _ _ ⟨h, fun _ _ => id⟩
    fun acc ⟨stated, covers⟩ e mem => ?_).2
  cases written : Tree.set? e.1 (.str e.2) acc.1 with
  | none => exact ⟨stated, covers⟩
  | some doc' =>
    refine ⟨stated.step mem written, fun path y reach => covers path y ?_⟩
    obtain ⟨g, inside, made⟩ := missingIdSource mem
    obtain ⟨_, rfl⟩ := missingIdIff.mp made
    obtain ⟨g', stands, _, place, _⟩ := stated.found inside
    exact coversId stated.lawful stated.plain stands (place ▸ written) path y reach

theorem coversTags (names : List String) (doc : Value) :
    Covers .document doc (writeTags names doc) := by
  have tags : ∀ v, Covers .document doc (Tree.set tagsRoot v doc) := by
    intro v
    unfold Tree.set
    cases written : set? tagsRoot v doc with
    | none => exact fun _ _ => id
    | some doc' =>
      have keys : ∀ s ∈ slots .document, s.key ≠ "tags" := by decide
      exact coversUnread (by decide) id fun s slot => (writeFollowed written).others (keys s slot)
  unfold writeTags
  split
  · exact fun _ _ => id
  · exact tags _

theorem declareCovers {c : Config} {n : Nat} (lawful : doc.lawful = true) (plain : Plain doc)
    (run : declare c doc = .ok (doc', n)) : Covers .document doc doc' := by
  simp only [declare, operationsPlain lawful plain, bind, Except.bind] at run
  cases told : declaredTags doc with
  | error e => simp [told] at run
  | ok declared =>
    simp only [told, Except.ok.injEq, Prod.mk.injEq] at run
    obtain ⟨rfl, _⟩ := run
    have ids := coversIds ⟨lawful, plain, List.forall₂_same.mpr fun f _ => .refl f⟩
    exact fun path y reach => ids path y (coversTags _ _ path y reach)

end Covers

theorem fingerprintObject {v : Value} {fp : String} (told : Fingerprint.fingerprint v = some fp) :
    v.isObject = true := by
  cases v with
  | obj => rfl
  | _ => simp [Fingerprint.fingerprint, Value.textAt?, Value.membersAt?, Value.get?] at told

theorem reachedListed {doc v : Value} {l : Location} {fp : String} (bare : refOf v = none)
    (told : Fingerprint.fingerprint v = some fp) (reach : Reach .document doc l.segments .schema v) :
    ⟨l, fp⟩ ∈ sites doc :=
  memSites.mpr ⟨v, ⟨reach, by simp [entered, bare, fingerprintObject told]⟩, told⟩

end ApiGraph.Hoist

namespace ApiGraph.Build
open Json Resolve ApiGraph.Graph Declaration Hoist PathItems

/- A schema that is no type and has a fingerprint is listed with it, or it is inside of what only a
turn leads to: a reference to where the search does not come, or an operation that is not spelled in
lower case. -/
theorem inlineSchemasListed {fragments : List Value} {o : Pipeline.Options} {p : Pipeline.Prepared}
    {c : Config} {doc : Value} {g : Graph} (prepared : Pipeline.prepare fragments o = .ok p)
    (lawful : p.doc.lawful = true) (built : build c p.doc = (doc, .ok g)) :
    ∀ id s v fp, g.schema? id = some s → id ∉ g.types → Tree.get? s.location doc = some v →
      Fingerprint.fingerprint v = some fp →
        ⟨s.location, fp⟩ ∈ sites p.doc ∨ Beyond doc .schema s.location v := by
  intro id s v fp held untyped at_ told
  have lawful' := buildLawful lawful built
  obtain ⟨⟨n, run⟩, made⟩ := buildSource built
  obtain ⟨cx, set, walked⟩ := graphOfSource made
  obtain ⟨_, _, _, _, rfl⟩ := settingSource set
  have plain := preparePlain prepared
  have plain' := declarePlain lawful plain run
  have operations := operationsPlain lawful' plain'
  obtain ⟨_, _, builds, _⟩ := walkBuilds lawful' walked
  have bare : s.isType = false := by
    by_contra isType
    exact untyped ((builds.grows.edits.typed emptyTyped).memIff.mpr ⟨s, held, by simpa using isType⟩)
  have grounded : ∀ f ∈ (listed doc).flatMap operationsOf, Grounded doc f :=
    fun f mem => groundedOf plain' ((standsIff lawful').mp mem)
  have arrived : Arrived doc g := walkArrives walked lawful' operations grounded
  have arrival : Arrival doc s.location s.isType :=
    arrived _ (List.mem_of_getElem? (skeletonAt.mpr ⟨s, held, rfl, rfl⟩))
  by_cases root : s.location = .root
  · obtain ⟨x, comes⟩ := arrival.comes
    obtain rfl : x = v := Option.some.inj ((comes.reads lawful').symm.trans at_)
    rw [root] at comes ⊢
    exact .inr (rootBeyond comes)
  · obtain ⟨x, inline, own⟩ := arrival.inline bare root
    obtain rfl : x = v := Option.some.inj ((inline.reads lawful').symm.trans at_)
    exact inline.found.imp_left fun reach =>
      reachedListed own told (declareCovers lawful plain run _ _ reach)

def boxSchema : Value := .obj [("type", .str "object"), ("properties", .obj [
  ("lid", .obj [("type", .str "object"), ("properties", .obj [("size", .obj [("type", .str "string")])])])])]

def boxDocument (schema : Value) : Value := .obj [
  ("paths", .obj [("/box", .obj [("get", .obj [
    ("tags", .arr [.str "box"]), ("operationId", .str "getBox"),
    ("responses", .obj [("200", .obj [("content", .obj [
      ("application/json", .obj [("schema", schema)])])])])])])]),
  ("tags", .arr [entry "box"]), ("x-shared", .obj [("Box", boxSchema)])]

theorem boxListed : ∃ g,
    Pipeline.prepare [boxDocument boxSchema] bareOptions = .ok ⟨boxDocument boxSchema, none⟩ ∧
    build Config.default (boxDocument boxSchema) = (boxDocument boxSchema, .ok g) ∧
    g.types = [] ∧ (g.schemas.map fun s =>
      ((Tree.get? s.location (boxDocument boxSchema)).bind Fingerprint.fingerprint).isSome) =
        [true, true, false] ∧
    ∀ id s v fp, g.schema? id = some s → id ∉ g.types →
      Tree.get? s.location (boxDocument boxSchema) = some v → Fingerprint.fingerprint v = some fp →
        ⟨s.location, fp⟩ ∈ sites (boxDocument boxSchema) ∨
          Beyond (boxDocument boxSchema) .schema s.location v := by
  have prepared : Pipeline.prepare [boxDocument boxSchema] bareOptions =
      .ok ⟨boxDocument boxSchema, none⟩ := by rfl
  have told : Declaration.declare Config.default (boxDocument boxSchema) =
      .ok (boxDocument boxSchema, 0) := by rfl
  obtain ⟨g, walked, types, marks⟩ : ∃ g, graphOf Config.default (boxDocument boxSchema) = .ok g ∧
      g.types = [] ∧ (g.schemas.map fun s =>
        ((Tree.get? s.location (boxDocument boxSchema)).bind Fingerprint.fingerprint).isSome) =
          [true, true, false] := by decide +kernel
  have built : build Config.default (boxDocument boxSchema) = (boxDocument boxSchema, .ok g) := by
    simp [build, told, walked]
  have lawful : (boxDocument boxSchema).lawful = true := by decide +kernel
  have listed := inlineSchemasListed prepared lawful built
  exact ⟨g, prepared, built, types, marks, listed⟩

theorem boxSites (schema : Value) : sites (boxDocument schema) = schemaSites
    ⟨["paths", "/box", "get", "responses", "200", "content", "application/json", "schema"]⟩ true
      schema := by
  simp [sites, boxDocument, overMembers, pathItemSites, operationSites, parametersSites,
    Operation.httpMethods, responseSites, contentSites, mediaSites, inlineSites, refOf,
    Value.membersAt?, Value.itemsAt?, Value.textAt?, Value.get?, Value.members?, List.lookup_cons,
    Location.child, Location.root]

/- The schema inside of one that is only referred to is no type, has a fingerprint and is not listed. -/
theorem sharedUnlisted : ∃ p g s v fp,
    Pipeline.prepare [boxDocument (reference "#/x-shared/Box")] bareOptions = .ok p ∧
    build Config.default p.doc = (p.doc, .ok g) ∧
    g.schema? ⟨1⟩ = some s ∧ ⟨1⟩ ∉ g.types ∧ s.location = ⟨["x-shared", "Box", "properties", "lid"]⟩ ∧
    Tree.get? s.location p.doc = some v ∧ Fingerprint.fingerprint v = some fp ∧
    ⟨s.location, fp⟩ ∉ sites p.doc := by
  have prepared : Pipeline.prepare [boxDocument (reference "#/x-shared/Box")] bareOptions =
      .ok ⟨boxDocument (reference "#/x-shared/Box"), none⟩ := by rfl
  have told : Declaration.declare Config.default (boxDocument (reference "#/x-shared/Box")) =
      .ok (boxDocument (reference "#/x-shared/Box"), 0) := by rfl
  obtain ⟨g, walked, types, second⟩ : ∃ g,
      graphOf Config.default (boxDocument (reference "#/x-shared/Box")) = .ok g ∧ g.types = [⟨0⟩] ∧
      (g.schema? ⟨1⟩).map Schema.location = some ⟨["x-shared", "Box", "properties", "lid"]⟩ := by
    decide +kernel
  obtain ⟨s, held, place⟩ := Option.map_eq_some_iff.mp second
  have none : sites (boxDocument (reference "#/x-shared/Box")) = [] := by
    rw [boxSites, schemaSitesVisit]
    exact visitShut (referenceShut _) _
  exact ⟨_, g, s, _, _, prepared, by simp [build, told, walked], held, by simp [types], place,
    by rw [place]; rfl, by rfl, by simp [none]⟩

end ApiGraph.Build
