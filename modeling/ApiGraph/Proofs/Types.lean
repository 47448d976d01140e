import ApiGraph.Proofs.Contents

/-! Which schemas are types. A node is listed as a type when it is made, so the types of a graph, with
their kinds and names, can be read off its schemas. -/
namespace ApiGraph

def Schema.isType (s : Schema) : Bool := s.impliedName.isSome

end ApiGraph

namespace ApiGraph.Graph
open Json Build

def skeleton (g : Graph) : List (Location × Bool) := g.schemas.map fun s => (s.location, s.isType)

def typesOf (skeleton : List (Location × Bool)) : List Location :=
  (skeleton.filter Prod.snd).map Prod.fst

def typePlaces (g : Graph) : List Location := typesOf g.skeleton

theorem typesOfAppend (a b : List (Location × Bool)) : typesOf (a ++ b) = typesOf a ++ typesOf b := by
  rw [typesOf, List.filter_append, List.map_append, ← typesOf, ← typesOf]

@[simp] theorem skeletonLength (g : Graph) : g.skeleton.length = g.schemas.length := by
  simp [skeleton]

theorem plantSkeleton (g : Graph) (s : Schema) :
    (g.plant s).skeleton = g.skeleton ++ [(s.location, s.isType)] := by
  rw [skeleton, plantSchemas, List.map_append]
  rfl

theorem fillSkeleton (g : Graph) (id : SchemaId) (c : Children) :
    (g.setSchema id (·.withChildren c)).skeleton = g.skeleton := by
  apply List.ext_getElem?
  intro i
  simp only [skeleton, setSchema, List.getElem?_map, List.getElem?_modify]
  cases g.schemas[i]? with
  | none => rfl
  | some s => by_cases same : id.index = i <;> simp [same, Schema.withChildren, Schema.isType]

theorem skeletonAt {g : Graph} {id : SchemaId} {l : Location} {b : Bool} :
    g.skeleton[id.index]? = some (l, b) ↔
      ∃ s, g.schema? id = some s ∧ s.location = l ∧ s.isType = b := by
  rw [skeleton, List.getElem?_map, Option.map_eq_some_iff]
  simp only [schema?, Prod.mk.injEq]

theorem plantedLast (g : Graph) (s : Schema) :
    (g.plant s).skeleton[g.schemas.length]? = some (s.location, s.isType) := by
  rw [plantSkeleton, ← skeletonLength, List.getElem?_append_right (Nat.le_refl _), Nat.sub_self]
  rfl

theorem Edit.extends {k : Scope} {g g' : Graph} (e : Edit k g g') : g.skeleton <+: g'.skeleton := by
  cases e with
  | schema s named free =>
    rw [plantSkeleton]
    exact List.prefix_append _ _
  | fill id c =>
    exact ⟨[], by simp only [List.append_nil, fillSkeleton]⟩
  | _ => exact List.prefix_refl _

theorem Edits.extends {k : Scope} {g g' : Graph} (e : Edits k g g') : g.skeleton <+: g'.skeleton :=
  e.keeps (P := fun m => g.skeleton <+: m.skeleton) (fun edit before => before.trans edit.extends)
    (List.prefix_refl _)

structure Typed (g : Graph) : Prop where
  listed : g.types = (g.skeleton.zipIdx.filter fun e => e.1.2).map fun e => ⟨e.2⟩
  named : ∀ s ∈ g.schemas, s.Named

theorem emptyTyped : Typed empty := ⟨rfl, fun _ mem => by cases mem⟩

theorem Edit.typed {k : Scope} {g g' : Graph} (e : Edit k g g') (h : Typed g) : Typed g' := by
  cases e with
  | schema s named free =>
    have types : (g.plant s).types = g.types ++ if s.isType then [⟨g.schemas.length⟩] else [] := by
      unfold plant Schema.isType
      split <;> simp [addType, addSchema]
    refine ⟨?_, fun s' mem => ?_⟩
    · rw [types, plantSkeleton, List.zipIdx_append, List.filter_append, List.map_append, ← h.listed]
      cases s.isType <;> simp
    · rw [plantSchemas] at mem
      rcases List.mem_append.mp mem with old | new
      · exact h.named s' old
      · exact List.mem_singleton.mp new ▸ named
  | fill id c =>
    refine ⟨?_, fun s' mem => ?_⟩
    · rw [fillSkeleton]
      exact h.listed
    · obtain ⟨i, found⟩ := List.getElem?_of_mem mem
      simp only [setSchema, List.getElem?_modify] at found
      obtain ⟨s, held, rfl⟩ := Option.map_eq_some_iff.mp found
      have own := h.named s (List.mem_of_getElem? held)
      split
      · exact own
      · exact own
  | _ => exact ⟨h.listed, h.named⟩

theorem Edits.typed {k : Scope} {g g' : Graph} (e : Edits k g g') (h : Typed g) : Typed g' :=
  e.keeps (fun edit => edit.typed) h

theorem Typed.memIff {g : Graph} (h : Typed g) {id : SchemaId} :
    id ∈ g.types ↔ ∃ s, g.schema? id = some s ∧ s.isType = true := by
  have marked : id ∈ g.types ↔ ∃ l, g.skeleton[id.index]? = some (l, true) := by
    rw [h.listed]
    constructor
    · intro mem
      obtain ⟨⟨⟨l, b⟩, i⟩, inside, rfl⟩ := List.mem_map.mp mem
      obtain ⟨found, isType⟩ := List.mem_filter.mp inside
      cases isType
      exact ⟨l, List.mem_zipIdx_iff_getElem?.mp found⟩
    · rintro ⟨l, held⟩
      have found : ((l, true), id.index) ∈ g.skeleton.zipIdx :=
        List.mem_zipIdx_iff_getElem?.mpr held
      exact List.mem_map.mpr ⟨_, List.mem_filter.mpr ⟨found, rfl⟩, rfl⟩
  simp only [marked, skeletonAt]
  constructor
  · rintro ⟨_, s, held, rfl, isType⟩
    exact ⟨s, held, isType⟩
  · rintro ⟨s, held, isType⟩
    exact ⟨s.location, s, held, rfl, isType⟩

theorem Typed.once {g : Graph} (h : Typed g) : g.types.Nodup := by
  have numbers : ((g.skeleton.zipIdx.filter fun e => e.1.2).map Prod.snd).Nodup := by
    refine (List.filter_sublist.map Prod.snd).nodup ?_
    rw [List.zipIdx_map_snd]
    exact List.nodup_range'
  rw [h.listed]
  exact List.pairwise_map.mpr ((List.pairwise_map.mp numbers).imp fun apart same =>
    apart (SchemaId.mk.inj same))

theorem Typed.outlines {g : Graph} (h : Typed g) : g.outline.types =
    (g.schemas.filter Schema.isType).map fun s => ⟨s.shape.kind, s.location, s.name⟩ := by
  have marked : g.types = (g.schemas.zipIdx.filter fun e => e.1.isType).map fun e => ⟨e.2⟩ := by
    rw [h.listed, skeleton, List.zipIdx_map, List.filter_map, List.map_map]
    rfl
  have told : ∀ e ∈ g.schemas.zipIdx.filter fun e => e.1.isType, g.typeOutline ⟨e.2⟩ =
      some ⟨e.1.shape.kind, e.1.location, e.1.name⟩ := by
    intro e mem
    have found := List.mem_zipIdx_iff_getElem?.mp (List.mem_filter.mp mem).1
    simp [typeOutline, schema?, found]
  have first : g.schemas.zipIdx.map Prod.fst = g.schemas := List.zipIdx_map_fst 0 g.schemas
  calc g.outline.types
    _ = (g.schemas.zipIdx.filter fun e => e.1.isType).filterMap fun e => g.typeOutline ⟨e.2⟩ := by
      rw [outline, marked, List.filterMap_map]
      rfl
    _ = (g.schemas.zipIdx.filter fun e => e.1.isType).map
        fun e => ⟨e.1.shape.kind, e.1.location, e.1.name⟩ := by
      rw [List.filterMap_congr told, List.filterMap_eq_map']
    _ = ((g.schemas.zipIdx.map Prod.fst).filter Schema.isType).map
        fun s => ⟨s.shape.kind, s.location, s.name⟩ := by
      rw [List.filter_map, List.map_map]
      rfl
    _ = _ := by rw [first]

theorem Typed.places {g : Graph} (h : Typed g) :
    g.outline.types.map TypeOutline.location = g.typePlaces := by
  rw [h.outlines, typePlaces, typesOf, skeleton, List.filter_map, List.map_map, List.map_map]
  rfl

theorem mirrorsKind {doc v : Value} {nodes : List Schema} {l : Location} {c s : Shape}
    (shape : MirrorsShape doc nodes v l c s) : s.kind = c.kind := by
  cases shape <;> rfl

theorem mirrorsTold {doc v v' : Value} {nodes nodes' : List Schema} {s s' : Schema}
    (mirrors : Mirrors doc nodes s v) (mirrors' : Mirrors doc nodes' s' v') (named : s.Named)
    (named' : s'.Named) (isType : s.isType = true) (isType' : s'.isType = true)
    (same : s.location = s'.location) : s.shape.kind = s'.shape.kind ∧ s.name = s'.name := by
  have value : v = v' := by
    have at_ := mirrors.located
    rw [same, mirrors'.located] at at_
    exact (Option.some.inj at_).symm
  subst value
  obtain ⟨c, told, _, _, _, shape⟩ := mirrors.classified
  obtain ⟨c', told', _, _, _, shape'⟩ := mirrors'.classified
  rw [same, told'] at told
  cases told
  obtain ⟨name, implied⟩ := Option.isSome_iff_exists.mp isType
  obtain ⟨name', implied'⟩ := Option.isSome_iff_exists.mp isType'
  have last := (named name implied).2
  rw [same, (named' name' implied').2] at last
  cases last
  refine ⟨(mirrorsKind shape).trans (mirrorsKind shape').symm, ?_⟩
  rw [Schema.name, Schema.name, mirrors.title, mirrors'.title, implied, implied']

theorem typesTold {doc : Value} {g h : Graph} (typed : Typed g) (typed' : Typed h)
    (mirrored : ∀ s ∈ g.schemas, ∃ v, Mirrors doc g.schemas s v)
    (mirrored' : ∀ s ∈ h.schemas, ∃ v, Mirrors doc h.schemas s v)
    (same : h.typePlaces = g.typePlaces) : h.outline.types = g.outline.types := by
  rw [typed.outlines, typed'.outlines]
  rw [← typed.places, ← typed'.places, typed.outlines, typed'.outlines] at same
  have inside : ∀ s ∈ g.schemas.filter Schema.isType, s ∈ g.schemas ∧ s.isType = true :=
    fun s mem => List.mem_filter.mp mem
  have inside' : ∀ s ∈ h.schemas.filter Schema.isType, s ∈ h.schemas ∧ s.isType = true :=
    fun s mem => List.mem_filter.mp mem
  generalize g.schemas.filter Schema.isType = ts at same inside ⊢
  generalize h.schemas.filter Schema.isType = ts' at same inside' ⊢
  induction ts' generalizing ts with
  | nil => simpa using same.symm
  | cons s' ts' ih =>
    cases ts with
    | nil => simp at same
    | cons s ts =>
      simp only [List.map_cons, List.cons.injEq] at same ⊢
      obtain ⟨known, isType⟩ := inside s List.mem_cons_self
      obtain ⟨known', isType'⟩ := inside' s' List.mem_cons_self
      obtain ⟨v, mirrors⟩ := mirrored s known
      obtain ⟨v', mirrors'⟩ := mirrored' s' known'
      obtain ⟨kind, name⟩ := mirrorsTold mirrors' mirrors (typed'.named s' known')
        (typed.named s known) isType' isType same.1
      refine ⟨by rw [kind, name, same.1], ih ts ?_ same.2 ?_⟩
      · exact fun t mem => inside t (List.mem_cons_of_mem _ mem)
      · exact fun t mem => inside' t (List.mem_cons_of_mem _ mem)

end ApiGraph.Graph
