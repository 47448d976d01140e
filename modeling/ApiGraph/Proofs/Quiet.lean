import ApiGraph.Proofs.Lockstep

/-! Reading what is left of an outline once its types are registered. If references lead to types
only, the walk through operations meets no other type, and bodies get the names that are told. -/
namespace ApiGraph

def InputOutline.rename (f : Location → String) : InputOutline → InputOutline
  | .parameter l => .parameter l
  | .request l _ preferred => .request l (f l) preferred

def ApiOutline.rename (f : Location → String) (a : ApiOutline) : ApiOutline :=
  { a with methods := a.methods.map fun m =>
    { m with inputs := m.inputs.map (InputOutline.rename f) } }

def ApiOutline.NamedBy (f : Location → String) (a : ApiOutline) : Prop :=
  ∀ m ∈ a.methods, ∀ l name preferred, .request l name preferred ∈ m.inputs → name = f l

theorem ApiOutline.renameUnnamed {f : Location → String} {a : ApiOutline} (named : a.NamedBy f) :
    a.unnamed.rename f = a := by
  have methods : (a.methods.map MethodOutline.unnamed).map (fun m =>
      { m with inputs := m.inputs.map (InputOutline.rename f) }) = a.methods := by
    rw [List.map_map]
    refine (List.map_congr_left fun m mem => ?_).trans (List.map_id _)
    have inputs : (m.inputs.map InputOutline.unnamed).map (InputOutline.rename f) = m.inputs := by
      rw [List.map_map]
      refine (List.map_congr_left fun x listed => ?_).trans (List.map_id _)
      cases x with
      | parameter l => rfl
      | request l name preferred =>
        rw [named m mem l name preferred listed]
        rfl
    simp only [Function.comp_apply, MethodOutline.unnamed, inputs]
    rfl
  simp only [ApiOutline.rename, ApiOutline.unnamed, methods]

theorem apisRenamed {f : Location → String} {os os' : List ApiOutline}
    (named : ∀ o ∈ os, o.NamedBy f) (named' : ∀ o ∈ os', o.NamedBy f)
    (same : os.map ApiOutline.unnamed = os'.map ApiOutline.unnamed) : os = os' := by
  have back : ∀ {os : List ApiOutline}, (∀ o ∈ os, o.NamedBy f) →
      (os.map ApiOutline.unnamed).map (ApiOutline.rename f) = os := by
    intro os named
    rw [List.map_map]
    exact (List.map_congr_left fun o mem => ApiOutline.renameUnnamed (named o mem)).trans (List.map_id _)
  rw [← back named, ← back named', same]

end ApiGraph

namespace ApiGraph.Hydrate
open Json Build ApiGraph.Graph Resolve

/- A graph that has the types of `G`, no schemas but where `G` has some, and bodies as `named`. -/
structure Settles (G : Graph) (named : Location → String → Prop) (h : Graph) : Prop where
  tracks : Tracks h
  types : h.typePlaces = G.typePlaces
  less : ∀ l ∈ schemaPlaces h, l ∈ schemaPlaces G
  names : ∀ b ∈ h.bodies, named b.location b.name

section Quiet
variable {cx : Setting} {G g h h' : Graph} {named : Location → String → Prop}

theorem Settles.same (settles : Settles G named h) (tracks : Tracks h')
    (skeleton : h'.skeleton = h.skeleton) (bodies : ∀ b ∈ h'.bodies, named b.location b.name) :
    Settles G named h' where
  tracks := tracks
  types := by
    rw [typePlaces, skeleton]
    exact settles.types
  less l mem := settles.less l (by rwa [schemaPlaces, skeleton] at mem)
  names := bodies

theorem Settles.plant (settles : Settles G named h) {s : Schema} (isType : s.isType = false)
    (known : s.location ∈ schemaPlaces G) : Settles G named (h.plant s) where
  tracks := plantTracks settles.tracks s
  types := by
    have types := settles.types
    simp only [typePlaces, typesOf] at types
    simp [typePlaces, typesOf, plantSkeleton, isType, types]
  less l mem := by
    rw [schemaPlaces, plantSkeleton, List.map_append] at mem
    rcases List.mem_append.mp mem with old | new
    · exact settles.less l old
    · exact List.mem_singleton.mp new ▸ known
  names b mem := by
    have same : (h.plant s).bodies = h.bodies := by
      unfold Graph.plant
      split <;> rfl
    exact settles.names b (same ▸ mem)

theorem schemaNodeSettles (fin : Finished cx G) (ordered : Ordered cx.doc G.skeleton) {steps : Nat}
    {v : Value} {place : Location} {id : SchemaId} (known : Known cx.doc G.schemas v place)
    (settles : Settles G named h) (run : schemaNode cx steps v place h = .ok (id, h')) :
    Settles G named h' := by
  induction steps generalizing v place h h' id with
  | zero => exact (runThrow.mp run).elim
  | succ steps ih =>
    obtain ⟨r, resolved, ⟨_, rfl⟩ | ⟨free, c, told, rfl, filled⟩⟩ := runSchemaNode.mp run
    · exact settles
    · obtain ⟨at_, _, r', s, again, found, placed⟩ := known
      cases resolved.symm.trans again
      have stands : (r.locationOr place, s.isType) ∈ G.skeleton := by
        rw [← placed]
        exact List.mem_map_of_mem (List.mem_of_getElem? found)
      generalize entry : newSchema c r.value (r.locationOr place)
        (r.location?.bind Location.last?) = s' at filled
      have there : s'.location = r.locationOr place := by rw [← entry]; rfl
      -- a reference would have led to a type, which is there
      have isType : s'.isType = false := by
        by_cases plain : refOf v = none
        · have own : resolve cx.doc v = .ok ⟨v, none⟩ := resolvePlain plain
          cases resolved.symm.trans own
          rw [← entry]
          rfl
        · have target := ordered.referred at_ plain resolved stands
          rw [target] at stands
          have mem : r.locationOr place ∈ h.typePlaces := by
            rw [settles.types]
            exact memTypes.mpr stands
          have held := (settles.tracks _).mpr (memPlaces.mpr ⟨true, memTypes.mp mem⟩)
          simp [free] at held
      have planted := settles.plant isType (there ▸ memPlaces.mpr ⟨_, stands⟩)
      obtain ⟨_, ids, k, m, runs, rfl⟩ := fillSchemaRuns filled
      have inner : Settles G named m := by
        refine runs.keeps (R := fun a b => Settles G named a → Settles G named b) (fun _ h => h)
          (fun h h' a => h' (h a)) ?_ planted
        intro e mem _ _ _ one now
        exact ih ((knownPermits fin.lawful fin.mirrored).contents ⟨at_, _, r, s, resolved, found,
          placed⟩ resolved told e mem) now one
      exact inner.same (Edit.tracks (.fill _ k) inner.tracks) (fillSkeleton m _ k) inner.names

theorem Settles.other (settles : Settles G named g) (schemas : h.schemas = g.schemas)
    (nodes : ∀ l, (l ∉ schemaPlaces G ∧ h.schemaAt l = none) ∨ h.nodeAt l = g.nodeAt l)
    (bodies : ∀ b ∈ h.bodies, named b.location b.name) : Settles G named h := by
  refine settles.same (fun l => ?_) (sameSkeleton schemas) bodies
  rw [schemaPlaces, sameSkeleton schemas, ← schemaPlaces, ← settles.tracks l]
  rcases nodes l with ⟨free, vacant⟩ | same
  · have vacant' : (g.schemaAt l).isSome = false := by
      refine Bool.eq_false_iff.mpr fun held => ?_
      exact free (settles.less l ((settles.tracks l).mp held))
    simp [vacant, vacant']
  · simp only [Graph.schemaAt, same]

theorem keepsSettled (fin : Finished cx G) (ordered : Ordered cx.doc G.skeleton) :
    Keeps cx G.schemas (· ∉ schemaPlaces G) named (Settles G named) where
  schema known m settles := by
    obtain ⟨id, m', run, _⟩ := (schemaAtEnds (g := m) (knownPermits fin.lawful fin.mirrored)
      known).succeeds
    exact ⟨id, m', run, schemaNodeSettles fin ordered known settles run⟩
  other settles schemas bodies nodes := settles.other schemas nodes (bodies ▸ settles.names)
  body settles free name := by
    refine settles.other rfl (otherNode rfl (by simp) free) fun b mem => ?_
    rcases List.mem_append.mp mem with old | new
    · exact settles.names b old
    · exact List.mem_singleton.mp new ▸ name
  file {g id schemas} settles := by
    refine settles.same settles.tracks rfl fun b mem => ?_
    obtain ⟨i, found⟩ := List.getElem?_of_mem mem
    simp only [setBody, List.getElem?_modify] at found
    obtain ⟨b', held, rfl⟩ := Option.map_eq_some_iff.mp found
    have own := settles.names b' (List.mem_of_getElem? held)
    split
    · exact own
    · exact own

def bodyNameAt (g : Graph) (l : Location) : String :=
  ((g.bodies.find? (·.location == l)).map RequestBody.name).getD ""

theorem bodyNameOne (mixed : Mixed g) (kinds : OneKind g) {b : RequestBody} (mem : b ∈ g.bodies) :
    b.name = bodyNameAt g b.location := by
  cases sought : g.bodies.find? (·.location == b.location) with
  | none =>
    have missing := List.find?_eq_none.mp sought b mem
    simp at missing
  | some b' =>
    have placed : b'.location = b.location := by simpa using List.find?_some sought
    obtain ⟨i, found⟩ := List.getElem?_of_mem mem
    obtain ⟨j, found'⟩ := List.getElem?_of_mem (List.mem_of_find?_eq_some sought)
    have at_ : g.location? (.body ⟨i⟩) = some b.location := by simp [location?, body?, found]
    have at' : g.location? (.body ⟨j⟩) = some b.location := by
      simp [location?, body?, found', placed]
    have same : i = j := by
      by_contra other
      have apart : NodeRef.body ⟨i⟩ ≠ .body ⟨j⟩ := by simpa using other
      rcases mixed _ _ _ at_ at' apart with ⟨_, _, impossible, _⟩ | ⟨k, k', hk, hk', clash⟩
      · contradiction
      · exact clash (kinds k k' _ hk hk')
    subst same
    cases found.symm.trans found'
    simp [bodyNameAt, sought]

end Quiet
end ApiGraph.Hydrate
