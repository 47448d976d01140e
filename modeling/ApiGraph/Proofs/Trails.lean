import ApiGraph.Proofs.Sparing
import ApiGraph.Proofs.Together

/-! Two walks, the second of which has come to less. It has the same types, and where it lacks a
schema no reference leads there, so that it makes the schema where it is met in place, after the
first walk and without making a type. -/
namespace ApiGraph.Build
open Json Resolve ApiGraph.Graph Declaration Hydrate

def Met (cx : Setting) (v : Value) (place : Location) : Prop :=
  Tree.get? place cx.doc = some v ∨ ∃ l ∈ modelPlaces cx, v = reference l.toPointer ∧ place = l

def Referred (cx : Setting) (l : Location) : Prop :=
  ∃ v place r, Met cx v place ∧ refOf v ≠ none ∧ resolve cx.doc v = .ok r ∧ r.locationOr place = l

def Closed (doc : Value) (g : Graph) (l : Location) : Prop :=
  ∀ v c e r, Tree.get? l doc = some v → Classify.classify v l = .ok c → e ∈ contents c.shape v l →
    resolve doc e.1 = .ok r → r.locationOr e.2 ∈ schemaPlaces g

structure Trails (cx : Setting) (g h : Graph) : Prop where
  tracks : Tracks g
  tracks' : Tracks h
  types : h.typePlaces = g.typePlaces
  less : ∀ l ∈ schemaPlaces h, l ∈ schemaPlaces g
  missing : ∀ l ∈ schemaPlaces g, l ∉ schemaPlaces h → ¬ Referred cx l ∧ Closed cx.doc g l

theorem Met.read {cx : Setting} {v : Value} {place : Location} (met : Met cx v place) :
    ReadAt cx.doc v place := by
  rcases met with at_ | ⟨l, _, rfl, _⟩
  · exact readAt at_
  · exact readReference _ _ _

theorem closedMirrored {doc : Value} {g : Graph} (mirrored : Mirrored doc g.schemas) {l : Location}
    (mem : l ∈ schemaPlaces g) : Closed doc g l := by
  intro v c e r at_ told inside resolved
  obtain ⟨b, listed⟩ := memPlaces.mp mem
  obtain ⟨s, held, same⟩ := List.mem_map.mp listed
  obtain ⟨rfl, _⟩ := Prod.mk.inj same
  obtain ⟨w, mirrors⟩ := mirrored s held
  cases at_.symm.trans mirrors.located
  obtain ⟨_, r', t, again, found, placed⟩ := contentsStand mirrors told inside
  cases resolved.symm.trans again
  exact placed ▸ List.mem_map_of_mem (List.mem_map_of_mem (List.mem_of_getElem? found))

section Planted
variable {g : Graph} {s : Schema} {l : Location}

theorem memPlanted : l ∈ schemaPlaces (g.plant s) ↔ l ∈ schemaPlaces g ∨ l = s.location := by
  rw [schemaPlaces, plantSkeleton, List.map_append, List.mem_append, ← schemaPlaces]
  simp

theorem plantedTypes : (g.plant s).typePlaces =
    g.typePlaces ++ if s.isType then [s.location] else [] := by
  cases isType : s.isType <;> simp [typePlaces, typesOf, plantSkeleton, isType]

end Planted

namespace Trails
variable {cx : Setting} {g g' h h' : Graph}

theorem vacant (trails : Trails cx g h) {l : Location} (free : h.schemaAt l = none) :
    l ∉ schemaPlaces h := by
  intro mem
  have found := (trails.tracks' l).mpr mem
  simp [free] at found

theorem same (trails : Trails cx g h) (tracks : Tracks g') (tracks' : Tracks h')
    (left : g'.skeleton = g.skeleton) (right : h'.skeleton = h.skeleton) : Trails cx g' h' := by
  have places : schemaPlaces g' = schemaPlaces g := by rw [schemaPlaces, left, schemaPlaces]
  have places' : schemaPlaces h' = schemaPlaces h := by rw [schemaPlaces, right, schemaPlaces]
  refine ⟨tracks, tracks', ?_, ?_, ?_⟩
  · rw [typePlaces, right, typePlaces, left]
    exact trails.types
  · rw [places, places']
    exact trails.less
  · intro l mem gone
    rw [places] at mem
    rw [places'] at gone
    obtain ⟨unreferred, closed⟩ := trails.missing l mem gone
    refine ⟨unreferred, fun v c e r at_ told inside resolved => ?_⟩
    rw [places]
    exact closed v c e r at_ told inside resolved

theorem plant (trails : Trails cx g h) (s : Schema) : Trails cx (g.plant s) (h.plant s) where
  tracks := plantTracks trails.tracks s
  tracks' := plantTracks trails.tracks' s
  types := by rw [plantedTypes, plantedTypes, trails.types]
  less l mem := memPlanted.mpr ((memPlanted.mp mem).imp_left (trails.less l))
  missing l mem gone := by
    have other : l ≠ s.location := fun here => gone (memPlanted.mpr (.inr here))
    have before := (memPlanted.mp mem).resolve_right other
    obtain ⟨unreferred, closed⟩ :=
      trails.missing l before fun there => gone (memPlanted.mpr (.inl there))
    exact ⟨unreferred, fun v c e r at_ told inside resolved =>
      memPlanted.mpr (.inl (closed v c e r at_ told inside resolved))⟩

theorem plantRight (trails : Trails cx g h) {s : Schema} (isType : s.isType = false)
    (known : s.location ∈ schemaPlaces g) : Trails cx g (h.plant s) where
  tracks := trails.tracks
  tracks' := plantTracks trails.tracks' s
  types := by rw [plantedTypes, isType, trails.types]; simp
  less l mem := (memPlanted.mp mem).elim (trails.less l) fun here => here ▸ known
  missing l mem gone := trails.missing l mem fun there => gone (memPlanted.mpr (.inl there))

theorem fillRight (trails : Trails cx g h) (id : SchemaId) (c : Children) :
    Trails cx g (h.setSchema id (·.withChildren c)) :=
  trails.same trails.tracks (Edit.tracks (.fill id c) trails.tracks') rfl (fillSkeleton h id c)

theorem fillLeft (trails : Trails cx g h) (id : SchemaId) (c : Children) :
    Trails cx (g.setSchema id (·.withChildren c)) h :=
  trails.same (Edit.tracks (.fill id c) trails.tracks) trails.tracks' (fillSkeleton g id c) rfl

end Trails

section Schemas
variable {cx : Setting} {g g' h h' : Graph} {v : Value} {place : Location}

/- The second walk comes through a schema that the first one has. -/
theorem schemaNodeTrails (lawful : cx.doc.lawful = true) {steps : Nat} {r : Resolved}
    {id : SchemaId} (met : Met cx v place) (resolved : resolve cx.doc v = .ok r)
    (known : r.locationOr place ∈ schemaPlaces g) (trails : Trails cx g h)
    (run : schemaNode cx steps v place h = .ok (id, h')) : Trails cx g h' := by
  induction steps generalizing v place r h h' id with
  | zero => exact (runThrow.mp run).elim
  | succ steps ih =>
    obtain ⟨r', again, ⟨_, rfl⟩ | ⟨free, c, told, rfl, filled⟩⟩ := runSchemaNode.mp run
    · exact trails
    · cases resolved.symm.trans again
      have here := resolvedAt met.read resolved
      -- no reference has led here
      obtain ⟨unreferred, closed⟩ := trails.missing _ known (trails.vacant free)
      have plain : refOf v = none := by
        by_contra named
        exact unreferred ⟨v, place, r, met, named, resolved, rfl⟩
      cases resolved.symm.trans (resolvePlain plain)
      obtain ⟨_, ids, k, m, runs, rfl⟩ := fillSchemaRuns filled
      have planted : Trails cx g (h.plant (newSchema c v place none)) := trails.plantRight rfl known
      have inner : Trails cx g m := by
        refine runs.keeps (R := fun a b => Trails cx g a → Trails cx g b) (fun _ t => t)
          (fun t t' a => t' (t a)) ?_ planted
        intro e mem _ _ _ one now
        have inside := contentsAt lawful here mem
        obtain ⟨r, led⟩ : ∃ r, resolve cx.doc e.1 = .ok r := by
          cases steps with
          | zero => exact (runThrow.mp one).elim
          | succ steps =>
            obtain ⟨r, led, _⟩ := runSchemaNode.mp one
            exact ⟨r, led⟩
        exact ih (.inl inside) led (closed v c e r here told mem led) now one
      exact inner.fillRight _ k

theorem runsTogether {α β : Type} {f f' : α → Walk β} {xs : List α} {ys ys' : List β}
    {R : Graph → Graph → Prop} (runs : Runs f xs g ys g') (runs' : Runs f' xs h ys' h')
    (each : ∀ x ∈ xs, Together R (f x) (f' x)) (related : R g h) : R g' h' :=
  Together.mapM each _ _ _ _ _ _ related (runMapM.mpr runs) (runMapM.mpr runs')

theorem schemaNodeTogether (lawful : cx.doc.lawful = true) (steps steps' : Nat)
    (met : Met cx v place) :
    Together (Trails cx) (schemaNode cx steps v place) (schemaNode cx steps' v place) := by
  intro g h id id' g' h' trails run run'
  induction steps generalizing steps' v place g g' h h' id id' with
  | zero => exact (runThrow.mp run).elim
  | succ steps ih =>
    obtain ⟨r, resolved, ⟨held, rfl⟩ | ⟨free, c, told, rfl, filled⟩⟩ := runSchemaNode.mp run
    · have known := (trails.tracks (r.locationOr place)).mp (by simp [held])
      exact schemaNodeTrails lawful met resolved known trails run'
    · cases steps' with
      | zero => exact (runThrow.mp run').elim
      | succ steps' =>
        obtain ⟨r', again, ⟨held', rfl⟩ | ⟨free', c', told', rfl, filled'⟩⟩ := runSchemaNode.mp run'
        · have known := trails.less _ ((trails.tracks' (r'.locationOr place)).mp (by simp [held']))
          cases resolved.symm.trans again
          have found := (trails.tracks (r.locationOr place)).mpr known
          simp [free] at found
        · cases resolved.symm.trans again
          cases told.symm.trans told'
          have here := resolvedAt met.read resolved
          obtain ⟨_, ids, k, m, runs, rfl⟩ := fillSchemaRuns filled
          obtain ⟨_, ids', k', m', runs', rfl⟩ := fillSchemaRuns filled'
          refine ((runsTogether runs runs' (fun e mem => ?_) (trails.plant _)).fillLeft _ k).fillRight
            _ k'
          intro a b i j a' b' now one one'
          exact ih steps' (.inl (contentsAt lawful here mem)) _ _ _ _ _ _ now one one'

theorem schemaAtAgree (lawful : cx.doc.lawful = true) : Agree cx (Trails cx) (schemaAt cx) :=
  fun at_ => schemaNodeTogether lawful cx.bound cx.bound (.inl at_)

theorem modelsTogether (lawful : cx.doc.lawful = true) :
    Together (Trails cx) ((modelPlaces cx).forM (registerAt cx))
      ((modelPlaces cx).forM (registerAt cx)) := by
  refine Together.forM fun l mem => ?_
  exact Together.bind (schemaNodeTogether lawful cx.bound cx.bound (.inr ⟨l, mem, rfl, rfl⟩))
    fun _ _ => Together.pure _ _

end Schemas

section Kinds
variable {k : Scope} {g g' : Graph} {n : NodeRef} {l : Location}

theorem kindsBefore (edits : Edits k g g') (kinds : OneKind g') : OneKind g :=
  fun n m l hn hm => kinds n m l (edits.keepsLocation hn) (edits.keepsLocation hm)

theorem kindFound (indexed : Indexed g) (kinds : OneKind g) (stands : g.location? n = some l) :
    ∃ m, g.nodeAt l = some m ∧ n.SameKind m := by
  obtain ⟨m, held⟩ := indexed.known stands
  exact ⟨m, held, kinds n m l stands (indexed.placed held)⟩

theorem kindTracks (indexed : Indexed g) (kinds : OneKind g) : Tracks g := by
  intro l
  constructor
  · intro found
    obtain ⟨id, held⟩ := Option.isSome_iff_exists.mp found
    have node : g.nodeAt l = some (.schema id) := by
      unfold Graph.schemaAt at held
      split at held
      · rename_i id' there
        cases held
        exact there
      · contradiction
    obtain ⟨s, there, rfl⟩ := Option.map_eq_some_iff.mp (indexed.placed node)
    exact List.mem_map_of_mem (List.mem_map_of_mem (List.mem_of_getElem? there))
  · intro mem
    obtain ⟨id, stands⟩ := placeLocated mem
    obtain ⟨m, held, same⟩ := kindFound indexed kinds stands
    cases m with
    | schema id' => simp [Graph.schemaAt, held]
    | _ => exact same.elim

end Kinds

section Nodes
variable {cx : Setting} {g g' h h' : Graph} {v : Value} {l : Location}

theorem Trails.other (trails : Trails cx g h) (tracks : Tracks g') (left : g'.schemas = g.schemas)
    (right : h'.schemas = h.schemas)
    (nodes : ∀ l, (l ∉ schemaPlaces g ∧ h'.schemaAt l = none) ∨ h'.nodeAt l = h.nodeAt l) :
    Trails cx g' h' := by
  refine trails.same tracks (fun l => ?_) (sameSkeleton left) (sameSkeleton right)
  rw [schemaPlaces, sameSkeleton right, ← schemaPlaces, ← trails.tracks' l]
  rcases nodes l with ⟨free, vacant⟩ | same
  · have vacant' : (h.schemaAt l).isSome = false := by
      refine Bool.eq_false_iff.mpr fun held => ?_
      exact free (trails.less l ((trails.tracks' l).mp held))
    simp [vacant, vacant']
  · simp only [Graph.schemaAt, same]

theorem Trails.node (trails : Trails cx g h) (indexed : Indexed g') (kinds : OneKind g')
    {n n' : NodeRef} (stands : g'.location? n = some l) (other : ∀ id, n ≠ .schema id)
    (other' : ∀ id, n' ≠ .schema id) (left : g'.schemas = g.schemas) (right : h'.schemas = h.schemas)
    (index : h'.nodes = Entries.put l n' h.nodes) : Trails cx g' h' := by
  have free : l ∉ schemaPlaces g := by
    have bare := otherPlace kinds stands other
    rwa [schemaPlaces, sameSkeleton left] at bare
  exact trails.other (kindTracks indexed kinds) left right (otherNode index other' free)

theorem keepsTrails (lawful : cx.doc.lawful = true) (mirrored : Mirrored cx.doc g.schemas) :
    Keeps cx g.schemas (· ∉ schemaPlaces g) (fun _ _ => True) (Trails cx g) where
  schema known m trails := by
    obtain ⟨id, m', run, _⟩ :=
      (schemaAtEnds (g := m) (knownPermits lawful mirrored) known).succeeds
    obtain ⟨at_, _, r, s, resolved, found, placed⟩ := known
    refine ⟨id, m', run, schemaNodeTrails lawful (.inl at_) resolved ?_ trails run⟩
    exact placed ▸ List.mem_map_of_mem (List.mem_map_of_mem (List.mem_of_getElem? found))
  other trails schemas _ nodes := trails.other trails.tracks rfl schemas nodes
  body trails free _ := trails.other trails.tracks rfl rfl (otherNode rfl (by simp) free)
  file trails := trails.other trails.tracks rfl rfl fun _ => .inr rfl

structure Pursues (cx : Setting) (g h : Graph) : Prop where
  trails : Trails cx g h
  parameters : ∀ p ∈ h.parameters, ∃ p' ∈ g.parameters, p'.location = p.location
  bodies : ∀ b ∈ h.bodies, ∃ b' ∈ g.bodies, b'.location = b.location

theorem parameterNodeTrails (lawful : cx.doc.lawful = true) (kinds : OneKind g')
    (at_ : Tree.get? l cx.doc = some v) (builds : Builds .whole cx .all .empty g)
    (indexed' : Indexed h) (pursues : Pursues cx g h) {id id' : ParameterId}
    (run : parameterNode cx l v g = .ok (id, g')) (run' : parameterNode cx l v h = .ok (id', h')) :
    Trails cx g' h' := by
  have indexed := builds.grows.indexed emptyIndexed
  obtain ⟨found, rfl⟩ | ⟨free, rfl, p, schema, m, placed, _, visited, rfl⟩ := runParameterNode run
  · obtain ⟨p, held, rfl⟩ := Option.map_eq_some_iff.mp (indexed.placed found)
    have made := (builds.parameters.fresh emptyIndexed _ p (Nat.zero_le _) held).2
    have bare := otherPlace kinds (indexed.placed found) (by simp)
    obtain ⟨_, _, again, trails⟩ := parameterNodeSucceeds lawful
      (keepsTrails lawful (mirroredSchemas builds)) made (.refl _) bare at_ h pursues.trails
    cases run'.symm.trans again
    exact trails
  · have grows := (headerAtTravels lawful at_ _ _ _ visited).grows lawful
    have done : Edit .inputs m (m.setParameter ⟨g.parameters.length⟩
      fun p => { p with schema := schema }) := .carry (by simp) _ schema
    have kinds₁ := kindsBefore ((grows.edits.widen (.inl rfl)).tail done) kinds
    have added : Edit .inputs g (g.addParameter p).2 := .parameter (by simp) _ (placed ▸ free)
    have indexed₁ := Edits.indexed (.single added) indexed
    obtain ⟨found', rfl⟩ | ⟨_, rfl, p', schema', m', placed', _, visited', rfl⟩ := runParameterNode run'
    · -- the first walk would have found it too
      obtain ⟨q, held, same⟩ := Option.map_eq_some_iff.mp (indexed'.placed found')
      obtain ⟨q', mem, same'⟩ := pursues.parameters q (List.mem_of_getElem? held)
      obtain ⟨j, there⟩ := List.getElem?_of_mem mem
      obtain ⟨n, node, kind⟩ := kindFound indexed (kindsBefore (.single added) kinds₁)
        (n := .parameter ⟨j⟩) (l := l) (by simp [location?, parameter?, there, same', same])
      cases n with
      | parameter id => exact (free id node).elim
      | _ => exact kind.elim
    · have index := (addParameterMakes h p').index
      rw [placed', ← placed] at index
      have made : Trails cx (g.addParameter p).2 (h.addParameter p').2 :=
        pursues.trails.node indexed₁ kinds₁ (addParameterMakes g p).here (by simp) (by simp) rfl rfl
          index
      have walked := headerSchemaTogether lawful (schemaAtAgree lawful) cx.bound at_ _ _ _ _ _ _
        made visited visited'
      exact walked.other walked.tracks rfl rfl fun _ => .inr rfl

theorem bodyNodeTrails (lawful : cx.doc.lawful = true) (kinds : OneKind g')
    (at_ : Tree.get? l cx.doc = some v) (builds : Builds .whole cx .all .empty g)
    (indexed' : Indexed h) (pursues : Pursues cx g h) {name : String} {preferred : List String}
    (ranked : preferred = Preference.mediaTypes cx.requestPatterns (Entries.keys (contentOf v)))
    {id id' : BodyId} (run : bodyNode cx l v name preferred g = .ok (id, g'))
    (run' : bodyNode cx l v name preferred h = .ok (id', h')) : Trails cx g' h' := by
  have indexed := builds.grows.indexed emptyIndexed
  obtain ⟨found, rfl⟩ | ⟨free, rfl, b, byMedia, m, schemas, placed, _, _, _, visited, -, rfl⟩ :=
    runBodyNode run
  · obtain ⟨b, held, rfl⟩ := Option.map_eq_some_iff.mp (indexed.placed found)
    obtain ⟨⟨w, at', files⟩, made⟩ := filedBody builds (List.mem_of_getElem? held)
    cases at_.symm.trans at'
    have bare := otherPlace kinds (indexed.placed found) (by simp)
    have succeeds : Succeeds (Trails cx g') (bodyNode cx b.location v name b.preferred) :=
      bodyNodeSucceeds lawful (keepsTrails lawful (mirroredSchemas builds)) made (.refl _) bare trivial
        at_
    obtain ⟨_, _, again, trails⟩ := succeeds h pursues.trails
    rw [files.ranked, ← ranked] at again
    cases run'.symm.trans again
    exact trails
  · have grows := (mediaOfContentTrips lawful at_ visited).grows lawful
    have done : Edit .inputs m (m.setBody ⟨g.bodies.length⟩ fun b => { b with schemas := schemas }) :=
      .file (by simp) _ schemas
    have kinds₁ := kindsBefore ((grows.edits.widen (.inl rfl)).tail done) kinds
    have added : Edit .inputs g (g.addBody b).2 := .body (by simp) _ (placed ▸ free)
    have indexed₁ := Edits.indexed (.single added) indexed
    obtain ⟨found', rfl⟩ | ⟨_, rfl, b', _, _, _, placed', _, _, _, visited', -, rfl⟩ := runBodyNode run'
    · obtain ⟨q, held, same⟩ := Option.map_eq_some_iff.mp (indexed'.placed found')
      obtain ⟨q', mem, same'⟩ := pursues.bodies q (List.mem_of_getElem? held)
      obtain ⟨j, there⟩ := List.getElem?_of_mem mem
      obtain ⟨n, node, kind⟩ := kindFound indexed (kindsBefore (.single added) kinds₁)
        (n := .body ⟨j⟩) (l := l) (by simp [location?, body?, there, same', same])
      cases n with
      | body id => exact (free id node).elim
      | _ => exact kind.elim
    · have index := (addBodyMakes h b').index
      rw [placed', ← placed] at index
      have made : Trails cx (g.addBody b).2 (h.addBody b').2 :=
        pursues.trails.node indexed₁ kinds₁ (addBodyMakes g b).here (by simp) (by simp) rfl rfl index
      have walked := mediaOfContentTogether lawful (schemaAtAgree lawful) at_ _ _ _ _ _ _
        made visited visited'
      exact walked.other walked.tracks rfl rfl fun _ => .inr rfl

theorem responseNodeTrails (lawful : cx.doc.lawful = true) (kinds : OneKind g')
    (indexed : Indexed g) (indexed' : Indexed h) (trails : Trails cx g h)
    {preferred : List ResponseCode}
    (fresh : ∀ r ∈ g.responses, r.location ≠ l) (fresh' : ∀ r ∈ h.responses, r.location ≠ l)
    {id id' : ResponseId} (run : responseNode cx l preferred g = .ok (id, g'))
    (run' : responseNode cx l preferred h = .ok (id', h')) : Trails cx g' h' := by
  have unmade : ∀ {m : Graph}, Indexed m → (∀ r ∈ m.responses, r.location ≠ l) →
      ∀ id, m.nodeAt l ≠ some (.response id) := by
    intro m indexed fresh id found
    obtain ⟨r, held, same⟩ := Option.map_eq_some_iff.mp (indexed.placed found)
    exact fresh r (List.mem_of_getElem? held) same
  have free := unmade indexed fresh
  obtain ⟨found, _⟩ | ⟨_, rfl, r, carried, m, placed, _, _, visited, rfl⟩ := runResponseNode run
  · exact (free _ found).elim
  obtain ⟨found, _⟩ | ⟨_, rfl, r', carried', m', placed', _, _, visited', rfl⟩ := runResponseNode run'
  · exact (unmade indexed' fresh' _ found).elim
  have added : Edit .inputs g (g.addResponse r).2 := .response (by simp) _ (placed ▸ free)
  have done : Edit .inputs m (m.setResponse ⟨g.responses.length⟩ fun r =>
      { r with schemas := carried.schemas, hasAny := carried.hasAny }) :=
    .settle (by simp) _ carried.schemas carried.hasAny
  have trips : Trips cx (g.addResponse r).2 m := by
    refine (runFoldlM.mp visited).keeps (R := Trips cx) .refl .trans fun code mem b a y c one => ?_
    exact (visitCodeCollects lawful code one).1
  have kinds₁ := kindsBefore (((trips.grows lawful).edits.widen (.inl rfl)).tail done) kinds
  have index := (addResponseMakes h r').index
  rw [placed', ← placed] at index
  have made : Trails cx (g.addResponse r).2 (h.addResponse r').2 :=
    trails.node (Edits.indexed (.single added) indexed) kinds₁ (addResponseMakes g r).here (by simp)
      (by simp) rfl rfl index
  have walks : Together (Trails cx) (preferred.foldlM (visitCode cx l) ⟨[], r.hasAny⟩)
      (preferred.foldlM (visitCode cx l) ⟨[], r'.hasAny⟩) :=
    Together.foldlM (fun code _ b b' => visitCodeTogether lawful (schemaAtAgree lawful) code b b') _ _
  have walked := walks _ _ _ _ _ _ made visited visited'
  exact walked.other walked.tracks rfl rfl fun _ => .inr rfl

end Nodes
end ApiGraph.Build
