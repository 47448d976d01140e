import ApiGraph.Proofs.Readback
import Mathlib.Data.List.Infix

/-! Two walks side by side. One comes through a graph that already holds other schemas, the other
starts from the types alone. Where references lead to types only and what stands inside a type is met
after it, both find and make the same nodes below every type. -/
namespace ApiGraph.Hydrate
open Json Build ApiGraph.Graph Resolve

def schemaPlaces (g : Graph) : List Location := g.skeleton.map Prod.fst

def Tracks (g : Graph) : Prop := ∀ l, (g.schemaAt l).isSome = true ↔ l ∈ schemaPlaces g

theorem plantTracks {g : Graph} (tracks : Tracks g) (s : Schema) : Tracks (g.plant s) := by
  intro l
  have before := tracks l
  rw [plantSchemaAt, schemaPlaces, plantSkeleton, List.map_append, List.mem_append, ← schemaPlaces,
    ← before]
  split
  · rename_i same
    simp [same]
  · rename_i other
    simp [other]

theorem Edit.tracks {g g' : Graph} (e : Edit .schemas g g') (tracks : Tracks g) : Tracks g' := by
  cases e with
  | schema s named free => exact plantTracks tracks s
  | fill id c =>
    intro l
    rw [schemaPlaces, fillSkeleton]
    exact tracks l
  | _ => contradiction

/- What the order of the schemas of a graph has to be: a reference leads to a type, and what stands
inside a type without being one comes after it. -/
structure Ordered (doc : Value) (skeleton : List (Location × Bool)) : Prop where
  referred : ∀ {place v r b}, Tree.get? place doc = some v → refOf v ≠ none →
    resolve doc v = .ok r → (r.locationOr place, b) ∈ skeleton → b = true
  inside : ∀ {i j : Nat} {t l : Location}, skeleton[i]? = some (t, true) → skeleton[j]? = some (l, false) →
    l.startsWith t = true → i < j

/- A graph `h` follows `g`: both have the same types, and `h` has no schemas but those of `g` and
lacks none that `g` has from the `start` on. -/
structure Follows (start : Nat) (g h : Graph) : Prop where
  tracks : Tracks g
  tracks' : Tracks h
  types : h.typePlaces = g.typePlaces
  less : ∀ e ∈ h.skeleton, e ∈ g.skeleton
  recent : ∀ e ∈ g.skeleton.drop start, e ∈ h.skeleton
  started : start ≤ g.skeleton.length

theorem memTypes {g : Graph} {l : Location} : l ∈ g.typePlaces ↔ (l, true) ∈ g.skeleton := by
  simp [typePlaces, typesOf]

theorem memPlaces {g : Graph} {l : Location} : l ∈ schemaPlaces g ↔ ∃ b, (l, b) ∈ g.skeleton := by
  simp [schemaPlaces]

namespace Follows
variable {start : Nat} {g h : Graph}

theorem plant (follows : Follows start g h) (s s' : Schema) (same : s'.location = s.location)
    (same' : s'.isType = s.isType) : Follows start (g.plant s) (h.plant s') where
  tracks := plantTracks follows.tracks s
  tracks' := plantTracks follows.tracks' s'
  types := by
    have types := follows.types
    simp only [typePlaces, typesOf] at types
    simp only [typePlaces, typesOf, plantSkeleton, List.filter_append, List.map_append, types, same, same']
  less e mem := by
    rw [plantSkeleton] at mem ⊢
    rcases List.mem_append.mp mem with old | new
    · exact List.mem_append_left _ (follows.less e old)
    · rw [same, same'] at new
      exact List.mem_append_right _ new
  recent e mem := by
    rw [plantSkeleton, List.drop_append_of_le_length follows.started] at mem
    rw [plantSkeleton, same, same']
    rcases List.mem_append.mp mem with old | new
    · exact List.mem_append_left _ (follows.recent e old)
    · exact List.mem_append_right _ new
  started := by
    have := follows.started
    rw [plantSkeleton, List.length_append]
    omega

theorem same {g' h' : Graph} (follows : Follows start g h) (tracks : Tracks g') (tracks' : Tracks h')
    (left : g'.skeleton = g.skeleton) (right : h'.skeleton = h.skeleton) : Follows start g' h' where
  tracks := tracks
  tracks' := tracks'
  types := by
    simp only [typePlaces, left, right]
    exact follows.types
  less := by
    rw [left, right]
    exact follows.less
  recent := by
    rw [left, right]
    exact follows.recent
  started := by
    rw [left]
    exact follows.started

theorem fillLeft (follows : Follows start g h) (id : SchemaId) (c : Children) :
    Follows start (g.setSchema id (·.withChildren c)) h :=
  follows.same (Edit.tracks (.fill id c) follows.tracks) follows.tracks' (fillSkeleton g id c) rfl

theorem fillRight (follows : Follows start g h) (id : SchemaId) (c : Children) :
    Follows start g (h.setSchema id (·.withChildren c)) :=
  follows.same follows.tracks (Edit.tracks (.fill id c) follows.tracks') rfl (fillSkeleton h id c)

theorem now (follows : Follows start g h) : Follows g.skeleton.length g h where
  tracks := follows.tracks
  tracks' := follows.tracks'
  types := follows.types
  less := follows.less
  recent e mem := by
    rw [List.drop_length] at mem
    cases mem
  started := Nat.le_refl _

end Follows

section Lockstep
variable {cx : Setting} {G g g' h h' : Graph} {start : Nat}

theorem runsExtend {α β : Type} {f : α → Walk β} {xs : List α} {ys : List β}
    (runs : Runs f xs g ys g')
    (extends_ : ∀ x ∈ xs, ∀ {g y g'}, f x g = .ok (y, g') → g.skeleton <+: g'.skeleton) :
    g.skeleton <+: g'.skeleton :=
  runs.keeps (R := fun a b => a.skeleton <+: b.skeleton) (fun _ => List.prefix_refl _)
    (fun first rest => first.trans rest) extends_

theorem runsFollow {α β : Type} {f f' : α → Walk β} {xs : List α} {ys ys' : List β} {base : Graph}
    (runs : Runs f xs g ys g') (runs' : Runs f' xs h ys' h') (below : base.skeleton <+: g.skeleton)
    (final : g'.skeleton <+: G.skeleton)
    (extends_ : ∀ x ∈ xs, ∀ {g y g'}, f x g = .ok (y, g') → g.skeleton <+: g'.skeleton)
    (each : ∀ x ∈ xs, ∀ {g y g' h y' h'}, base.skeleton <+: g.skeleton →
      g'.skeleton <+: G.skeleton → Follows start g h → f x g = .ok (y, g') →
      f' x h = .ok (y', h') → Follows start g' h')
    (follows : Follows start g h) : Follows start g' h' := by
  induction runs generalizing ys' h with
  | nil =>
    cases runs'
    exact follows
  | @cons x xs y ys g m g' head tail ih =>
    cases runs' with
    | cons head' tail' =>
      have later : ∀ y ∈ xs, y ∈ x :: xs := fun y mem => List.mem_cons_of_mem _ mem
      have first := extends_ x List.mem_cons_self head
      have rest := runsExtend tail fun y mem => extends_ y (later y mem)
      have now := each x List.mem_cons_self below (rest.trans final) follows head head'
      exact ih tail' (below.trans first) final (fun y mem => extends_ y (later y mem))
        (fun y mem => each y (later y mem)) now

theorem schemaNodeExtends (lawful : cx.doc.lawful = true) {steps : Nat} {v : Value}
    {place : Location} {id : SchemaId} (read : ReadAt cx.doc v place)
    (run : schemaNode cx steps v place g = .ok (id, g')) : g.skeleton <+: g'.skeleton :=
  (schemaNodeVisits lawful steps read run).1.edits.extends

theorem contentsExtend (lawful : cx.doc.lawful = true) {steps : Nat} {v : Value} {l : Location}
    {shape : Shape} (at_ : Tree.get? l cx.doc = some v) : ∀ e ∈ contents shape v l, ∀ {g id g'},
      schemaNode cx steps e.1 e.2 g = .ok (id, g') → g.skeleton <+: g'.skeleton :=
  fun _ mem => schemaNodeExtends lawful (readAt (contentsAt lawful at_ mem))

def Beneath (start : Nat) (g : Graph) (place : Location) : Prop :=
  ∃ t, (t, true) ∈ g.skeleton.drop start ∧ place.startsWith t = true

theorem Beneath.mono (grows : g.skeleton <+: g'.skeleton) {place : Location}
    (h : Beneath start g place) : Beneath start g' place := by
  obtain ⟨t, mem, within⟩ := h
  exact ⟨t, (List.IsPrefix.drop grows start).subset mem, within⟩

theorem startsWithTrans {a b c : Location} (h : a.startsWith b = true) (h' : b.startsWith c = true) :
    a.startsWith c = true := by
  simp only [Location.startsWith, List.isPrefixOf_iff_prefix] at *
  exact h'.trans h

theorem followsFound (ordered : Ordered cx.doc G.skeleton) (prefix_ : g.skeleton <+: G.skeleton)
    (follows : Follows start g h) {v : Value} {place : Location} {r : Resolved}
    (at_ : Tree.get? place cx.doc = some v) (resolved : resolve cx.doc v = .ok r)
    (beneath : refOf v = none → Beneath start g place)
    (held : r.locationOr place ∈ schemaPlaces g) : r.locationOr place ∈ schemaPlaces h := by
  obtain ⟨b, mem⟩ := memPlaces.mp held
  cases b with
  | true =>
    have isType := memTypes.mpr mem
    rw [← follows.types] at isType
    exact memPlaces.mpr ⟨true, memTypes.mp isType⟩
  | false =>
    by_cases plain : refOf v = none
    · have own : resolve cx.doc v = .ok ⟨v, none⟩ := resolvePlain plain
      cases resolved.symm.trans own
      obtain ⟨t, inside, within⟩ := beneath plain
      obtain ⟨i, found⟩ := List.getElem?_of_mem inside
      obtain ⟨j, found'⟩ := List.getElem?_of_mem mem
      rw [List.getElem?_drop] at found
      have after := ordered.inside (prefixAt prefix_ found) (prefixAt prefix_ found') within
      have recent : (place, false) ∈ g.skeleton.drop start := by
        refine List.mem_of_getElem? (i := j - start) ?_
        rw [List.getElem?_drop, Nat.add_sub_cancel' (by omega)]
        exact found'
      exact memPlaces.mpr ⟨false, follows.recent _ recent⟩
    · exact absurd (ordered.referred at_ plain resolved (prefix_.subset mem)) (by simp)

theorem Beneath.deeper {place place' : Location} (h : Beneath start g place)
    (within : place'.startsWith place = true) : Beneath start g place' := by
  obtain ⟨t, mem, inside⟩ := h
  exact ⟨t, mem, startsWithTrans within inside⟩

theorem plantBeneath (ordered : Ordered cx.doc G.skeleton) {c : Classify.Classified} {v : Value}
    {place : Location} {r : Resolved}
    (within : (g.plant (newSchema c r.value (r.locationOr place)
      (r.location?.bind Location.last?))).skeleton <+: G.skeleton)
    (started : start ≤ g.skeleton.length) (at_ : Tree.get? place cx.doc = some v)
    (resolved : resolve cx.doc v = .ok r) (beneath : refOf v = none → Beneath start g place) :
    Beneath start (g.plant (newSchema c r.value (r.locationOr place)
      (r.location?.bind Location.last?))) (r.locationOr place) := by
  generalize entry : newSchema c r.value (r.locationOr place) (r.location?.bind Location.last?) = s
    at within ⊢
  have there : s.location = r.locationOr place := by rw [← entry]; rfl
  rw [plantSkeleton, there] at within
  have inside : (r.locationOr place, s.isType) ∈ g.skeleton ++ [(r.locationOr place, s.isType)] :=
    List.mem_append_right _ List.mem_cons_self
  cases isType : s.isType with
  | true =>
    refine ⟨r.locationOr place, ?_, ?_⟩
    · rw [plantSkeleton, there, isType, List.drop_append_of_le_length started]
      exact List.mem_append_right _ List.mem_cons_self
    · simp [Location.startsWith]
  | false =>
    rw [isType] at within inside
    by_cases plain : refOf v = none
    · have own : resolve cx.doc v = .ok ⟨v, none⟩ := resolvePlain plain
      cases resolved.symm.trans own
      have grows : g.skeleton <+: (g.plant s).skeleton := by
        rw [plantSkeleton]
        exact List.prefix_append _ _
      exact (beneath plain).mono grows
    · exact absurd (ordered.referred at_ plain resolved (within.subset inside)) (by simp)

theorem schemaNodeFollows (lawful : cx.doc.lawful = true) (ordered : Ordered cx.doc G.skeleton)
    {steps steps' : Nat} {v : Value} {place : Location} {id id' : SchemaId}
    (at_ : Tree.get? place cx.doc = some v) (beneath : refOf v = none → Beneath start g place)
    (final : g'.skeleton <+: G.skeleton) (follows : Follows start g h)
    (run : schemaNode cx steps v place g = .ok (id, g'))
    (run' : schemaNode cx steps' v place h = .ok (id', h')) : Follows start g' h' := by
  induction steps generalizing steps' v place g g' h h' id id' with
  | zero => exact (runThrow.mp run).elim
  | succ steps ih =>
    cases steps' with
    | zero => exact (runThrow.mp run').elim
    | succ steps' =>
      have within := (schemaNodeExtends lawful (readAt at_) run).trans final
      obtain ⟨r, resolved, outcome⟩ := runSchemaNode.mp run
      obtain ⟨r', again, outcome'⟩ := runSchemaNode.mp run'
      cases resolved.symm.trans again
      rcases outcome with ⟨held, rfl⟩ | ⟨free, c, told, rfl, filled⟩
      · -- what the first walk has found is there in the second one
        have known := (follows.tracks (r.locationOr place)).mp (by simp [held])
        have known' := followsFound ordered within follows at_ resolved beneath known
        rcases outcome' with ⟨_, rfl⟩ | ⟨free', _⟩
        · exact follows
        · have found := (follows.tracks' (r.locationOr place)).mpr known'
          simp [free'] at found
      · rcases outcome' with ⟨held', rfl⟩ | ⟨free', c', told', rfl, filled'⟩
        · have known := (follows.tracks' (r.locationOr place)).mp (by simp [held'])
          obtain ⟨b, mem⟩ := memPlaces.mp known
          have found := (follows.tracks (r.locationOr place)).mpr
            (memPlaces.mpr ⟨b, follows.less _ mem⟩)
          simp [free] at found
        · cases told.symm.trans told'
          have here := resolvedAt (readAt at_) resolved
          have planted := follows.plant (newSchema c r.value (r.locationOr place)
            (r.location?.bind Location.last?)) (newSchema c r.value (r.locationOr place)
            (r.location?.bind Location.last?)) rfl rfl
          obtain ⟨_, ids, k, m, runs, rfl⟩ := fillSchemaRuns filled
          obtain ⟨_, ids', k', m', runs', rfl⟩ := fillSchemaRuns filled'
          rw [fillSkeleton] at final
          refine ((runsFollow (G := G) runs runs' (List.prefix_refl _) final
            (contentsExtend lawful here) ?_ planted).fillLeft _ k).fillRight _ k'
          intro e mem a y a' b y' b' below final now one one'
          have inside := contentsAt lawful here mem
          have grows := (schemaNodeExtends lawful (readAt inside) one).trans final
          have own := plantBeneath ordered (below.trans grows) follows.started at_ resolved beneath
          refine ih inside (fun _ => ?_) final now one one'
          exact (own.mono below).deeper (contentsBelow mem)

theorem registerOutcome (fin : Finished cx G) {l : Location} (mem : l ∈ G.typePlaces) (h : Graph) :
    ∃ v id h', Tree.get? l cx.doc = some v ∧ registerAt cx l h = .ok (⟨⟩, h') ∧
      ((h.schemaAt l = some id ∧ h' = h) ∨ (h.schemaAt l = none ∧ ∃ c steps,
        Classify.classify v l = .ok c ∧ fillSchema (schemaNode cx steps) id c.shape v l
          (h.plant (newSchema c v l l.last?)) = .ok (⟨⟩, h'))) := by
  obtain ⟨v, known, plain, spelled⟩ := fin.typeKnown mem
  obtain ⟨id, h', run, _⟩ := fin.registerSucceeds mem h trivial
  have registered : registerAt cx l h = .ok (⟨⟩, h') := by
    simp only [registerAt, runBind, runPure]
    exact ⟨id, h', run, trivial, rfl⟩
  refine ⟨v, id, h', known.1, registered, ?_⟩
  unfold registerType Build.schemaAt at run
  cases bound : cx.bound with
  | zero =>
    rw [bound] at run
    exact (runThrow.mp run).elim
  | succ steps =>
    rw [bound] at run
    obtain ⟨r, resolved, outcome⟩ := runSchemaNode.mp run
    cases resolved.symm.trans (resolveReference spelled known.1 plain)
    have target : (⟨v, some l.toPointer⟩ : Resolved).location? = some l := by
      simp [Resolved.location?, Location.pointerRoundTrip spelled]
    have there : (⟨v, some l.toPointer⟩ : Resolved).locationOr l = l := by
      simp [Resolved.locationOr, target]
    rw [there, target] at outcome
    rcases outcome with found | ⟨free, c, told, _, filled⟩
    · exact .inl found
    · exact .inr ⟨free, c, steps, told, filled⟩

theorem registerFound (fin : Finished cx G) {l : Location} (mem : l ∈ G.typePlaces)
    (tracks : Tracks h) (held : l ∈ h.typePlaces) : registerAt cx l h = .ok (⟨⟩, h) := by
  obtain ⟨_, _, h', _, run, ⟨_, rfl⟩ | ⟨free, _⟩⟩ := registerOutcome fin mem h
  · exact run
  · have found := (tracks l).mpr (memPlaces.mpr ⟨true, memTypes.mp held⟩)
    simp [free] at found

theorem registerFollows (fin : Finished cx G) (ordered : Ordered cx.doc G.skeleton) {s : Schema}
    {v : Value} {c : Classify.Classified} {steps : Nat} {ids : List SchemaId}
    (at_ : Tree.get? s.location cx.doc = some v) (told : Classify.classify v s.location = .ok c)
    (named : s.Named) (isType : s.isType = true) (free : g.schemaAt s.location = none)
    (runs : Runs (fun e => schemaNode cx steps e.1 e.2) (contents c.shape v s.location)
      (g.plant s) ids g') (final : g'.skeleton <+: G.skeleton) (follows : Follows start g h) :
    ∃ h', registerAt cx s.location h = .ok (⟨⟩, h') ∧ Follows g.skeleton.length g' h' := by
  have own : (s.location, true) ∈ (g.plant s).skeleton := by
    rw [plantSkeleton, isType]
    exact List.mem_append_right _ List.mem_cons_self
  have grows := runsExtend runs (contentsExtend fin.lawful at_)
  have mem : s.location ∈ G.typePlaces := memTypes.mpr ((grows.trans final).subset own)
  obtain ⟨w, id, h', at', run, ⟨found, _⟩ | ⟨_, c', steps', told', filled⟩⟩ :=
    registerOutcome fin mem h
  · have known := (follows.tracks' s.location).mp (by simp [found])
    obtain ⟨b, inside⟩ := memPlaces.mp known
    have before := (follows.tracks s.location).mpr (memPlaces.mpr ⟨b, follows.less _ inside⟩)
    simp [free] at before
  · cases at_.symm.trans at'
    cases told.symm.trans told'
    obtain ⟨_, _, k, m', runs', rfl⟩ := fillSchemaRuns filled
    obtain ⟨name, implied⟩ := Option.isSome_iff_exists.mp isType
    have again : (newSchema c v s.location s.location.last?).isType = s.isType := by
      rw [isType]
      simp [Schema.isType, newSchema, (named name implied).2]
    have planted := follows.now.plant s (newSchema c v s.location s.location.last?) rfl again
    refine ⟨_, run, (runsFollow (G := G) runs runs' (List.prefix_refl _) final
      (contentsExtend fin.lawful at_) ?_ planted).fillRight _ k⟩
    intro e mem a y a' b y' b' below final now one one'
    refine schemaNodeFollows fin.lawful ordered (contentsAt fin.lawful at_ mem) (fun _ => ?_) final
      now one one'
    have inside : Beneath g.skeleton.length (g.plant s) e.2 := by
      refine ⟨s.location, ?_, contentsBelow mem⟩
      rw [plantSkeleton, isType, List.drop_append_of_le_length (Nat.le_refl _)]
      exact List.mem_append_right _ List.mem_cons_self
    exact inside.mono below

/- The types that a walk has added can be registered after those from before. -/
def CatchesUp (cx : Setting) (g g' : Graph) : Prop :=
  ∀ h, Follows g.skeleton.length g h → ∃ more h', g'.skeleton = g.skeleton ++ more ∧
    (typesOf more).forM (registerAt cx) h = .ok (⟨⟩, h') ∧ Follows g'.skeleton.length g' h'

namespace CatchesUp
variable {m : Graph}

theorem refl (g : Graph) : CatchesUp cx g g :=
  fun h follows => ⟨[], h, by simp, rfl, follows⟩

theorem trans (first : CatchesUp cx g m) (rest : CatchesUp cx m g') : CatchesUp cx g g' := by
  intro h follows
  obtain ⟨more, h₁, split, run, follows₁⟩ := first h follows
  obtain ⟨more', h₂, split', run', follows₂⟩ := rest h₁ follows₁
  refine ⟨more ++ more', h₂, by rw [split', split, List.append_assoc], ?_, follows₂⟩
  rw [typesOfAppend]
  exact forMAppend run run'

theorem fill (g : Graph) (id : SchemaId) (c : Children) :
    CatchesUp cx g (g.setSchema id (·.withChildren c)) := by
  intro h follows
  refine ⟨[], h, by rw [fillSkeleton, List.append_nil], rfl, ?_⟩
  rw [fillSkeleton]
  exact follows.fillLeft id c

theorem plant {s : Schema} (isType : s.isType = false) : CatchesUp cx g (g.plant s) := by
  intro h follows
  refine ⟨[(s.location, false)], h, by rw [plantSkeleton, isType], rfl, ?_⟩
  exact {
    tracks := plantTracks follows.tracks s
    tracks' := follows.tracks'
    types := by
      have types := follows.types
      simp only [typePlaces, typesOf] at types
      simp [typePlaces, typesOf, plantSkeleton, isType, types]
    less := fun e mem => by
      rw [plantSkeleton]
      exact List.mem_append_left _ (follows.less e mem)
    recent := fun e mem => by
      rw [List.drop_length] at mem
      cases mem
    started := Nat.le_refl _ }

end CatchesUp

theorem runsCatchUp {α β : Type} {f : α → Walk β} {xs : List α} {ys : List β}
    (runs : Runs f xs g ys g') (final : g'.skeleton <+: G.skeleton)
    (extends_ : ∀ x ∈ xs, ∀ {g y g'}, f x g = .ok (y, g') → g.skeleton <+: g'.skeleton)
    (each : ∀ x ∈ xs, ∀ {g y g'}, g'.skeleton <+: G.skeleton → f x g = .ok (y, g') →
      CatchesUp cx g g') : CatchesUp cx g g' := by
  induction runs with
  | nil => exact .refl _
  | @cons x xs y ys g m g' head tail ih =>
    have later : ∀ y ∈ xs, y ∈ x :: xs := fun y mem => List.mem_cons_of_mem _ mem
    have rest := runsExtend tail fun y mem => extends_ y (later y mem)
    exact (each x List.mem_cons_self (rest.trans final) head).trans
      (ih final (fun y mem => extends_ y (later y mem)) fun y mem => each y (later y mem))

theorem typeCatchesUp (fin : Finished cx G) (ordered : Ordered cx.doc G.skeleton) {s : Schema}
    {v : Value} {c : Classify.Classified} {steps : Nat} {ids : List SchemaId}
    (at_ : Tree.get? s.location cx.doc = some v) (told : Classify.classify v s.location = .ok c)
    (named : s.Named) (isType : s.isType = true) (free : g.schemaAt s.location = none)
    (runs : Runs (fun e => schemaNode cx steps e.1 e.2) (contents c.shape v s.location)
      (g.plant s) ids g') (final : g'.skeleton <+: G.skeleton) : CatchesUp cx g g' := by
  intro h follows
  obtain ⟨h', run, follows'⟩ :=
    registerFollows fin ordered at_ told named isType free runs final follows
  have grows := runsExtend runs (contentsExtend fin.lawful at_)
  obtain ⟨more, split⟩ := grows
  rw [plantSkeleton, isType, List.append_assoc] at split
  refine ⟨(s.location, true) :: more, h', split.symm, ?_, follows'.now⟩
  have rest : (typesOf more).forM (registerAt cx) h' = .ok (⟨⟩, h') := by
    have known : ∀ l ∈ typesOf more, registerAt cx l h' = .ok (⟨⟩, h') := by
      intro l mem
      have inside : (l, true) ∈ g'.skeleton := by
        rw [← split]
        exact List.mem_append_right _ (List.mem_append_right _ (by simpa [typesOf] using mem))
      refine registerFound fin (memTypes.mpr (final.subset inside)) follows'.tracks' ?_
      rw [follows'.types]
      exact memTypes.mpr inside
    generalize typesOf more = ls at known
    induction ls with
    | nil => rfl
    | cons l ls ih =>
      exact forMCons (known l List.mem_cons_self)
        (ih fun l' mem => known l' (List.mem_cons_of_mem _ mem))
  exact forMCons run rest

theorem schemaNodeCatchesUp (fin : Finished cx G) (ordered : Ordered cx.doc G.skeleton)
    {steps : Nat} {v : Value} {place : Location} {id : SchemaId} (read : ReadAt cx.doc v place)
    (final : g'.skeleton <+: G.skeleton) (run : schemaNode cx steps v place g = .ok (id, g')) :
    CatchesUp cx g g' := by
  induction steps generalizing v place g g' id with
  | zero => exact (runThrow.mp run).elim
  | succ steps ih =>
    obtain ⟨r, resolved, ⟨_, rfl⟩ | ⟨free, c, told, rfl, filled⟩⟩ := runSchemaNode.mp run
    · exact .refl _
    · have here := resolvedAt read resolved
      obtain ⟨_, ids, k, m, runs, rfl⟩ := fillSchemaRuns filled
      rw [fillSkeleton] at final
      refine CatchesUp.trans ?_ (.fill m _ k)
      generalize entry : newSchema c r.value (r.locationOr place)
        (r.location?.bind Location.last?) = s at runs
      have there : s.location = r.locationOr place := by rw [← entry]; rfl
      rw [← there] at here told free runs
      cases isType : s.isType with
      | true =>
        exact typeCatchesUp fin ordered here told (entry ▸ newSchemaNamed) isType free runs final
      | false =>
        refine (CatchesUp.plant isType).trans
          (runsCatchUp runs final (contentsExtend fin.lawful here) ?_)
        exact fun e mem _ _ _ => ih (readAt (contentsAt fin.lawful here mem))

def OneKind (g : Graph) : Prop :=
  ∀ n m l, g.location? n = some l → g.location? m = some l → n.SameKind m

theorem legsEdit (lawful : cx.doc.lawful = true) (legs : Legs cx g g') : Edits .whole g g' := by
  induction legs with
  | refl => exact .refl
  | tail _ last ih =>
    cases last with
    | trip t => exact ih.trans ((t.grows lawful).edits.widen (.inl rfl))
    | other e _ _ => exact ih.tail e

theorem placeLocated {l : Location} (mem : l ∈ schemaPlaces g) :
    ∃ id, g.location? (.schema id) = some l := by
  obtain ⟨b, inside⟩ := memPlaces.mp mem
  obtain ⟨s, held, same⟩ := List.mem_map.mp inside
  obtain ⟨i, found⟩ := List.getElem?_of_mem held
  cases same
  exact ⟨⟨i⟩, by simp [location?, schema?, found]⟩

theorem sameSkeleton (schemas : g'.schemas = g.schemas) : g'.skeleton = g.skeleton := by
  rw [skeleton, schemas, skeleton]

theorem otherTracks (kinds : OneKind G) (e : Edit .whole g g') (after : Edits .whole g' G)
    (schemas : g'.schemas = g.schemas) (tracks : Tracks g) : Tracks g' := by
  intro l
  rw [schemaPlaces, sameSkeleton schemas, ← schemaPlaces, ← tracks l]
  rcases e.effect with same | ⟨n, l', made, _⟩
  · simp only [Graph.schemaAt, nodeAt, same.index]
  · by_cases here : l = l'
    · subst here
      have other : ∀ id, n ≠ .schema id := by
        rintro id rfl
        have fresh := made.fresh
        have stands := made.here
        simp only [location?, schema?, schemas] at fresh stands
        simp [fresh] at stands
      have vacant : g.schemaAt l = none := by
        by_contra held
        obtain ⟨id, stands⟩ := placeLocated ((tracks l).mp (Option.isSome_iff_ne_none.mpr held))
        have still := after.keepsLocation (e.keepsLocation stands)
        have clash := kinds _ _ l still (after.keepsLocation made.here)
        cases n with
        | schema id => exact other id rfl
        | _ => exact clash
      have held : g'.nodeAt l = some n := by simp [nodeAt, made.index]
      have vacant' : g'.schemaAt l = none := by
        simp only [Graph.schemaAt, held]
        cases n with
        | schema id => exact (other id rfl).elim
        | _ => rfl
      simp [vacant, vacant']
    · have still : g'.nodeAt l = g.nodeAt l := by
        simp [nodeAt, made.index, Entries.lookupPutOther here]
      simp only [Graph.schemaAt, still]

theorem legsCatchUp (fin : Finished cx G) (ordered : Ordered cx.doc G.skeleton) (kinds : OneKind G)
    (before : Legs cx .empty g) (after : Legs cx g G) :
    ∃ h, g.typePlaces.forM (registerAt cx) .empty = .ok (⟨⟩, h) ∧
      Follows g.skeleton.length g h := by
  induction before with
  | refl =>
    have tracks : Tracks .empty := fun l => by simp [Graph.schemaAt, nodeAt, empty, schemaPlaces,
      skeleton]
    exact ⟨.empty, rfl, tracks, tracks, rfl, fun _ mem => mem, fun _ mem => mem, Nat.le_refl _⟩
  | @tail g g' _ leg ih =>
    obtain ⟨h, run, follows⟩ := ih (.head leg after)
    cases leg with
    | trip trip =>
      have final := (legsEdit fin.lawful after).extends
      have catches : CatchesUp cx g g' := by
        cases trip with
        | visit at_ run => exact schemaNodeCatchesUp fin ordered (readAt at_) final run
        | @register l _ run =>
          exact schemaNodeCatchesUp fin ordered (readReference cx.doc l.toPointer l) final run
      obtain ⟨more, h', split, run', follows'⟩ := catches h follows
      refine ⟨h', ?_, follows'⟩
      rw [typePlaces, split, typesOfAppend]
      exact forMAppend run run'
    | other e schemas types =>
      have same := sameSkeleton schemas
      refine ⟨h, ?_, ?_⟩
      · rw [typePlaces, same]
        exact run
      · rw [same]
        exact follows.same (otherTracks kinds e (legsEdit fin.lawful after) schemas follows.tracks)
          follows.tracks' same rfl

end Lockstep
end ApiGraph.Hydrate
