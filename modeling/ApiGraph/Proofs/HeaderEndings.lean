import ApiGraph.Proofs.MethodInputs
import ApiGraph.Proofs.Endings

/-! When a build comes to an end. Schemas are cut off by their nodes, but headers have none: a header
whose content has encodings leads to the headers of these, and nothing remembers that it was read. So
a walk ends unless a header it enters leads to one that leads back to itself, and it cannot end when
it enters such a header. -/
namespace ApiGraph.Build
open Json Resolve ApiGraph.Graph Declaration

def EncodingHeader (doc media h : Value) : Prop :=
  ∃ e ∈ (media.membersAt? "encoding").getD [], ∃ e' ∈ (e.2.membersAt? "headers").getD [],
    ∃ r, Resolve.resolve doc e'.2 = .ok r ∧ h = r.value

def ContentHeader (doc v h : Value) : Prop := ∃ e ∈ contentOf v, EncodingHeader doc e.2 h

def LeadsTo (doc : Value) : Value → Value → Prop := Relation.ReflTransGen (ContentHeader doc)

def Endless (doc v : Value) : Prop :=
  ∃ h, LeadsTo doc v h ∧ Relation.TransGen (ContentHeader doc) h h

def HeaderChain (doc : Value) : Nat → Value → Prop
  | 0, _ => True
  | n + 1, h => ∃ h', ContentHeader doc h h' ∧ HeaderChain doc n h'

theorem Endless.before {doc h h' : Value} (step : ContentHeader doc h h') (endless : Endless doc h') :
    Endless doc h := by
  obtain ⟨k, leads, back⟩ := endless
  exact ⟨k, .head step leads, back⟩

theorem Endless.next {doc h : Value} (endless : Endless doc h) :
    ∃ h', ContentHeader doc h h' ∧ Endless doc h' := by
  obtain ⟨k, leads, back⟩ := endless
  rcases Relation.ReflTransGen.cases_head leads with rfl | ⟨h', step, rest⟩
  · obtain ⟨h', step, rest⟩ := Relation.TransGen.head'_iff.mp back
    exact ⟨h', step, h, rest, back⟩
  · exact ⟨h', step, k, rest, back⟩

theorem Endless.chain {doc h : Value} (endless : Endless doc h) (n : Nat) : HeaderChain doc n h := by
  induction n generalizing h with
  | zero => trivial
  | succ n ih =>
    obtain ⟨h', step, later⟩ := endless.next
    exact ⟨h', step, ih later⟩

theorem stepInside {doc h h' : Value} (step : ContentHeader doc h h') :
    ∃ raw r, resolve doc raw = .ok r ∧ h' = r.value ∧ Inside raw h := by
  obtain ⟨_, content, _, encoding, e, named, r, resolved, rfl⟩ := step
  have inside := (memberInside named).trans ((memberInside encoding).trans (memberInside content))
  exact ⟨e.2, r, resolved, rfl, inside⟩

/- A header that pointers have led to, each to a header that leads to it. -/
structure Pursued (doc : Value) (used : List String) (h : Value) : Prop where
  apart : used.Nodup
  listed : used ⊆ doc.pointers
  met : ∀ p ∈ used, ∃ w, Tree.get? (.ofPointer p) doc = some w ∧ LeadsTo doc w h
  depth : h.depth ≤ doc.depth
  pointers : h.pointers ⊆ doc.pointers

/- A chain longer than the document is deep and has pointers comes back to a header it met. -/
theorem chainEndless {doc : Value} {n : Nat} {used : List String} {h : Value}
    (pursued : Pursued doc used h) (chain : HeaderChain doc n h)
    (long : (doc.pointers.length - used.length) * (doc.depth + 2) + h.depth < n) :
    Endless doc h := by
  induction n generalizing used h with
  | zero => omega
  | succ n ih =>
    obtain ⟨h', step, rest⟩ := chain
    obtain ⟨raw, r, resolved, rfl, inside⟩ := stepInside step
    have shallow := inside.depth
    have met : ∀ p ∈ used, ∃ w, Tree.get? (.ofPointer p) doc = some w ∧ LeadsTo doc w r.value :=
      fun p mem => by
        obtain ⟨w, at_, leads⟩ := pursued.met p mem
        exact ⟨w, at_, leads.tail step⟩
    cases named : refOf raw with
    | none =>
      rw [resolvePlain named] at resolved
      cases resolved
      have within := List.Subset.trans inside.pointers pursued.pointers
      have deep := pursued.depth
      exact (ih ⟨pursued.apart, pursued.listed, met, by simp only; omega, within⟩ rest
        (by simp only; omega)).before step
    | some pointer =>
      have source : pointer ∈ doc.pointers :=
        pursued.pointers (inside.pointers (Value.refListed named))
      simp only [resolve, named] at resolved
      obtain ⟨p, mem, told⟩ := followListed resolved source
      obtain ⟨_, last, told', at_⟩ := followSource resolved
      cases told.symm.trans told'
      by_cases known : p ∈ used
      · -- the header has been met before, so it leads back to itself
        obtain ⟨w, at', leads⟩ := pursued.met p known
        cases at_.symm.trans at'
        exact ⟨h, .refl, Relation.TransGen.head' step leads⟩
      · have apart : (p :: used).Nodup := List.nodup_cons.mpr ⟨known, pursued.apart⟩
        have listed : (p :: used) ⊆ doc.pointers := List.cons_subset.mpr ⟨mem, pursued.listed⟩
        have few : (p :: used).length ≤ doc.pointers.length := (apart.subperm listed).length_le
        obtain ⟨deep, within⟩ := Tree.walkMeasures at_
        have met' : ∀ q ∈ p :: used, ∃ w, Tree.get? (.ofPointer q) doc = some w ∧
            LeadsTo doc w r.value := by
          intro q inside
          rcases List.mem_cons.mp inside with rfl | older
          · exact ⟨r.value, at_, .refl⟩
          · exact met q older
        have less : doc.pointers.length - used.length =
            (doc.pointers.length - (p :: used).length) + 1 := by
          rw [List.length_cons] at few ⊢
          omega
        rw [less, Nat.add_mul] at long
        exact (ih ⟨apart, listed, met', deep, within⟩ rest (by omega)).before step

theorem boundEndless {cx : Setting} {h : Value} {l : Location}
    (at_ : Tree.get? l cx.doc = some h) (chain : HeaderChain cx.doc cx.bound h) :
    Endless cx.doc h := by
  obtain ⟨deep, within⟩ := Tree.walkMeasures at_
  have pursued : Pursued cx.doc [] h := ⟨List.nodup_nil, by simp, by simp, deep, within⟩
  refine chainEndless pursued chain ?_
  rw [Setting.bound, Nat.add_mul, List.length_nil, Nat.sub_zero]
  omega

/- A walk that fails to come to an end in the way `X` only. -/
def EndsUnless {α : Type} (X : Prop) (x : Walk α) : Prop := ∀ g, x g = .error .unfinished → X

namespace EndsUnless
variable {α β : Type} {X Y : Prop}

theorem mono {x : Walk α} (h : EndsUnless X x) (weaker : X → Y) : EndsUnless Y x :=
  fun g failed => weaker (h g failed)

theorem pure (a : α) : EndsUnless X (Pure.pure a : Walk α) := fun _ failed => by cases failed

theorem throw {e : Failure} (other : e ≠ .unfinished) : EndsUnless X (throw e : Walk α) :=
  fun _ failed => absurd (Except.error.inj failed) other

theorem lift {ε : Type} {x : Except ε α} {wrap : ε → Failure} (other : ∀ e, wrap e ≠ .unfinished) :
    EndsUnless X (liftM (x.mapError wrap) : Walk α) := by
  intro g failed
  cases x with
  | error e => exact absurd (Except.error.inj failed) (other e)
  | ok a => cases failed

theorem resolve (cx : Setting) (v : Value) : EndsUnless X (cx.resolve v) :=
  lift fun _ => by simp

theorem bind {x : Walk α} {f : α → Walk β} (first : EndsUnless X x)
    (rest : ∀ a, (∃ g m, x g = .ok (a, m)) → EndsUnless X (f a)) : EndsUnless X (x >>= f) := by
  intro g failed
  cases hx : x g with
  | error e =>
    have same : (x >>= f) g = .error e := by simp [Bind.bind, StateT.bind, hx, Except.bind]
    rw [same] at failed
    exact first g (by rw [hx, Except.error.inj failed])
  | ok p =>
    have same : (x >>= f) g = f p.1 p.2 := by simp [Bind.bind, StateT.bind, hx, Except.bind]
    exact rest p.1 ⟨g, p.2, hx⟩ p.2 (same ▸ failed)

theorem get : EndsUnless X (MonadState.get : Walk Graph) := fun _ failed => by cases failed

theorem set (g : Graph) : EndsUnless X (MonadStateOf.set g : Walk PUnit) :=
  fun _ failed => by cases failed

theorem edit (h : Graph → Graph) : EndsUnless X (modify h : Walk PUnit) :=
  fun _ failed => by cases failed

theorem mapM {f : α → Walk β} {xs : List α} (each : ∀ x ∈ xs, EndsUnless X (f x)) :
    EndsUnless X (xs.mapM f) := by
  induction xs with
  | nil =>
    rw [List.mapM_nil]
    exact EndsUnless.pure []
  | cons x xs ih =>
    rw [List.mapM_cons]
    refine (each x List.mem_cons_self).bind fun y _ => ?_
    exact (ih fun y mem => each y (List.mem_cons_of_mem _ mem)).bind fun ys _ => EndsUnless.pure _

theorem forM {f : α → Walk PUnit} {xs : List α} (each : ∀ x ∈ xs, EndsUnless X (f x)) :
    EndsUnless X (xs.forM f) := by
  induction xs with
  | nil => exact EndsUnless.pure _
  | cons x xs ih =>
    exact (each x List.mem_cons_self).bind fun _ _ =>
      ih fun y mem => each y (List.mem_cons_of_mem _ mem)

theorem foldlM {f : β → α → Walk β} {xs : List α} (each : ∀ x ∈ xs, ∀ b, EndsUnless X (f b x))
    (b : β) : EndsUnless X (xs.foldlM f b) := by
  induction xs generalizing b with
  | nil => exact EndsUnless.pure b
  | cons x xs ih =>
    rw [List.foldlM_cons]
    exact (each x List.mem_cons_self b).bind fun b' _ =>
      ih (fun y mem => each y (List.mem_cons_of_mem _ mem)) b'

end EndsUnless

section Walks
variable {cx : Setting} {v : Value} {l : Location}

theorem endsAlways {α : Type} {X : Prop} {x : Walk α}
    (ends : ∀ g, Ends (· ≠ .unfinished) (fun _ => True) x g) : EndsUnless X x :=
  fun g failed => absurd failed (ends g).finished

theorem schemaAtEndsUnless {X : Prop} (at_ : Tree.get? l cx.doc = some v) :
    EndsUnless X (schemaAt cx v l) := by
  have deep := Tree.depthAt at_
  exact endsAlways fun _ => schemaAtFinishes (Nat.le_succ_of_le deep)

theorem registerTypeEndsUnless {X : Prop} : EndsUnless X (registerType cx l) := by
  have flat : (reference l.toPointer).depth = 1 := rfl
  exact endsAlways fun _ => schemaAtFinishes (by omega)

theorem visitOptionEndsUnless {X : Prop} {key : String} (at_ : Tree.get? l cx.doc = some v) :
    EndsUnless X (visitOption (schemaAt cx) l key (v.get? key)) := by
  cases held : v.get? key with
  | none => exact .pure none
  | some x =>
    exact (schemaAtEndsUnless (Tree.childAt at_ held)).bind fun id _ => .pure _

variable {Y : Value → Prop} {header : Value → Location → Walk (Option SchemaId)}

theorem mediaSchemaEndsUnless (lawful : cx.doc.lawful = true)
    (each : ∀ {h l}, Tree.get? l cx.doc = some h → EndsUnless (Y h) (header h l))
    (at_ : Tree.get? l cx.doc = some v) :
    EndsUnless (∃ h, EncodingHeader cx.doc v h ∧ Y h) (mediaSchema cx header v l) := by
  refine (visitOptionEndsUnless at_).bind fun id _ => ?_
  refine EndsUnless.bind (.forM fun e mem => .forM fun e' mem' => ?_) fun _ _ => .pure id
  refine (EndsUnless.resolve cx e'.2).bind fun r resolves => ?_
  obtain ⟨g, m, resolved⟩ := resolves
  have resolved := (runResolve.mp resolved).1
  have raw := encodingHeadersAt lawful (encodingsAt lawful at_ mem) mem'
  have here := resolvedAt (readAt raw) resolved
  rw [joinFour]
  refine EndsUnless.bind ((each here).mono fun fails => ?_) fun _ _ => .pure _
  exact ⟨r.value, ⟨e, mem, e', mem', r, resolved, rfl⟩, fails⟩

theorem headerSchemaEndsUnless (lawful : cx.doc.lawful = true) {steps : Nat}
    (at_ : Tree.get? l cx.doc = some v) :
    EndsUnless (HeaderChain cx.doc steps v) (headerSchema cx steps v l) := by
  induction steps generalizing v l with
  | zero => exact fun _ _ => trivial
  | succ steps ih =>
    unfold headerSchema
    cases held : v.membersAt? "content" with
    | none => exact visitOptionEndsUnless at_
    | some content =>
      refine EndsUnless.bind (.mapM fun e mem => ?_) fun found _ => .pure _
      have here := Tree.memberAt lawful at_ held mem
      rw [← joinTwo] at here
      refine (mediaSchemaEndsUnless lawful ih here).mono ?_
      rintro ⟨h, named, chain⟩
      exact ⟨h, ⟨e, by simpa [contentOf, held] using mem, named⟩, chain⟩

theorem headerAtEndsUnless (lawful : cx.doc.lawful = true) (at_ : Tree.get? l cx.doc = some v) :
    EndsUnless (Endless cx.doc v) (headerAt cx v l) :=
  (headerSchemaEndsUnless lawful at_).mono (boundEndless at_)

theorem mediaAtEndsUnless (lawful : cx.doc.lawful = true) (at_ : Tree.get? l cx.doc = some v) :
    EndsUnless (∃ h, EncodingHeader cx.doc v h ∧ Endless cx.doc h) (mediaAt cx v l) :=
  mediaSchemaEndsUnless lawful (headerAtEndsUnless lawful) at_

theorem contentEndsUnless (lawful : cx.doc.lawful = true) {w : Value}
    (at_ : Tree.get? l cx.doc = some w) {e : String × Value} (mem : e ∈ contentOf w) :
    EndsUnless (Endless cx.doc w) (mediaAt cx e.2 (l.join ["content", e.1])) := by
  have here := contentAt lawful at_ mem
  rw [← joinTwo] at here
  refine (mediaAtEndsUnless lawful here).mono fun ⟨h, named, endless⟩ => ?_
  exact endless.before ⟨e, mem, named⟩

theorem parameterDefaultEnds {X : Prop} (v : Value) : EndsUnless X (parameterDefault cx v) := by
  unfold parameterDefault
  split
  · exact .pure none
  · exact (EndsUnless.resolve cx _).bind fun _ _ => .pure _

theorem bodyDefaultEnds {X : Prop} (content : Members) (preferred : List String) :
    EndsUnless X (bodyDefault cx l content preferred) := by
  unfold bodyDefault preferredSchemas
  refine EndsUnless.bind (EndsUnless.bind (.mapM fun mediaType _ => ?_) fun _ _ => .pure _)
    fun found _ => ?_
  · split
    · exact .pure none
    · exact (EndsUnless.resolve cx _).bind fun _ _ => .pure _
  · split
    · exact .pure _
    · exact .pure none

theorem parameterNodeEndsUnless (lawful : cx.doc.lawful = true)
    (at_ : Tree.get? l cx.doc = some v) :
    EndsUnless (Endless cx.doc v) (parameterNode cx l v) := by
  unfold parameterNode
  refine EndsUnless.get.bind fun g _ => ?_
  split
  · exact .pure _
  · split
    · exact .throw (by simp)
    · refine (parameterDefaultEnds v).bind fun default _ => EndsUnless.get.bind fun g _ => ?_
      refine (EndsUnless.set _).bind fun _ _ => (headerAtEndsUnless lawful at_).bind fun _ _ => ?_
      exact (EndsUnless.edit _).bind fun _ _ => .pure _

theorem bodyNodeEndsUnless (lawful : cx.doc.lawful = true) {name : String}
    {preferred : List String} (at_ : Tree.get? l cx.doc = some v) :
    EndsUnless (Endless cx.doc v) (bodyNode cx l v name preferred) := by
  unfold bodyNode
  refine EndsUnless.get.bind fun g _ => ?_
  split
  · exact .pure _
  · refine (bodyDefaultEnds _ _).bind fun default _ => EndsUnless.get.bind fun g _ => ?_
    refine (EndsUnless.set _).bind fun _ _ => EndsUnless.bind (.mapM fun e mem => ?_)
      fun byMedia _ => (EndsUnless.edit _).bind fun _ _ => .pure _
    exact (contentEndsUnless lawful at_ mem).bind fun _ _ => .pure _

inductive ResponseContent (doc : Value) (l : Location) (code : String) : Value → Prop
  | own {raw r} (at_ : Tree.get? (l.child code) doc = some raw)
      (resolved : Resolve.resolve doc raw = .ok r) : ResponseContent doc l code r.value
  | header {raw r e r'} (at_ : Tree.get? (l.child code) doc = some raw)
      (resolved : Resolve.resolve doc raw = .ok r)
      (mem : e ∈ (r.value.membersAt? "headers").getD [])
      (named : Resolve.resolve doc e.2 = .ok r') : ResponseContent doc l code r'.value

theorem visitCodeEndsUnless (lawful : cx.doc.lawful = true) (acc : Carried) (code : ResponseCode) :
    EndsUnless (∃ v, ResponseContent cx.doc l code.code v ∧ Endless cx.doc v)
      (visitCode cx l acc code) := by
  unfold visitCode
  dsimp only
  cases at_ : Tree.get? (l.child code.code) cx.doc with
  | none => exact .pure acc
  | some raw =>
    refine (EndsUnless.resolve cx raw).bind fun r resolves => ?_
    obtain ⟨g, m, resolved⟩ := resolves
    have resolved := (runResolve.mp resolved).1
    have here := resolvedAt (readAt at_) resolved
    refine EndsUnless.bind ?_ fun acc' _ => EndsUnless.bind ?_ fun _ _ => .pure _
    · unfold visitResponseContent
      cases held : r.value.membersAt? "content" with
      | none => exact .pure acc
      | some content =>
        refine .foldlM (fun e mem acc => ?_) _
        have inside : e ∈ contentOf r.value := by simpa [contentOf, held] using mem
        refine EndsUnless.bind ((contentEndsUnless lawful here inside).mono fun endless => ?_)
          fun id _ => ?_
        · exact ⟨r.value, .own at_ resolved, endless⟩
        · cases id with
          | none => exact .pure _
          | some id =>
            refine EndsUnless.get.bind fun g _ => ?_
            split <;> exact .pure _
    · refine .forM fun e mem => (EndsUnless.resolve cx e.2).bind fun r' resolves' => ?_
      obtain ⟨g', m', resolved'⟩ := resolves'
      have resolved' := (runResolve.mp resolved').1
      have there := resolvedAt (readAt (encodingHeadersAt lawful here mem)) resolved'
      rw [joinTwo]
      refine EndsUnless.bind ((headerAtEndsUnless lawful there).mono fun endless => ?_)
        fun _ _ => .pure _
      exact ⟨r'.value, .header at_ resolved mem resolved', endless⟩

theorem responseNodeEndsUnless (lawful : cx.doc.lawful = true) (preferred : List ResponseCode) :
    EndsUnless (∃ code ∈ preferred, ∃ v, ResponseContent cx.doc l code.code v ∧ Endless cx.doc v)
      (responseNode cx l preferred) := by
  unfold responseNode
  refine EndsUnless.get.bind fun g _ => ?_
  split
  · exact .pure _
  · refine EndsUnless.get.bind fun g _ => (EndsUnless.set _).bind fun _ _ => ?_
    refine EndsUnless.bind (.foldlM (fun code mem acc => ?_) _) fun carried _ =>
      (EndsUnless.edit _).bind fun _ _ => .pure _
    exact (visitCodeEndsUnless lawful acc code).mono fun endless => ⟨code, mem, endless⟩

inductive Enters (doc : Value) (f : Found) : Value → Prop
  | parameter {k place w} (picked : chosen doc f k = some place)
      (at_ : Tree.get? place doc = some w) : Enters doc f w
  | body {place w} (declared : declaredBody doc f.operation f.place = some place)
      (at_ : Tree.get? place doc = some w) : Enters doc f w
  | response {code w} (ranked : code ∈ Preference.responseCodes (Text.asciiLowercase f.verb)
        (Entries.keys ((f.operation.membersAt? "responses").getD [])))
      (inside : ResponseContent doc (f.place.child "responses") code w) : Enters doc f w

def planValue : InputPlan → Value
  | .parameter p => p.value
  | .body b => b.value

theorem inputNodesEndsUnless (lawful : cx.doc.lawful = true) {plans : List InputPlan}
    (sound : ∀ p ∈ plans, SoundInput cx p) :
    EndsUnless (∃ p ∈ plans, Endless cx.doc (planValue p)) (inputNodes cx plans) := by
  induction plans with
  | nil => exact .pure _
  | cons plan more ih =>
    have here := sound plan List.mem_cons_self
    have rest : EndsUnless (∃ p ∈ plan :: more, Endless cx.doc (planValue p))
        (inputNodes cx more) :=
      (ih fun p mem => sound p (List.mem_cons_of_mem _ mem)).mono
        fun ⟨p, mem, endless⟩ => ⟨p, List.mem_cons_of_mem _ mem, endless⟩
    have own : Endless cx.doc (planValue plan) →
        ∃ p ∈ plan :: more, Endless cx.doc (planValue p) :=
      fun endless => ⟨plan, List.mem_cons_self, endless⟩
    cases plan with
    | parameter p =>
      unfold inputNodes
      exact ((parameterNodeEndsUnless lawful here.1).mono own).bind fun id _ =>
        rest.bind fun _ _ => .pure _
    | body b =>
      unfold inputNodes
      refine ((bodyNodeEndsUnless lawful here.1).mono own).bind fun id _ =>
        EndsUnless.get.bind fun g _ => ?_
      split
      · exact .pure _
      · exact rest.bind fun _ _ => .pure _

theorem paramPlansOfEnds {X : Prop} (owner : Location) : EndsUnless X (paramPlansOf cx owner) := by
  unfold paramPlansOf
  dsimp only
  split
  · refine EndsUnless.bind (.mapM fun e _ => ?_) fun plans _ => .pure _
    refine (EndsUnless.resolve cx e.1).bind fun r _ => ?_
    split
    · exact .pure none
    · exact (parameterDefaultEnds r.value).bind fun default _ => .pure _
  · exact .pure []

theorem inputPlansEnds {X : Prop} (operation : Value) : EndsUnless X (inputPlans cx operation l) := by
  have body : ∀ taken, EndsUnless X (bodyPlan cx operation l taken) := by
    intro taken
    unfold bodyPlan
    split
    · exact .pure none
    · refine (EndsUnless.resolve cx _).bind fun r _ => ?_
      split
      · exact .pure none
      · exact (bodyDefaultEnds _ _).bind fun default _ => .pure _
  refine EndsUnless.bind ?_ fun params _ => (body _).bind fun body _ => .pure _
  exact (paramPlansOfEnds _).bind fun shared _ => (paramPlansOfEnds _).bind fun own _ => .pure _

theorem preferredResponsesEnds {X : Prop} (verb : String) (operation : Value) :
    EndsUnless X (preferredResponses cx verb operation) := by
  unfold preferredResponses
  split
  · exact .pure []
  · refine EndsUnless.bind (.mapM fun code _ => ?_) fun ranked _ => .pure _
    split
    · exact .pure none
    · exact (EndsUnless.resolve cx _).bind fun r _ => .pure _

theorem preferredResponsesRanked {g g' : Graph} {verb : String} {operation : Value}
    {codes : List ResponseCode}
    (run : preferredResponses cx verb operation g = .ok (codes, g')) {code : ResponseCode}
    (mem : code ∈ codes) : code.code ∈ Preference.responseCodes verb
      (Entries.keys ((operation.membersAt? "responses").getD [])) := by
  have listed : code.code ∈ codes.map (·.code) := List.mem_map.mpr ⟨code, mem, rfl⟩
  rw [preferredResponsesCodes run] at listed
  exact List.mem_of_mem_filter listed

theorem methodNodeEndsUnless (lawful : cx.doc.lawful = true) {c : Config} {f : Found}
    (at_ : Tree.get? f.place cx.doc = some f.operation) :
    EndsUnless (∃ w, Enters cx.doc f w ∧ Endless cx.doc w)
      (methodNode cx (planOf c f) f.operation) := by
  unfold methodNode
  refine (inputPlansEnds _).bind fun plans asks => ?_
  refine (preferredResponsesEnds _ _).bind fun preferred asks' => ?_
  obtain ⟨_, _, asked⟩ := asks
  obtain ⟨_, _, ranked⟩ := asks'
  have sound := (inputPlansSound at_ asked).2
  have planned := inputPlansSource asked
  have sorted : ∀ {p}, p ∈ Preference.sortInputs InputPlan.order plans → p ∈ plans :=
    (Stable.sortPerm _ plans).mem_iff.mp
  refine EndsUnless.bind ((inputNodesEndsUnless lawful fun p mem => sound p (sorted mem)).mono ?_)
    fun found _ => ?_
  · rintro ⟨p, mem, endless⟩
    have inside := sorted mem
    cases p with
    | parameter p =>
      obtain ⟨k, _, place⟩ := planned.chosenOf inside
      exact ⟨p.value, .parameter place (sound _ inside).1, endless⟩
    | body b =>
      have listed : b.location ∈ plans.filterMap planBody :=
        List.mem_filterMap.mpr ⟨_, inside, rfl⟩
      rw [planned.bodies, Option.mem_toList] at listed
      exact ⟨b.value, .body listed (sound _ inside).1, endless⟩
  · cases found with
    | error e => exact .pure _
    | ok inputs =>
      refine EndsUnless.bind ((responseNodeEndsUnless lawful preferred).mono ?_) fun response _ =>
        (EndsUnless.lift fun _ => by simp).bind fun secured _ => EndsUnless.get.bind fun g _ =>
          (EndsUnless.set _).bind fun _ _ => .pure _
      rintro ⟨code, mem, w, inside, endless⟩
      exact ⟨w, .response (preferredResponsesRanked ranked mem) inside, endless⟩

theorem apiNamedEnds {X : Prop} (name : String) : EndsUnless X (apiNamed cx name) := by
  have tags : ∀ tags, EndsUnless X (findTag cx name tags) := by
    intro tags
    induction tags with
    | nil => exact .pure none
    | cons e more ih =>
      refine (EndsUnless.resolve cx e.1).bind fun r _ => ?_
      split
      · exact .pure _
      · exact ih
  unfold apiNamed apiAt
  refine EndsUnless.get.bind fun g _ => ?_
  split
  · exact .pure _
  · refine (tags _).bind fun found _ => ?_
    split
    · refine EndsUnless.get.bind fun g _ => ?_
      split
      · exact .pure _
      · exact (EndsUnless.lift fun _ => by simp).bind fun _ _ => EndsUnless.get.bind fun g _ =>
          (EndsUnless.set _).bind fun _ _ => .pure _
    · exact .throw (by simp)

theorem visitOperationEndsUnless (lawful : cx.doc.lawful = true) {f : Found}
    (at_ : Tree.get? f.place cx.doc = some f.operation) :
    EndsUnless (∃ w, Enters cx.doc f w ∧ Endless cx.doc w) (visitOperation cx f) := by
  unfold visitOperation
  split
  · exact .pure _
  · refine (apiNamedEnds _).bind fun api _ => EndsUnless.get.bind fun g _ => ?_
    split
    · exact .pure _
    · refine (methodNodeEndsUnless (c := cx.config) lawful at_).bind fun result _ => ?_
      cases result <;> exact .edit _

theorem walkEndsUnless (lawful : cx.doc.lawful = true) : EndsUnless (∃ found,
    Declaration.operations cx.doc = .ok found ∧
      ∃ f ∈ found, ∃ w, Enters cx.doc f w ∧ Endless cx.doc w) (walk cx) := by
  unfold walk
  refine (EndsUnless.lift fun _ => by simp).bind fun found asks => ?_
  obtain ⟨_, _, asked⟩ := asks
  have operations := mapErrorOk.mp (runLift.mp asked).1
  refine EndsUnless.bind (.forM fun f mem => ?_) fun _ _ => ?_
  · exact (visitOperationEndsUnless lawful (operationAt operations mem)).mono
      fun endless => ⟨found, operations, f, mem, endless⟩
  · split
    · unfold registerAll
      dsimp only
      split
      · exact .forM fun e _ => registerTypeEndsUnless.bind fun _ _ => .pure _
      · exact .pure _
    · exact .pure _

variable {header : Value → Location → Walk (Option SchemaId)} {g g' : Graph} {id : Option SchemaId}

theorem mediaSchemaRead (run : mediaSchema cx header v l g = .ok (id, g')) {h : Value}
    (named : EncodingHeader cx.doc v h) : ∃ place m x m', header h place m = .ok (x, m') := by
  obtain ⟨e, mem, e', mem', r, resolved, rfl⟩ := named
  simp only [mediaSchema, visitEncodings, runBind] at run
  obtain ⟨_, _, _, _, _, encodings, _⟩ := run
  obtain ⟨us, runs⟩ := runForM.mp encodings
  obtain ⟨_, _, _, one⟩ := runs.each mem
  obtain ⟨us', runs'⟩ := runForM.mp one
  obtain ⟨_, _, _, two⟩ := runs'.each mem'
  simp only [runBind, runResolve, runPure] at two
  obtain ⟨r', _, ⟨resolved', rfl⟩, x, m, read, _⟩ := two
  cases resolved.symm.trans resolved'
  exact ⟨_, _, x, m, read⟩

theorem headerSchemaRead {steps : Nat} (run : headerSchema cx steps v l g = .ok (id, g')) :
    ¬ HeaderChain cx.doc steps v := by
  induction steps generalizing v l g id g' with
  | zero => exact (runThrow.mp run).elim
  | succ steps ih =>
    rintro ⟨h, ⟨e, mem, named⟩, chain⟩
    cases held : v.membersAt? "content" with
    | none => simp [contentOf, held] at mem
    | some content =>
      simp only [contentOf, held, Option.getD_some] at mem
      simp only [headerSchema, held, runBind] at run
      obtain ⟨_, _, visited, _⟩ := run
      obtain ⟨_, _, _, one⟩ := (runMapM.mp visited).each mem
      obtain ⟨place, m, x, m', read⟩ := mediaSchemaRead one named
      exact ih read chain

theorem headerAtRead (run : headerAt cx v l g = .ok (id, g')) : ¬ Endless cx.doc v :=
  fun endless => headerSchemaRead run (endless.chain cx.bound)

theorem mediaAtRead (run : mediaAt cx v l g = .ok (id, g')) {h : Value}
    (named : EncodingHeader cx.doc v h) : ¬ Endless cx.doc h := by
  obtain ⟨_, _, _, _, read⟩ := mediaSchemaRead run named
  exact headerAtRead read

theorem contentRead {w : Value} (each : ∀ e ∈ contentOf w, ∃ place m x m',
    mediaAt cx e.2 place m = .ok (x, m')) : ¬ Endless cx.doc w := by
  intro endless
  obtain ⟨h, ⟨e, mem, named⟩, later⟩ := endless.next
  obtain ⟨place, m, x, m', read⟩ := each e mem
  exact mediaAtRead read named later

theorem mediaOfContentRead {w : Value} {byMedia : List (String × Option SchemaId)}
    (run : mediaOfContent cx l (contentOf w) g = .ok (byMedia, g')) : ¬ Endless cx.doc w := by
  refine contentRead fun e mem => ?_
  obtain ⟨m, _, _, one⟩ := (runMapM.mp run).each mem
  simp only [runBind, runPure] at one
  obtain ⟨x, m', read, _⟩ := one
  exact ⟨_, m, x, m', read⟩

theorem visitCodeRead {acc acc' : Carried} {code : ResponseCode}
    (run : visitCode cx l acc code g = .ok (acc', g')) {w : Value}
    (inside : ResponseContent cx.doc l code.code w) : ¬ Endless cx.doc w := by
  have split : ∀ {raw r}, Tree.get? (l.child code.code) cx.doc = some raw →
      resolve cx.doc raw = .ok r → ∃ acc' m m', visitResponseContent cx code
        (r.locationOr (l.child code.code)) r.value acc g = .ok (acc', m) ∧
        visitHeaders cx (r.locationOr (l.child code.code)) r.value m = .ok ((), m') := by
    intro raw r at_ resolved
    simp only [visitCode, at_, runBind, runResolve] at run
    obtain ⟨r', _, ⟨resolved', rfl⟩, acc₁, m, content, _, m', headers, _⟩ := run
    cases resolved.symm.trans resolved'
    exact ⟨acc₁, m, m', content, headers⟩
  cases inside with
  | @own raw r at_ resolved =>
    obtain ⟨_, _, _, content, _⟩ := split at_ resolved
    refine contentRead fun e mem => ?_
    cases held : r.value.membersAt? "content" with
    | none => simp [contentOf, held] at mem
    | some members =>
      simp only [contentOf, held, Option.getD_some] at mem
      simp only [visitResponseContent, held] at content
      obtain ⟨_, m, _, _, one⟩ := (runFoldlM.mp content).each mem
      simp only [visitResponseMedia, runBind] at one
      obtain ⟨x, m', read, _⟩ := one
      exact ⟨_, m, x, m', read⟩
  | @header raw r e r' at_ resolved mem named =>
    obtain ⟨_, _, _, _, headers⟩ := split at_ resolved
    obtain ⟨_, runs⟩ := runForM.mp headers
    obtain ⟨_, _, _, one⟩ := runs.each mem
    simp only [runBind, runResolve, runPure] at one
    obtain ⟨r₁, _, ⟨named', rfl⟩, x, m, read, _⟩ := one
    cases named.symm.trans named'
    exact headerAtRead read

end Walks

inductive NodeContent (doc : Value) (g : Graph) : Value → Prop
  | parameter {p v} (mem : p ∈ g.parameters) (at_ : Tree.get? p.location doc = some v) :
      NodeContent doc g v
  | body {b v} (mem : b ∈ g.bodies) (at_ : Tree.get? b.location doc = some v) : NodeContent doc g v
  | response {r code v} (mem : r ∈ g.responses) (ranked : code ∈ r.preferred)
      (inside : ResponseContent doc r.location code.code v) : NodeContent doc g v

theorem unfinishedSource {c : Config} {doc doc' : Value}
    (run : build c doc = (doc', .error .unfinished)) :
    ∃ cx, Setting.make doc' c = .ok cx ∧ walk cx .empty = .error .unfinished := by
  unfold build at run
  split at run
  · simp at run
  · rename_i declared n told
    simp only [Prod.mk.injEq] at run
    obtain ⟨rfl, failed⟩ := run
    cases made : Setting.make declared c with
    | error e =>
      simp only [graphOf, made, bind, Except.bind, Except.error.injEq] at failed
      subst failed
      cases request : c.requestPatterns with
      | error e => simp [Setting.make, request, Except.mapError, bind, Except.bind] at made
      | ok patterns =>
        cases accept : c.acceptPatterns <;>
          simp [Setting.make, request, accept, Except.mapError, bind, Except.bind] at made
    | ok cx =>
      refine ⟨cx, rfl, ?_⟩
      cases walked : walk cx .empty with
      | error e =>
        simp only [graphOf, made, StateT.run, walked, bind, Except.bind, Except.error.injEq] at failed
        rw [failed]
      | ok p => simp [graphOf, made, StateT.run, walked, bind, Except.bind] at failed

/- A build comes to no end only when an operation enters what leads to a header that leads back to
itself, and when it succeeds none of its nodes was made from such a value. -/
theorem buildEnds {c : Config} {doc doc' : Value} {result : Except Failure Graph}
    (lawful : doc.lawful = true) (run : build c doc = (doc', result)) :
    (result = .error .unfinished → ∃ found, Declaration.operations doc' = .ok found ∧
      ∃ f ∈ found, ∃ v, Enters doc' f v ∧ Endless doc' v) ∧
    ∀ g, result = .ok g → ∀ v, NodeContent doc' g v → ¬ Endless doc' v := by
  have lawful' := buildLawful lawful run
  refine ⟨fun unfinished => ?_, fun g ok v content => ?_⟩
  · subst unfinished
    obtain ⟨cx, set, walked⟩ := unfinishedSource run
    obtain ⟨request, accept, _, _, rfl⟩ := settingSource set
    exact @walkEndsUnless ⟨doc', c, request, accept⟩ lawful' _ walked
  · subst ok
    obtain ⟨cx, _, set, _, builds, _⟩ := graphOfBuilds lawful' (buildSource run).2
    obtain ⟨_, _, _, _, rfl⟩ := settingSource set
    cases content with
    | parameter mem at_ =>
      obtain ⟨i, held⟩ := List.getElem?_of_mem mem
      obtain ⟨_, w, at', _, _, _, _, _, _, read, _⟩ :=
        builds.parameters.fresh emptyIndexed i _ (Nat.zero_le _) held
      cases at_.symm.trans at'
      exact headerAtRead read
    | body mem at_ =>
      obtain ⟨i, held⟩ := List.getElem?_of_mem mem
      obtain ⟨_, _, w, at', _, _, _, _, _, _, read, _⟩ :=
        builds.bodies.fresh emptyIndexed i _ (Nat.zero_le _) held
      cases at_.symm.trans at'
      exact mediaOfContentRead read
    | response mem ranked inside =>
      obtain ⟨i, held⟩ := List.getElem?_of_mem mem
      obtain ⟨_, _, acc, _, _, _, _, read, _⟩ :=
        builds.responses.fresh emptyIndexed i _ (Nat.zero_le _) held
      obtain ⟨_, _, _, _, one⟩ := (runFoldlM.mp read).each ranked
      exact visitCodeRead one inside

def headerPlace (name : String) : Location := ⟨["components", "headers", name]⟩

def linkTo (next : String) : Value :=
  .obj [("content", .obj [("x/y", .obj [("encoding", .obj [("part", .obj [
    ("headers", .obj [("next", reference (headerPlace next).toPointer)])])])])])]

def linkDocument (next : String) : Value := .obj [
  ("tags", .arr [.obj [("name", .str "pages")]]),
  ("paths", .obj [("/pages", .obj [("get", .obj [
    ("tags", .arr [.str "pages"]), ("operationId", .str "getPages"),
    ("responses", .obj [("200", .obj [("headers", .obj [
      ("Link", reference (headerPlace "Link").toPointer)])])])])])]),
  ("components", .obj [("headers", .obj [
    ("Link", linkTo next), ("Last", .obj [("schema", .obj [("type", .str "string")])])])])]

theorem linkDeclared (next : String) : Declaration.declare Config.default (linkDocument next) =
    .ok (linkDocument next, 0) := by rfl

theorem linkUnfinished : build Config.default (linkDocument "Link") =
    (linkDocument "Link", .error .unfinished) := by
  have none : (match graphOf Config.default (linkDocument "Link") with
      | .error e => decide (e = .unfinished)
      | .ok _ => false) = true := by decide +kernel
  cases walked : graphOf Config.default (linkDocument "Link") with
  | ok g => simp [walked] at none
  | error e =>
    simp only [walked, decide_eq_true_eq] at none
    simp [build, linkDeclared, walked, none]

/- A chain of headers that has an end is read, and one that comes back to its first is found out. -/
theorem linkEnds : (∃ g, build Config.default (linkDocument "Last") = (linkDocument "Last", .ok g) ∧
      g.schemas.length = 1 ∧
      ∀ v, NodeContent (linkDocument "Last") g v → ¬ Endless (linkDocument "Last") v) ∧
    ∃ found, Declaration.operations (linkDocument "Link") = .ok found ∧ ∃ f ∈ found,
      ∃ v, Enters (linkDocument "Link") f v ∧ Endless (linkDocument "Link") v := by
  refine ⟨?_, (buildEnds (by decide +kernel) linkUnfinished).1 rfl⟩
  obtain ⟨g, walked, one⟩ : ∃ g, graphOf Config.default (linkDocument "Last") = .ok g ∧
      g.schemas.length = 1 := by decide +kernel
  have built : build Config.default (linkDocument "Last") = (linkDocument "Last", .ok g) := by
    simp [build, linkDeclared, walked]
  exact ⟨g, built, one, (buildEnds (by decide +kernel) built).2 g rfl⟩

/- No number of steps is enough to read a header that leads back to itself. -/
theorem linkNeverRead : Endless (linkDocument "Link") (linkTo "Link") ∧
    Tree.get? (headerPlace "Link") (linkDocument "Link") = some (linkTo "Link") ∧
    (∀ (cx : Setting) steps l g id g', cx.doc = linkDocument "Link" →
      headerSchema cx steps (linkTo "Link") l g ≠ .ok (id, g')) ∧
    build Config.default (linkDocument "Link") = (linkDocument "Link", .error .unfinished) := by
  have resolved : resolve (linkDocument "Link") (reference (headerPlace "Link").toPointer) =
      .ok ⟨linkTo "Link", some (headerPlace "Link").toPointer⟩ :=
    resolveReference (by simp [Location.Spelled, headerPlace]) (by rfl) (by rfl)
  have step : ContentHeader (linkDocument "Link") (linkTo "Link") (linkTo "Link") :=
    ⟨_, List.mem_singleton_self _, _, List.mem_singleton_self _, _, List.mem_singleton_self _, _,
      resolved, rfl⟩
  have endless : Endless (linkDocument "Link") (linkTo "Link") := ⟨_, .refl, .single step⟩
  refine ⟨endless, by rfl, fun cx steps l g id g' same run => ?_, linkUnfinished⟩
  exact headerSchemaRead run (same ▸ endless.chain steps)

end ApiGraph.Build
