import ApiGraph.Proofs.Visits
import Mathlib.Data.List.Dedup

/-! The inputs of a method. The parameters of an operation override those of its path item, a key
keeps the place where it was first declared, and the inputs are sorted by what their nodes say. The
plans are sorted before the nodes exist, so first the plans are followed to their nodes. -/
namespace ApiGraph.Entries
variable {α : Type u} {β γ : Type v} [BEq α] [LawfulBEq α]

omit [LawfulBEq α] in
theorem ofListAppend (es : List (α × β)) (e : α × β) :
    ofList (es ++ [e]) = put e.1 e.2 (ofList es) := by
  simp [ofList]

theorem lookupOfList (es : List (α × β)) (k : α) :
    (ofList es).lookup k = es.reverse.lookup k := by
  induction es using List.reverseRecOn with
  | nil => rfl
  | append_singleton es e ih =>
    rw [ofListAppend, List.reverse_append, List.reverse_singleton, List.singleton_append]
    by_cases same : k = e.1
    · rw [same, lookupPut, List.lookup_cons, beq_self_eq_true]
    · rw [lookupPutOther same, ih, List.lookup_cons, beq_eq_false_iff_ne.mpr same]

theorem lookupSome {es : List (α × β)} {k : α} : (es.lookup k).isSome ↔ k ∈ keys es := by
  rw [List.lookup_isSome_iff, keys, List.mem_map]
  exact exists_congr fun e => and_congr_right fun _ => by rw [beq_iff_eq, eq_comm]

theorem keysOfList {es : List (α × β)} {k : α} : k ∈ keys (ofList es) ↔ k ∈ keys es := by
  rw [← lookupSome, lookupOfList, lookupSome]
  simp [keys]

theorem ofListOrdered (es : List (α × β)) :
    (keys (ofList es)).Pairwise fun a b => (keys es).idxOf a < (keys es).idxOf b := by
  induction es using List.reverseRecOn with
  | nil => exact .nil
  | append_singleton es e ih =>
    have more : keys (es ++ [e]) = keys es ++ [e.1] := by simp [keys]
    have old : ∀ a ∈ keys (ofList es), (keys es ++ [e.1]).idxOf a = (keys es).idxOf a :=
      fun a mem => List.idxOf_append_of_mem (keysOfList.mp mem)
    have before : (keys (ofList es)).Pairwise fun a b =>
        (keys es ++ [e.1]).idxOf a < (keys es ++ [e.1]).idxOf b :=
      ih.imp_of_mem fun mem mem' less => by rw [old _ mem, old _ mem']; exact less
    rw [ofListAppend, more]
    rcases keysPut e.1 e.2 (ofList es) with same | ⟨fresh, added⟩
    · exact same ▸ before
    · rw [added]
      refine List.pairwise_append.mpr ⟨before, List.pairwise_singleton _ _, fun a mem b last => ?_⟩
      rw [List.mem_singleton.mp last, old a mem,
        List.idxOf_append_of_notMem (mt keysOfList.mpr fresh)]
      have small := List.idxOf_lt_length_of_mem (keysOfList.mp mem)
      omega

omit [LawfulBEq α] in
theorem lookupMap (h : β → γ) (es : List (α × β)) (k : α) :
    (es.map fun e => (e.1, h e.2)).lookup k = (es.lookup k).map h := by
  induction es with
  | nil => rfl
  | cons e r ih =>
    obtain ⟨k', v⟩ := e
    simp only [List.map_cons, List.lookup_cons]
    cases k == k' with
    | true => rfl
    | false => exact ih

end ApiGraph.Entries

namespace ApiGraph.Preference

def callingOrder : List (Option ParamIn) :=
  [some .query, some .header, some .cookie, some .path, none]

def InputOrder.Precedes (x y : InputOrder) : Prop :=
  (x.required = true ∧ y.required = false) ∨
    (x.required = y.required ∧ ((x.hasDefault = true ∧ y.hasDefault = false) ∨
      (x.hasDefault = y.hasDefault ∧ callingOrder.idxOf x.place < callingOrder.idxOf y.place)))

def weight (x : InputOrder) : Nat :=
  10 * (!x.required).toNat + 5 * (!x.hasDefault).toNat + placeRank x.place

theorem placeRankIdx (p : Option ParamIn) : placeRank p = callingOrder.idxOf p := by
  rcases p with _ | _ | _ | _ | _ <;> rfl

theorem placeRankSmall (p : Option ParamIn) : placeRank p < 5 := by
  rcases p with _ | _ | _ | _ | _ <;> decide

theorem placeRankInj {p q : Option ParamIn} (same : placeRank p = placeRank q) : p = q := by
  rcases p with _ | _ | _ | _ | _ <;> rcases q with _ | _ | _ | _ | _ <;>
    first | rfl | exact absurd same (by decide)

theorem precedesIff {x y : InputOrder} : x.Precedes y ↔ weight x < weight y := by
  obtain ⟨r, d, p⟩ := x
  obtain ⟨r', d', p'⟩ := y
  have small := placeRankSmall p
  have small' := placeRankSmall p'
  simp only [InputOrder.Precedes, weight, ← placeRankIdx]
  cases r <;> cases r' <;> cases d <;> cases d' <;> simp <;> omega

theorem notAfterIff {x y : InputOrder} :
    (compareInputs x y != .gt) = true ↔ weight x ≤ weight y := by
  obtain ⟨r, d, p⟩ := x
  obtain ⟨r', d', p'⟩ := y
  have small := placeRankSmall p
  have small' := placeRankSmall p'
  simp only [compareInputs, weight, bne_iff_ne, ne_eq, Ordering.then_eq_gt, Nat.compare_eq_gt,
    Nat.compare_eq_eq]
  cases r <;> cases r' <;> cases d <;> cases d' <;> simp <;> omega

theorem weightInj {x y : InputOrder} (same : weight x = weight y) : x = y := by
  obtain ⟨r, d, p⟩ := x
  obtain ⟨r', d', p'⟩ := y
  have small := placeRankSmall p
  have small' := placeRankSmall p'
  have inj := @placeRankInj p p'
  simp only [weight] at same
  cases r <;> cases r' <;> cases d <;> cases d' <;> simp at same ⊢ <;>
    first | exact inj (by omega) | omega

theorem sortInputsSorted {α : Type} (order : α → InputOrder) {S : α → α → Prop} {xs : List α}
    (came : xs.Pairwise S) : (sortInputs order xs).Pairwise fun a b =>
      (order a).Precedes (order b) ∨ (order a = order b ∧ S a b) := by
  have sorted : (sortInputs order xs).Pairwise
      (Stable.Sorted (fun a b => compareInputs (order a) (order b) != .gt) S) :=
    Stable.sortSorted (fun a b => by simp only [notAfterIff]; omega)
      (fun a b c => by simp only [notAfterIff]; omega) came
  refine sorted.imp fun {a b} ranked => ?_
  obtain ⟨least, ties⟩ := ranked
  rw [notAfterIff] at least ties
  rw [precedesIff]
  rcases Nat.lt_or_ge (weight (order a)) (weight (order b)) with less | back
  · exact .inl less
  · exact .inr ⟨weightInj (by omega), ties back⟩

end ApiGraph.Preference

namespace ApiGraph.Build
open Json Resolve ApiGraph.Graph Declaration Preference

abbrev ParamKey := ParamIn × String

def declaredParameter (doc raw : Value) (l : Location) : Option (ParamKey × Location) :=
  match Resolve.resolve doc raw with
  | .ok r => (paramIdentity r.value).map fun e => ((e.2, e.1), r.locationOr l)
  | .error _ => none

def declaredParameters (doc : Value) (owner : Location) : List (ParamKey × Location) :=
  let l := owner.child "parameters"
  match Tree.get? l doc with
  | some (.arr items) =>
    items.zipIdx.filterMap fun e => declaredParameter doc e.1 (l.child (toString e.2))
  | _ => []

def declaredKeys (doc : Value) (f : Found) : List ParamKey :=
  Entries.keys (declaredParameters doc f.item ++ declaredParameters doc f.place)

/- The last of the operation's own parameters with a key, or else the last of the path item's. -/
def chosen (doc : Value) (f : Found) (k : ParamKey) : Option Location :=
  ((declaredParameters doc f.place).reverse.lookup k).or
    ((declaredParameters doc f.item).reverse.lookup k)

def responsesOf (operation : Value) : Members := (operation.membersAt? "responses").getD []

def declaredBody (doc operation : Value) (l : Location) : Option Location :=
  (operation.get? "requestBody").bind fun raw =>
    match Resolve.resolve doc raw with
    | .ok r => (r.value.membersAt? "content").map fun _ => r.locationOr (l.child "requestBody")
    | .error _ => none

structure PlannedParameter (cx : Setting) (e : ParamKey × ParamPlan) : Prop where
  identity : paramIdentity e.2.value = some (e.1.2, e.1.1)
  required : e.2.required = flagAt e.2.value "required"
  default : ∃ d m, parameterDefault cx e.2.value m = .ok (d, m) ∧ e.2.hasDefault = d.isSome
  place : e.2.place = e.1.1

structure PlannedBody (cx : Setting) (b : BodyPlan) : Prop where
  required : b.required = flagAt b.value "required"
  default : ∃ d m, bodyDefault cx b.location (contentOf b.value) b.preferred m = .ok (d, m) ∧
    b.hasDefault = d.isSome

def located (e : ParamKey × ParamPlan) : ParamKey × Location := (e.1, e.2.location)

section Plans
variable {cx : Setting} {g g' : Graph} {l : Location}

theorem paramPlanSource {raw : Value} {plan : Option (ParamKey × ParamPlan)}
    (run : paramPlan cx raw l g = .ok (plan, g')) : g' = g ∧
      plan.map located = declaredParameter cx.doc raw l ∧
      ∀ e, plan = some e → PlannedParameter cx e := by
  simp only [paramPlan, runBind, runResolve] at run
  obtain ⟨r, m, ⟨resolved, rfl⟩, run⟩ := run
  cases identity : paramIdentity r.value with
  | none =>
    simp only [identity, runPure] at run
    obtain ⟨rfl, rfl⟩ := run
    exact ⟨rfl, by simp [declaredParameter, resolved, identity], fun _ none => by contradiction⟩
  | some named =>
    obtain ⟨name, place⟩ := named
    simp only [identity, runBind, runPure] at run
    obtain ⟨default, _, kept, rfl, rfl⟩ := run
    cases (parameterDefaultAsks cx _ _ _ _ kept).1
    refine ⟨rfl, by simp [declaredParameter, resolved, identity, located], ?_⟩
    intro e same
    cases same
    exact ⟨identity, rfl, ⟨_, _, kept, rfl⟩, rfl⟩

theorem keptMap {α β γ : Type} {h : β → γ} {d : α → Option γ} {xs : List α}
    {ys : List (Option β)} (each : List.Forall₂ (fun x y => y.map h = d x) xs ys) :
    (ys.filterMap id).map h = xs.filterMap d := by
  induction each with
  | nil => rfl
  | @cons x y xs ys head _ ih =>
    cases y with
    | none => simpa [← head] using ih
    | some y => simpa [← head] using ih

theorem preferredResponsesCodes {verb : String} {operation : Value} {codes : List ResponseCode}
    (run : preferredResponses cx verb operation g = .ok (codes, g')) :
    codes.map (·.code) =
      (Preference.responseCodes verb (Entries.keys (responsesOf operation))).filter
        (Entries.has · (responsesOf operation)) := by
  cases held : operation.membersAt? "responses" with
  | none =>
    simp only [preferredResponses, held, runPure] at run
    simp [responsesOf, held, run.1, Entries.has]
  | some responses =>
    have same : responsesOf operation = responses := by simp [responsesOf, held]
    simp only [preferredResponses, held, runBind, runPure] at run
    obtain ⟨ranked, m, visited, rfl, rfl⟩ := run
    obtain ⟨_, each⟩ := (runMapM.mp visited).still
      (P := fun name ranked => ranked.map (·.code) =
        if Entries.has name responses then some name else none) (by
        intro name _ g _ g' one
        cases found : responses.lookup name with
        | none =>
          simp only [found, runPure] at one
          exact ⟨one.2, by simp [one.1, Entries.has, found]⟩
        | some raw =>
          simp only [found, runBind, runResolve, runPure] at one
          obtain ⟨r, _, ⟨_, rfl⟩, rfl, rfl⟩ := one
          exact ⟨rfl, by simp [Entries.has, found]⟩)
    rw [keptMap each, same, ← List.filterMap_eq_filter]
    rfl

theorem paramPlansOfSource {plans : List (ParamKey × ParamPlan)}
    (run : paramPlansOf cx l g = .ok (plans, g')) : g' = g ∧
      plans.map located = declaredParameters cx.doc l ∧ ∀ e ∈ plans, PlannedParameter cx e := by
  cases here : Tree.get? (l.child "parameters") cx.doc with
  | none =>
    simp only [paramPlansOf, here, runPure] at run
    obtain ⟨rfl, rfl⟩ := run
    exact ⟨rfl, by simp [declaredParameters, here], by simp⟩
  | some v =>
    cases v with
    | arr items =>
      simp only [paramPlansOf, here, runBind, runPure] at run
      obtain ⟨found, m, visited, rfl, rfl⟩ := run
      obtain ⟨same, each⟩ := (runMapM.mp visited).still
        (P := fun e plan => plan.map located = declaredParameter cx.doc e.1
            ((l.child "parameters").child (toString e.2)) ∧
          ∀ e, plan = some e → PlannedParameter cx e)
        fun e _ _ _ _ one => paramPlanSource one
      refine ⟨same, ?_, fun e mem => ?_⟩
      · simp only [declaredParameters, here]
        exact keptMap (each.imp fun _ _ both => both.1)
      · obtain ⟨plan, inside, kept⟩ := List.mem_filterMap.mp mem
        obtain ⟨_, _, _, planned⟩ := partner each inside
        exact planned e kept
    | _ =>
      simp only [paramPlansOf, here, runPure] at run
      obtain ⟨rfl, rfl⟩ := run
      exact ⟨rfl, by simp [declaredParameters, here], by simp⟩

structure ParameterPlans (cx : Setting) (f : Found) (es : List (ParamKey × ParamPlan)) : Prop where
  planned : ∀ e ∈ es, PlannedParameter cx e
  chosen : ∀ k, (es.lookup k).map ParamPlan.location = chosen cx.doc f k
  ordered : (Entries.keys es).Pairwise fun a b =>
    (declaredKeys cx.doc f).idxOf a < (declaredKeys cx.doc f).idxOf b

theorem paramPlansSource {f : Found} {plans : List ParamPlan}
    (run : paramPlans cx f.item f.place g = .ok (plans, g')) :
    g' = g ∧ ∃ es, plans = es.map Prod.snd ∧ ParameterPlans cx f es := by
  simp only [paramPlans, runBind, runPure] at run
  obtain ⟨shared, _, run₁, own, _, run₂, rfl, rfl⟩ := run
  obtain ⟨rfl, shared_, planned₁⟩ := paramPlansOfSource run₁
  obtain ⟨rfl, own_, planned₂⟩ := paramPlansOfSource run₂
  have all : (shared ++ own).map located =
      declaredParameters cx.doc f.item ++ declaredParameters cx.doc f.place := by
    rw [List.map_append, shared_, own_]
  refine ⟨rfl, _, rfl, fun e mem => ?_, fun k => ?_, ?_⟩
  · exact (List.mem_append.mp (memOfList mem)).elim (planned₁ e) (planned₂ e)
  · rw [Entries.lookupOfList, ← Entries.lookupMap]
    change (((shared ++ own).reverse).map located).lookup k = _
    rw [List.map_reverse, all, List.reverse_append, List.lookup_append, Build.chosen]
  · have keys : Entries.keys (shared ++ own) = declaredKeys cx.doc f := by
      rw [declaredKeys, ← all, Entries.keys, Entries.keys, List.map_map]
      rfl
    rw [← keys]
    exact Entries.ofListOrdered _

theorem bodyPlanSource {operation : Value} {taken : List String} {body : Option BodyPlan}
    (run : bodyPlan cx operation l taken g = .ok (body, g')) : g' = g ∧
      body.map BodyPlan.location = declaredBody cx.doc operation l ∧
      ∀ b, body = some b → PlannedBody cx b := by
  cases held : operation.get? "requestBody" with
  | none =>
    simp only [bodyPlan, held, runPure] at run
    obtain ⟨rfl, rfl⟩ := run
    exact ⟨rfl, by simp [declaredBody, held], fun _ none => by contradiction⟩
  | some raw =>
    simp only [bodyPlan, held, runBind, runResolve] at run
    obtain ⟨r, m, ⟨resolved, rfl⟩, run⟩ := run
    cases declared : r.value.membersAt? "content" with
    | none =>
      simp only [declared, runPure] at run
      obtain ⟨rfl, rfl⟩ := run
      exact ⟨rfl, by simp [declaredBody, held, resolved, declared], fun _ none => by contradiction⟩
    | some content =>
      simp only [declared, runBind, runPure] at run
      obtain ⟨default, _, kept, rfl, rfl⟩ := run
      cases (bodyDefaultAsks cx _ _ _ _ _ _ kept).1
      refine ⟨rfl, by simp [declaredBody, held, resolved, declared], ?_⟩
      intro b same
      cases same
      have content_ : contentOf r.value = content := by simp [contentOf, declared]
      subst content_
      exact ⟨rfl, _, _, kept, rfl⟩

structure InputPlans (cx : Setting) (f : Found) (plans : List InputPlan) : Prop where
  source : ∃ es body, plans = (es.map Prod.snd).map .parameter ++ body.toList.map .body ∧
    ParameterPlans cx f es ∧ body.map BodyPlan.location = declaredBody cx.doc f.operation f.place ∧
    ∀ b, body = some b → PlannedBody cx b

theorem inputPlansSource {f : Found} {plans : List InputPlan}
    (run : inputPlans cx f.operation f.place g = .ok (plans, g')) : InputPlans cx f plans := by
  have item : (f.place.parent?).getD .root = f.item := by
    simp [Found.place, Location.parent?, Location.child, Location.isRoot]
  simp only [inputPlans, item, runBind, runPure] at run
  obtain ⟨params, _, run₁, body, _, run₂, rfl, rfl⟩ := run
  obtain ⟨rfl, es, rfl, parameters⟩ := paramPlansSource run₁
  obtain ⟨rfl, place, planned⟩ := bodyPlanSource run₂
  exact ⟨es, body, rfl, parameters, place, planned⟩

end Plans

def inputFacts (g : Graph) : MethodInput → Option (InputOrder × Option ParamKey)
  | .parameter id => (g.parameter? id).map fun p =>
      (⟨p.required, p.default.isSome, some p.wire.place⟩, some (p.wire.place, p.name))
  | .body id => (g.body? id).map fun b => (⟨b.required, b.default.isSome, none⟩, none)

def parameterKey (g : Graph) (i : MethodInput) : Option ParamKey := (inputFacts g i).bind Prod.snd

def bodyPlace (g : Graph) : MethodInput → Option Location
  | .parameter _ => none
  | .body id => g.location? (.body id)

def planKey : InputPlan → Option ParamKey
  | .parameter p => (paramIdentity p.value).map Prod.swap
  | .body _ => none

def planBody : InputPlan → Option Location
  | .parameter _ => none
  | .body b => some b.location

section Nodes
variable {cx : Setting} {g g' : Graph}

theorem parameterSays (builds : Builds .whole cx .all .empty g) {p : Parameter}
    (mem : p ∈ g.parameters) : ∃ v, Tree.get? p.location cx.doc = some v ∧ ParameterFacts cx v p := by
  obtain ⟨i, at_⟩ := List.getElem?_of_mem mem
  obtain ⟨_, v, here, _, facts, _⟩ := builds.parameters.fresh emptyIndexed i p (Nat.zero_le _) at_
  exact ⟨v, here, facts⟩

theorem bodySays (builds : Builds .whole cx .all .empty g) {b : RequestBody}
    (mem : b ∈ g.bodies) : ∃ v, Tree.get? b.location cx.doc = some v ∧ BodyFacts cx v b ∧
      b.preferred = Preference.mediaTypes cx.requestPatterns (Entries.keys (contentOf v)) := by
  obtain ⟨i, at_⟩ := List.getElem?_of_mem mem
  obtain ⟨_, ⟨v, here, files⟩, w, here', _, facts, _⟩ :=
    builds.bodies.fresh emptyIndexed i b (Nat.zero_le _) at_
  cases here.symm.trans here'
  exact ⟨v, here, facts, files.ranked⟩

inductive PlannedInput (cx : Setting) : InputPlan → Prop
  | parameter {e} (planned : PlannedParameter cx e) : PlannedInput cx (.parameter e.2)
  | body {b} (planned : PlannedBody cx b) : PlannedInput cx (.body b)

theorem inputAgrees (builds : Builds .whole cx .all .empty g) {plan : InputPlan} {i : MethodInput}
    (sound : SoundInput cx plan) (planned : PlannedInput cx plan) (node : InputNode g plan i) :
    inputFacts g i = some (plan.order, planKey plan) := by
  cases node with
  | @parameter p id stands =>
    obtain ⟨n, held, placed⟩ := Option.map_eq_some_iff.mp stands
    obtain ⟨v, at_, facts⟩ := parameterSays builds (List.mem_of_getElem? held)
    rw [placed, sound.1] at at_
    cases at_
    cases planned with
    | @parameter e planned =>
      obtain ⟨d, m, asked, told⟩ := planned.default
      obtain ⟨m', asked'⟩ := facts.default
      have default := (parameterDefaultAsks cx _).one asked asked'
      have identity := Option.some.inj (planned.identity.symm.trans facts.identity)
      obtain ⟨name, place⟩ := Prod.mk.inj identity
      simp only [inputFacts, held, Option.map_some, InputPlan.order, planKey, planned.identity,
        Prod.swap_prod_mk, planned.required, facts.required, told, default, planned.place, name, place]
  | @body b id stands =>
    obtain ⟨n, held, placed⟩ := Option.map_eq_some_iff.mp stands
    obtain ⟨v, at_, facts, ranked⟩ := bodySays builds (List.mem_of_getElem? held)
    obtain ⟨there, _, ranked'⟩ := sound
    rw [placed, there] at at_
    cases at_
    cases planned with
    | body planned =>
      obtain ⟨d, m, asked, told⟩ := planned.default
      obtain ⟨m', asked'⟩ := facts.default
      rw [placed, ranked, ← ranked'] at asked'
      have default := (bodyDefaultAsks cx _ _ _).one asked asked'
      simp only [inputFacts, held, Option.map_some, InputPlan.order, planKey, planned.required,
        facts.required, told, default]

def ComesBefore (doc : Value) (f : Found) (g : Graph) (i j : MethodInput) : Prop :=
  ∃ x k y k', inputFacts g i = some (x, k) ∧ inputFacts g j = some (y, k') ∧
    (x.Precedes y ∨ (x = y ∧ ∃ a b, k = some a ∧ k' = some b ∧
      (declaredKeys doc f).idxOf a < (declaredKeys doc f).idxOf b))

/- The inputs of an operation: for every key that is declared the parameter chosen for it, the body
if there is one, each once and in calling order. -/
structure ListsInputs (doc : Value) (f : Found) (g : Graph) (inputs : List MethodInput) : Prop where
  known : ∀ i ∈ inputs, (inputFacts g i).isSome
  parameters : (inputs.filterMap (parameterKey g)).Perm (declaredKeys doc f).dedup
  chosen : ∀ id p, .parameter id ∈ inputs → g.parameter? id = some p →
    chosen doc f (p.wire.place, p.name) = some p.location
  body : inputs.filterMap (bodyPlace g) = (declaredBody doc f.operation f.place).toList
  once : inputs.Nodup
  ordered : inputs.Pairwise (ComesBefore doc f g)

theorem transfer {α β : Type} {R : α → β → Prop} {S : α → α → Prop} {T : β → β → Prop}
    {xs : List α} {ys : List β} (related : List.Forall₂ R xs ys) (ordered : xs.Pairwise S)
    (carries : ∀ {x x' y y'}, R x y → R x' y' → S x x' → T y y') : ys.Pairwise T := by
  induction related with
  | nil => exact .nil
  | cons head tail ih =>
    obtain ⟨first, rest⟩ := List.pairwise_cons.mp ordered
    refine List.pairwise_cons.mpr ⟨fun y mem => ?_, ih rest⟩
    obtain ⟨x, inside, same⟩ := partner tail mem
    exact carries head same (first x inside)

theorem transferMap {α β γ : Type} {R : α → β → Prop} {p : α → Option γ} {q : β → Option γ}
    {xs : List α} {ys : List β} (related : List.Forall₂ R xs ys)
    (same : ∀ {x y}, R x y → q y = p x) : ys.filterMap q = xs.filterMap p := by
  induction related with
  | nil => rfl
  | cons head _ ih => simp only [List.filterMap_cons, same head, ih]

def PlanOrder (doc : Value) (f : Found) (p q : InputPlan) : Prop :=
  p.order.place ≠ q.order.place ∨ ∃ a b, planKey p = some a ∧ planKey q = some b ∧
    (declaredKeys doc f).idxOf a < (declaredKeys doc f).idxOf b

namespace InputPlans
variable {f : Found} {plans : List InputPlan}

theorem planned (h : InputPlans cx f plans) {p : InputPlan} (mem : p ∈ plans) :
    PlannedInput cx p := by
  obtain ⟨es, body, rfl, parameters, _, bodies⟩ := h.source
  rcases List.mem_append.mp mem with param | rest
  · obtain ⟨q, inside, rfl⟩ := List.mem_map.mp param
    obtain ⟨e, given, rfl⟩ := List.mem_map.mp inside
    exact .parameter (parameters.planned e given)
  · obtain ⟨b, inside, rfl⟩ := List.mem_map.mp rest
    exact .body (bodies b (Option.mem_toList.mp inside))

theorem keyOf {e : ParamKey × ParamPlan} (planned : PlannedParameter cx e) :
    planKey (.parameter e.2) = some e.1 := by
  simp [planKey, planned.identity]

theorem came (h : InputPlans cx f plans) : plans.Pairwise (PlanOrder cx.doc f) := by
  obtain ⟨es, body, rfl, parameters, _, _⟩ := h.source
  refine List.pairwise_append.mpr ⟨?_, ?_, ?_⟩
  · rw [List.pairwise_map, List.pairwise_map]
    have ordered := List.pairwise_map.mp parameters.ordered
    refine ordered.imp_of_mem fun {e e'} mem mem' less => .inr ⟨e.1, e'.1, ?_, ?_, less⟩
    · exact keyOf (parameters.planned e mem)
    · exact keyOf (parameters.planned e' mem')
  · cases body with
    | none => exact .nil
    | some b => exact List.pairwise_singleton _ _
  · intro p inside q inside'
    obtain ⟨a, _, rfl⟩ := List.mem_map.mp inside
    obtain ⟨b, _, rfl⟩ := List.mem_map.mp inside'
    exact .inl (by simp [InputPlan.order])

theorem keys (h : InputPlans cx f plans) :
    (plans.filterMap planKey).Perm (declaredKeys cx.doc f).dedup := by
  obtain ⟨es, body, rfl, parameters, _, _⟩ := h.source
  have none : (body.toList.map InputPlan.body).filterMap planKey = [] := by
    cases body <;> rfl
  have given : ((es.map Prod.snd).map InputPlan.parameter).filterMap planKey = Entries.keys es := by
    rw [List.map_map, List.filterMap_map, Entries.keys, ← List.filterMap_eq_map]
    exact List.filterMap_congr fun e mem => keyOf (parameters.planned e mem)
  rw [List.filterMap_append, none, List.append_nil, given]
  have apart : (Entries.keys es).Nodup := parameters.ordered.imp fun less same => by
    rw [same] at less
    omega
  refine (List.perm_ext_iff_of_nodup apart (List.nodup_dedup _)).mpr fun k => ?_
  rw [List.mem_dedup, ← Entries.lookupSome, ← Option.isSome_map, parameters.chosen]
  simp [Build.chosen, declaredKeys, Entries.keys, or_comm]

theorem bodies (h : InputPlans cx f plans) :
    plans.filterMap planBody = (declaredBody cx.doc f.operation f.place).toList := by
  obtain ⟨es, body, rfl, _, place, _⟩ := h.source
  rw [List.filterMap_append, List.map_map, List.filterMap_map, List.filterMap_map, ← place]
  cases body <;> simp [planBody]

theorem chosenOf (h : InputPlans cx f plans) {p : ParamPlan} (mem : .parameter p ∈ plans) :
    ∃ k, planKey (.parameter p) = some k ∧ Build.chosen cx.doc f k = some p.location := by
  obtain ⟨es, body, rfl, parameters, _, _⟩ := h.source
  rcases List.mem_append.mp mem with param | rest
  · obtain ⟨q, inside, same⟩ := List.mem_map.mp param
    cases same
    obtain ⟨e, given, rfl⟩ := List.mem_map.mp inside
    refine ⟨e.1, keyOf (parameters.planned e given), ?_⟩
    have apart : (Entries.keys es).Nodup := parameters.ordered.imp fun less same => by
      rw [same] at less
      omega
    rw [← parameters.chosen, Entries.lookupOfMem apart given]
    rfl
  · obtain ⟨b, _, impossible⟩ := List.mem_map.mp rest
    contradiction

end InputPlans

theorem nodesListed {f : Found} (builds : Builds .whole cx .all .empty g) {plans : List InputPlan}
    (planned : InputPlans cx f plans) (sound : ∀ p ∈ plans, SoundInput cx p)
    {inputs : List MethodInput}
    (nodes : List.Forall₂ (InputNode g) (sortInputs InputPlan.order plans) inputs) :
    ListsInputs cx.doc f g inputs := by
  have perm : (sortInputs InputPlan.order plans).Perm plans := Stable.sortPerm _ plans
  have agree : List.Forall₂ (fun p i => inputFacts g i = some (p.order, planKey p) ∧
      InputNode g p i ∧ p ∈ plans) (sortInputs InputPlan.order plans) inputs := by
    have each := List.forall₂_iff_zip.mp nodes
    refine List.forall₂_iff_zip.mpr ⟨each.1, fun {p i} mem => ?_⟩
    have inside : p ∈ plans := perm.mem_iff.mp (List.of_mem_zip mem).1
    exact ⟨inputAgrees builds (sound p inside) (planned.planned inside) (each.2 mem), each.2 mem,
      inside⟩
  have ordered : inputs.Pairwise (ComesBefore cx.doc f g) := by
    refine transfer agree (sortInputsSorted _ planned.came) ?_
    rintro p q i j ⟨told, _⟩ ⟨told', _⟩ before
    refine ⟨_, _, _, _, told, told', before.imp_right fun ⟨same, came⟩ => ⟨same, ?_⟩⟩
    exact came.resolve_left (by simp [same])
  have keys : inputs.filterMap (parameterKey g) =
      (sortInputs InputPlan.order plans).filterMap planKey :=
    transferMap agree fun ⟨told, _⟩ => by simp [parameterKey, told]
  have bodies : inputs.filterMap (bodyPlace g) =
      (sortInputs InputPlan.order plans).filterMap planBody :=
    transferMap agree fun ⟨_, node, _⟩ => by
      cases node with
      | parameter _ => rfl
      | body stands => exact stands
  exact {
    known := fun i mem => by
      obtain ⟨p, _, told, _⟩ := partner agree mem
      simp [told]
    parameters := by
      rw [keys]
      exact (perm.filterMap _).trans planned.keys
    chosen := fun id n mem held => by
      obtain ⟨_, _, told, node, inside⟩ := partner agree mem
      cases node with
      | parameter stands =>
        obtain ⟨k, key, place⟩ := planned.chosenOf inside
        simp only [inputFacts, held, Option.map_some, Option.some.injEq, Prod.mk.injEq, key] at told
        simp only [location?, held, Option.map_some, Option.some.injEq] at stands
        rw [told.2, place, stands]
    body := by
      have same := perm.filterMap planBody
      rw [planned.bodies] at same
      rw [bodies]
      generalize declaredBody cx.doc f.operation f.place = declared at same ⊢
      cases declared with
      | none => exact List.perm_nil.mp same
      | some l => exact List.perm_singleton.mp same
    once := ordered.imp fun {i j} before same => by
      obtain ⟨x, k, y, k', told, told', less⟩ := before
      rw [same, told'] at told
      cases told
      rcases less with less | ⟨_, a, b, key, key', less⟩
      · exact Nat.lt_irrefl _ (precedesIff.mp less)
      · cases key.symm.trans key'
        exact Nat.lt_irrefl _ less
    ordered := ordered }

end Nodes

theorem methodNodeLists {cx : Setting} {start after : Graph} (lawful : cx.doc.lawful = true)
    (indexed : Indexed start) {plan : MethodPlan} {operation : Value}
    (at_ : Tree.get? plan.location cx.doc = some operation) {id : MethodId} {method : Method}
    (run : methodNode cx plan operation start = .ok (.ok id, after))
    (added : after.methods = start.methods ++ [method]) : method.location = plan.location ∧
      ∃ plans, inputPlans cx operation plan.location start = .ok (plans, start) ∧
        (∀ p ∈ plans, SoundInput cx p) ∧
        List.Forall₂ (InputNode after) (sortInputs InputPlan.order plans) method.inputs := by
  cases methodNodeSource run with
  | @made plans preferred listed m response m' secured asked ranked visited settled _ last =>
    have sound := (inputPlansSound at_ asked).2
    have codes := (preferredResponsesSound at_ ranked).2
    obtain ⟨inputs, nodes⟩ := inputNodesBuilds lawful (sortedSound at_ asked) visited
    have first := inputs.grows.edits
    have settles : Builds .inputs cx .all m m' ∧ _ :=
      responseNodeBuilds lawful codes trivial settled
    have rest := settles.1.grows.edits
    have kept := (rest.keepsMethods (by simp)).2.1.trans (first.keepsMethods (by simp)).2.1
    have last' : after.methods = start.methods ++ [plan.method listed response secured] := by
      rw [last, ← kept]
      rfl
    have same : method = plan.method listed response secured :=
      List.singleton_inj.mp (List.append_cancel_left (added.symm.trans last'))
    have edits : Edits .whole m after :=
      (rest.widen (.inr (.inr rfl))).tail (last ▸ .method _)
    refine ⟨by rw [same]; rfl, plans, asked, sound, ?_⟩
    rw [same]
    exact (nodes indexed _ rfl).imp fun _ _ node => node.mono edits

theorem Walked.listed {cx : Setting} {found : List Found} {m g : Graph}
    (lawful : cx.doc.lawful = true) (operations : Declaration.operations cx.doc = .ok found)
    (builds : Builds .whole cx .all .empty g) (walks : Walked cx found m g) {method : Method}
    (mem : method ∈ g.methods) :
    ∃ f ∈ found, method.location = f.place ∧ ListsInputs cx.doc f g method.inputs := by
  obtain ⟨f, inside, id, start, after, making, added⟩ := walks.methodMade lawful operations mem
  have indexed := making.earlier.grows.indexed emptyIndexed
  obtain ⟨placed, plans, asked, sound, nodes⟩ :=
    methodNodeLists lawful indexed making.at_ making.run added
  refine ⟨f, inside, placed, nodesListed builds (inputPlansSource asked) sound ?_⟩
  exact nodes.imp fun _ _ node => node.mono making.later.grows.edits

/- The inputs of every method are those that its operation and its path item declare. -/
theorem inputsListed {c : Config} {doc doc' : Value} {g : Graph} (lawful : doc.lawful = true)
    (built : build c doc = (doc', .ok g)) : ∃ found, Declaration.operations doc' = .ok found ∧
      ∀ m ∈ g.methods, ∃ f ∈ found, m.location = f.place ∧ ListsInputs doc' f g m.inputs := by
  have lawful' := buildLawful lawful built
  obtain ⟨cx, set, walked⟩ := graphOfSource (buildSource built).2
  obtain ⟨_, _, _, _, rfl⟩ := settingSource set
  obtain ⟨found, operations, builds, _⟩ := walkBuilds lawful' walked
  obtain ⟨m, walks⟩ := walkSource lawful' operations walked
  exact ⟨found, operations, fun method mem => walks.listed lawful' operations builds mem⟩

def petDocument : Value :=
  let parameter (place name : String) (more : Members) : Value :=
    .obj ([("in", .str place), ("name", .str name)] ++ more)
  let required : Members := [("required", .bool true)]
  let text : Value := .obj [("schema", .obj [("type", .str "string")])]
  .obj [
    ("tags", .arr [.obj [("name", .str "pets")]]),
    ("paths", .obj [("/pets/\x7bid\x7d", .obj [
      ("parameters", .arr [parameter "query" "size" [("schema", .obj [("default", .bool true)])],
        parameter "header" "token" [], parameter "path" "id" required]),
      ("post", .obj [
        ("tags", .arr [.str "pets"]), ("operationId", .str "addPet"),
        ("parameters", .arr [parameter "header" "token" required]),
        ("requestBody", .obj (required ++ [("content", .obj [("text/plain", text)])])),
        ("responses", .obj [])])])])]

theorem petInputsListed : ∃ (g : Graph) (found : List Found),
    build Config.default petDocument = (petDocument, .ok g) ∧
    Declaration.operations petDocument = .ok found ∧
    g.methods.map Method.inputs =
      [[.parameter ⟨0⟩, .parameter ⟨1⟩, .body ⟨0⟩, .parameter ⟨2⟩]] ∧
    g.parameters.map Parameter.name = ["token", "id", "size"] ∧
    g.parameters.map (·.location.segments.length) = [5, 4, 4] ∧
    ∀ m ∈ g.methods, ∃ f ∈ found, m.location = f.place ∧ ListsInputs petDocument f g m.inputs := by
  have told : Declaration.declare Config.default petDocument = .ok (petDocument, 0) := by rfl
  obtain ⟨g, walked, inputs, names, places⟩ : ∃ g, graphOf Config.default petDocument = .ok g ∧
      g.methods.map Method.inputs =
        [[.parameter ⟨0⟩, .parameter ⟨1⟩, .body ⟨0⟩, .parameter ⟨2⟩]] ∧
      g.parameters.map Parameter.name = ["token", "id", "size"] ∧
      g.parameters.map (·.location.segments.length) = [5, 4, 4] := by decide +kernel
  have built : build Config.default petDocument = (petDocument, .ok g) := by
    simp [build, told, walked]
  obtain ⟨found, operations, all⟩ := inputsListed (by decide +kernel) built
  exact ⟨g, found, built, operations, inputs, names, places, all⟩

end ApiGraph.Build
