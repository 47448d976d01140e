import ApiGraph.Proofs.BuiltGraph
import ApiGraph.Proofs.MethodInputs
import ApiGraph.Proofs.Rankings

/-! Which operations are reported for their body. The verdict is read off the schemas that the body
has filed, and what is filed tells which accepted media types carry a schema and whether any two of
these schemas differ: a media type that is accepted and carries none counts for nothing. -/
namespace ApiGraph

def errorOf {ε α : Type} : Except ε α → Option ε
  | .error e => some e
  | .ok _ => none

def RequestBody.refusal (b : RequestBody) (role : Role) : Option OperationError :=
  errorOf (b.types role)

end ApiGraph

namespace ApiGraph.Build
open Json Resolve ApiGraph.Graph Declaration

def Accepted (patterns : List MediaPattern) (content : Members) (m : String) : Prop :=
  m ∈ Entries.keys content ∧ ∃ p ∈ patterns, p.accepts m = true

def CarriesSchema (patterns : List MediaPattern) (content : Members) (m : String) (v : Value) :
    Prop :=
  Accepted patterns content m ∧ declaredSchema content m = some v

def SchemasDiffer (doc : Value) (g : Graph) (patterns : List MediaPattern) (l : Location)
    (content : Members) : Prop :=
  ∃ m v m' v' a b, CarriesSchema patterns content m v ∧ CarriesSchema patterns content m' v' ∧
    StandsFor doc g.schemas v (schemaPlace l m) a ∧
    StandsFor doc g.schemas v' (schemaPlace l m') b ∧ g.schemasMatch doc a b = false

section Filed
variable {cx : Setting} {g : Graph} {b : RequestBody} {content : Members}

theorem filedNone (files : Files cx g b content) :
    b.schemas = [] ↔ ∀ m v, ¬ CarriesSchema cx.requestPatterns content m v := by
  obtain ⟨ranked, found, kept, mirrors, picks, same⟩ := files
  have accepted : ∀ {m}, m ∈ b.preferred ↔ Accepted cx.requestPatterns content m := fun {m} => by
    rw [ranked, Preference.memMediaTypes]
    rfl
  rw [same, List.map_eq_nil_iff]
  constructor
  · rintro rfl m v ⟨inside, declared⟩
    have mirror := mirrors m
    rw [declared] at mirror
    cases held : found m with
    | none => simp [held, MirrorsOption] at mirror
    | some id =>
      have listed : (m, id) ∈ named found b.preferred :=
        List.mem_filterMap.mpr ⟨m, accepted.mpr inside, by simp [held]⟩
      obtain ⟨_, impossible, _⟩ := picks.covered _ listed
      cases impossible
  · intro none
    refine List.eq_nil_iff_forall_not_mem.mpr fun e mem => ?_
    obtain ⟨inside, held⟩ := memNamed (picks.ordered.subset mem)
    obtain ⟨v, _, declared, _⟩ := mirroredNode (held ▸ mirrors e.1)
    exact none e.1 v ⟨accepted.mp inside, declared⟩

theorem filedMany (lawful : cx.doc.lawful = true)
    (mirrored : ∀ s ∈ g.schemas, ∃ v, Mirrors cx.doc g.schemas s v)
    (files : Files cx g b content) : 2 ≤ b.schemas.length ↔
      SchemasDiffer cx.doc g cx.requestPatterns b.location content := by
  have distinct := filedDistinct lawful mirrored files
  have classes := schemasMatchClasses g lawful
  obtain ⟨ranked, found, kept, mirrors, picks, same⟩ := files
  have accepted : ∀ {m}, m ∈ b.preferred ↔ Accepted cx.requestPatterns content m := fun {m} => by
    rw [ranked, Preference.memMediaTypes]
    rfl
  constructor
  · intro two
    match kept, same with
    | [], same => simp [same] at two
    | [e], same => simp [same] at two
    | e :: e' :: more, same =>
      have stands : ∀ x ∈ e :: e' :: more, ∃ v, CarriesSchema cx.requestPatterns content x.1 v ∧
          StandsFor cx.doc g.schemas v (schemaPlace b.location x.1) x.2 := by
        intro x mem
        obtain ⟨inside, held⟩ := memNamed (picks.ordered.subset mem)
        obtain ⟨v, _, declared, stands, _⟩ := mirroredNode (held ▸ mirrors x.1)
        exact ⟨v, ⟨accepted.mp inside, declared⟩, stands⟩
      obtain ⟨v, carries, here⟩ := stands e (by simp)
      obtain ⟨v', carries', here'⟩ := stands e' (by simp)
      have apart := (List.pairwise_cons.mp picks.apart).1 e' List.mem_cons_self
      exact ⟨e.1, v, e'.1, v', e.2, e'.2, carries, carries', here, here', apart⟩
  · rintro ⟨m, v, m', v', x, y, ⟨inside, declared⟩, ⟨inside', declared'⟩, here, here', apart⟩
    have one := distinct.once m (accepted.mpr inside) v x declared here
    have one' := distinct.once m' (accepted.mpr inside') v' y declared' here'
    have flat : b.schemas.flatMap Prod.snd = kept.map Prod.snd := by
      rw [same, List.flatMap_map, List.map_eq_flatMap]
    rw [flat] at one one'
    rw [same, List.length_map]
    match kept with
    | [] => simp at one
    | [e] =>
      have left : g.schemasMatch cx.doc e.2 x = true := by
        by_contra other
        simp [other] at one
      have right : g.schemasMatch cx.doc e.2 y = true := by
        by_contra other
        simp [other] at one'
      rw [classes.trans (classes.symm left) right] at apart
      contradiction
    | _ :: _ :: _ => simp

theorem refusalIff (lawful : cx.doc.lawful = true)
    (mirrored : ∀ s ∈ g.schemas, ∃ v, Mirrors cx.doc g.schemas s v)
    (files : Files cx g b content) (role : Role) (e : OperationError) : b.refusal role = some e ↔
      (e = .noAcceptableBody b.location ∧ ∀ m v, ¬ CarriesSchema cx.requestPatterns content m v) ∨
      (e = .ambiguousBody b.location ∧ role = .server ∧
        SchemasDiffer cx.doc g cx.requestPatterns b.location content) := by
  rw [← filedNone files, ← filedMany lawful mirrored files]
  unfold RequestBody.refusal RequestBody.types errorOf
  cases b.schemas with
  | nil => simp [eq_comm]
  | cons first more =>
    cases more with
    | nil => simp
    | cons second more => cases role <;> simp [eq_comm]

end Filed

def Verdict (role : Role) (g : Graph) (l : Location) (verdict : Option OperationError) : Prop :=
  ∃ b ∈ g.bodies, b.location = l ∧ b.refusal role = verdict

theorem bodyErrorOf {role : Role} {g : Graph} {id : BodyId} {b : RequestBody}
    (held : g.body? id = some b) : bodyError role g id = b.refusal role := by
  simp only [bodyError, held, Option.bind_some, RequestBody.refusal]
  cases b.types role <;> rfl

theorem Verdict.mono {role : Role} {g g' : Graph} {l : Location} {verdict : Option OperationError}
    (kept : g.bodies <+: g'.bodies) (h : Verdict role g l verdict) : Verdict role g' l verdict := by
  obtain ⟨b, mem, rest⟩ := h
  exact ⟨b, kept.subset mem, rest⟩

/- The verdicts on the bodies among the inputs, by how the making of their nodes ended. -/
def Judges (role : Role) (g : Graph) (plans : List InputPlan) {α : Type} :
    Except OperationError α → Prop
  | .error e => ∃ b, .body b ∈ plans ∧ Verdict role g b.location (some e)
  | .ok _ => ∀ b, .body b ∈ plans → Verdict role g b.location none

section Walk
variable {cx : Setting} {g g' : Graph} {α β : Type}

theorem Judges.mono {role : Role} {plans : List InputPlan} (kept : g.bodies <+: g'.bodies)
    {result : Except OperationError α} (h : Judges role g plans result) :
    Judges role g' plans result := by
  cases result with
  | error e =>
    obtain ⟨b, mem, verdict⟩ := h
    exact ⟨b, mem, verdict.mono kept⟩
  | ok a => exact fun b mem => (h b mem).mono kept

theorem Judges.perm {role : Role} {plans plans' : List InputPlan} (same : plans'.Perm plans)
    {result : Except OperationError α} (h : Judges role g plans' result) :
    Judges role g plans result := by
  cases result with
  | error e =>
    obtain ⟨b, mem, verdict⟩ := h
    exact ⟨b, same.mem_iff.mp mem, verdict⟩
  | ok a => exact fun b mem => h b (same.mem_iff.mpr mem)

theorem Judges.cons {role : Role} {plan : InputPlan} {plans : List InputPlan} (f : α → β)
    {result : Except OperationError α}
    (here : ∀ b, plan = .body b → Verdict role g b.location none)
    (h : Judges role g plans result) : Judges role g (plan :: plans) (result.map f) := by
  cases result with
  | error e =>
    obtain ⟨b, mem, verdict⟩ := h
    exact ⟨b, List.mem_cons_of_mem _ mem, verdict⟩
  | ok a =>
    intro b mem
    rcases List.mem_cons.mp mem with same | later
    · exact here b same.symm
    · exact h b later

theorem inputNodesJudge (lawful : cx.doc.lawful = true) (indexed : Indexed g)
    {plans : List InputPlan} (sound : ∀ p ∈ plans, SoundInput cx p)
    {result : Except OperationError (List MethodInput)}
    (run : inputNodes cx plans g = .ok (result, g')) : Judges cx.config.role g' plans result := by
  induction plans generalizing g result with
  | nil =>
    obtain ⟨rfl, _⟩ := runPure.mp run
    exact fun _ mem => by cases mem
  | cons plan more ih =>
    obtain ⟨here, moreSound⟩ := List.forall_mem_cons.mp sound
    obtain ⟨i, m, first, others⟩ := runInputNodes.mp run
    obtain ⟨builds, node⟩ := inputNodeBuilds lawful here first
    have verdict : ∀ b, plan = .body b →
        Verdict cx.config.role m b.location (inputError cx.config.role m i) := by
      rintro b rfl
      cases node indexed with
      | body stands =>
        obtain ⟨n, held, placed⟩ := Option.map_eq_some_iff.mp stands
        exact ⟨n, List.mem_of_getElem? held, placed, (bodyErrorOf held).symm⟩
    rcases others with ⟨e, failed, rfl, rfl⟩ | ⟨accepted, rest, others, rfl⟩
    · cases node indexed with
      | parameter => contradiction
      | body => exact ⟨_, List.mem_cons_self, failed ▸ verdict _ rfl⟩
    · have later := (inputNodesBuilds lawful moreSound others).1.bodies.kept
      exact (ih (builds.grows.indexed indexed) moreSound others).cons _ fun b same =>
        (accepted ▸ verdict b same).mono later

theorem Making.judges {f : Found} {result : Except OperationError MethodId} {start after : Graph}
    (lawful : cx.doc.lawful = true) (making : Making cx g f result start after) :
    ∃ plans, InputPlans cx f plans ∧ Judges cx.config.role g plans result := by
  have indexed := making.earlier.grows.indexed emptyIndexed
  have visits : ∀ {plans : List InputPlan} {m : Graph} {r : Except OperationError _},
      inputPlans cx f.operation f.place start = .ok (plans, start) →
      inputNodes cx (Preference.sortInputs InputPlan.order plans) start = .ok (r, m) →
      m.bodies <+: g.bodies → Judges cx.config.role g plans r := by
    intro plans m r asked visited kept
    have sound := sortedSound making.at_ asked
    have judges := inputNodesJudge lawful indexed sound visited
    exact (judges.mono kept).perm (Stable.sortPerm _ plans)
  have later := making.later.bodies.kept
  cases methodNodeSource making.run with
  | failed asked _ visited => exact ⟨_, inputPlansSource asked, visits asked visited later⟩
  | made asked ranked visited settled _ added =>
    rw [added] at later
    have codes := (preferredResponsesSound making.at_ ranked).2
    have settles : Builds .inputs cx .all _ _ ∧ _ := responseNodeBuilds lawful codes trivial settled
    have judges := visits asked visited (settles.1.bodies.kept.trans later)
    exact ⟨_, inputPlansSource asked, judges⟩

end Walk

def HasBody (doc : Value) (f : Found) (l : Location) (content : Members) : Prop :=
  ∃ raw r, f.operation.get? "requestBody" = some raw ∧ Resolve.resolve doc raw = .ok r ∧
    r.value.membersAt? "content" = some content ∧ l = r.locationOr (f.place.child "requestBody")

theorem declaredBodyIff {doc : Value} {f : Found} {l : Location} :
    declaredBody doc f.operation f.place = some l ↔ ∃ content, HasBody doc f l content := by
  constructor
  · intro declared
    obtain ⟨raw, held, told⟩ := Option.bind_eq_some_iff.mp declared
    cases resolved : Resolve.resolve doc raw with
    | error e => simp [resolved] at told
    | ok r =>
      simp only [resolved, Option.map_eq_some_iff] at told
      obtain ⟨content, inside, rfl⟩ := told
      exact ⟨content, raw, r, held, resolved, inside, rfl⟩
  · rintro ⟨content, raw, r, held, resolved, inside, rfl⟩
    simp [declaredBody, held, resolved, inside]

theorem HasBody.at_ {doc : Value} {f : Found} {l : Location} {content : Members}
    (at_ : Tree.get? f.place doc = some f.operation) (h : HasBody doc f l content) :
    ∃ v, Tree.get? l doc = some v ∧ contentOf v = content := by
  obtain ⟨raw, r, held, resolved, inside, rfl⟩ := h
  refine ⟨r.value, resolvedAt (readAt (Tree.childAt at_ held)) resolved, ?_⟩
  simp [contentOf, inside]

def reportOf (f : Found) (e : OperationError) : Skipped := ⟨f.id, f.place, e.message⟩

/- What becomes of an operation whose body has that content. It is reported when no accepted media type
carries a schema, which says that none is accepted only where an accepted one would carry some. -/
structure Judged (c : Config) (doc : Value) (patterns : List MediaPattern) (found : List Found)
    (g : Graph) (f : Found) (l : Location) (content : Members) : Prop where
  unaccepted : reportsAt g f.place = [reportOf f (.noAcceptableBody l)] ↔
    ∀ m v, ¬ CarriesSchema patterns content m v
  ambiguous : reportsAt g f.place = [reportOf f (.ambiguousBody l)] ↔
    c.role = .server ∧ SchemasDiffer doc g patterns l content
  built : Falls c found g f .built ↔ (∃ m v, CarriesSchema patterns content m v) ∧
    ¬ (c.role = .server ∧ SchemasDiffer doc g patterns l content)
  declared : (reportsAt g f.place = [reportOf f (.noAcceptableBody l)] ↔
    ∀ m, ¬ Accepted patterns content m) ↔
      ((∃ m, Accepted patterns content m) → ∃ m v, CarriesSchema patterns content m v)

def Ended (c : Config) (found : List Found) (g : Graph) (f : Found) : Option OperationError → Prop
  | none => Falls c found g f .built
  | some e => reportsAt g f.place = [reportOf f e]

theorem messageApart {l : Location} (same : OperationError.message (.noAcceptableBody l) =
    OperationError.message (.ambiguousBody l)) : False := by
  change "No acceptable request body media type at `" ++ l.toPointer ++ "`" =
    "Request body schemas differ by media type at `" ++ l.toPointer ++ "`" at same
  have length := congrArg String.length same
  have first : "No acceptable request body media type at `".length = 42 := by decide
  have second : "Request body schemas differ by media type at `".length = 46 := by decide
  simp only [String.length_append, first, second] at length
  omega

namespace Ended
variable {c : Config} {found : List Found} {g : Graph} {f : Found} {l : Location}
  {verdict : Option OperationError}

theorem builtIff (ended : Ended c found g f verdict) : Falls c found g f .built ↔ verdict = none := by
  cases verdict with
  | none => exact iff_of_true ended rfl
  | some e =>
    refine iff_of_false (fun built => ?_) (by simp)
    cases built with
    | built _ silent =>
      rw [Ended, silent] at ended
      contradiction

theorem reportedIff (ended : Ended c found g f verdict)
    (known : ∀ e, verdict = some e → e = .noAcceptableBody l ∨ e = .ambiguousBody l)
    {e : OperationError} (one : e = .noAcceptableBody l ∨ e = .ambiguousBody l) :
    reportsAt g f.place = [reportOf f e] ↔ verdict = some e := by
  cases verdict with
  | none =>
    cases ended with
    | built _ silent => simp [silent]
  | some e' =>
    rw [Ended] at ended
    rw [ended, Option.some.injEq]
    refine ⟨fun same => ?_, fun same => by rw [same]⟩
    have message : e'.message = e.message := by simpa [reportOf] using same
    rcases one with rfl | rfl <;> rcases known e' rfl with rfl | rfl
    · rfl
    · exact (messageApart message.symm).elim
    · exact (messageApart message).elim
    · rfl

end Ended

section Judgement
variable {cx : Setting} {found : List Found} {g : Graph} {f : Found} {l : Location}
  {content : Members}

theorem Verdict.judged {verdict : Option OperationError} (ruled : Verdict cx.config.role g l verdict)
    (ended : Ended cx.config found g f verdict) (builds : Builds .whole cx .all .empty g)
    (lawful : cx.doc.lawful = true)
    (mirrored : ∀ s ∈ g.schemas, ∃ v, Mirrors cx.doc g.schemas s v)
    (body : ∃ v, Tree.get? l cx.doc = some v ∧ contentOf v = content) :
    Judged cx.config cx.doc cx.requestPatterns found g f l content := by
  obtain ⟨b, mem, rfl, rfl⟩ := ruled
  obtain ⟨v, here, rfl⟩ := body
  obtain ⟨i, at_⟩ := List.getElem?_of_mem mem
  obtain ⟨_, ⟨v', here', files⟩, _⟩ := builds.bodies.fresh emptyIndexed i b (Nat.zero_le _) at_
  cases here.symm.trans here'
  have refused := refusalIff lawful mirrored files cx.config.role
  generalize contentOf v = content at refused ⊢
  have known : ∀ e, b.refusal cx.config.role = some e →
      e = .noAcceptableBody b.location ∨ e = .ambiguousBody b.location := fun e told =>
    ((refused e).mp told).imp And.left And.left
  have unaccepted : reportsAt g f.place = [reportOf f (.noAcceptableBody b.location)] ↔
      ∀ m x, ¬ CarriesSchema cx.requestPatterns content m x := by
    rw [ended.reportedIff known (.inl rfl), refused]
    simp
  have ambiguous : reportsAt g f.place = [reportOf f (.ambiguousBody b.location)] ↔
      cx.config.role = .server ∧
        SchemasDiffer cx.doc g cx.requestPatterns b.location content := by
    rw [ended.reportedIff known (.inr rfl), refused]
    simp
  refine ⟨unaccepted, ambiguous, ?_, ?_⟩
  · rw [ended.builtIff, Option.eq_none_iff_forall_ne_some]
    simp only [ne_eq, refused]
    constructor
    · intro built
      refine ⟨?_, fun two => built _ (.inr ⟨rfl, two⟩)⟩
      by_contra none
      push Not at none
      exact built _ (.inl ⟨rfl, none⟩)
    · rintro ⟨⟨m, x, carries⟩, one⟩ e (⟨_, none⟩ | ⟨_, two⟩)
      · exact none m x carries
      · exact one two
  · rw [unaccepted]
    constructor
    · rintro same ⟨m, accepted⟩
      by_contra none
      push Not at none
      exact same.mp none m accepted
    · intro carried
      refine ⟨fun none m accepted => ?_, fun none m x carries => none m carries.1⟩
      obtain ⟨m', x, carries⟩ := carried ⟨m, accepted⟩
      exact none m' x carries

theorem Judges.verdict {plans : List InputPlan} (planned : InputPlans cx f plans) {α : Type}
    {result : Except OperationError α} (judges : Judges cx.config.role g plans result)
    (declared : declaredBody cx.doc f.operation f.place = some l) :
    Verdict cx.config.role g l (errorOf result) := by
  have bodies : plans.filterMap planBody = [l] := by rw [planned.bodies, declared]; rfl
  cases result with
  | error e =>
    obtain ⟨b, mem, verdict⟩ := judges
    have place : b.location ∈ [l] := bodies ▸ List.mem_filterMap.mpr ⟨.body b, mem, rfl⟩
    exact List.mem_singleton.mp place ▸ verdict
  | ok a =>
    have place : l ∈ plans.filterMap planBody := by rw [bodies]; exact List.mem_singleton_self l
    obtain ⟨plan, mem, same⟩ := List.mem_filterMap.mp place
    cases plan with
    | parameter p => simp [planBody] at same
    | body b =>
      cases same
      exact judges b mem

theorem Judges.bodiless {plans : List InputPlan} (planned : InputPlans cx f plans) {α : Type}
    {result : Except OperationError α} (judges : Judges cx.config.role g plans result)
    (none : declaredBody cx.doc f.operation f.place = none) : errorOf result = .none := by
  cases result with
  | error e =>
    obtain ⟨b, mem, _⟩ := judges
    have place : b.location ∈ plans.filterMap planBody := List.mem_filterMap.mpr ⟨.body b, mem, rfl⟩
    rw [planned.bodies, none] at place
    cases place
  | ok a => rfl

theorem Walked.ends {m : Graph} (w : Walked cx found m g) (lawful : cx.doc.lawful = true)
    (operations : Declaration.operations cx.doc = .ok found)
    (apart : (found.map Found.place).Nodup) (mem : f ∈ found)
    (fell : Falls cx.config found g f .built ∨ Falls cx.config found g f .reported) :
    ∃ (result : Except OperationError MethodId) (plans : List InputPlan), InputPlans cx f plans ∧
      Judges cx.config.role g plans result ∧ Ended cx.config found g f (errorOf result) := by
  have same : ∀ {f'}, f' ∈ found → f'.place = f.place → f' = f := fun mem' placed =>
    List.inj_on_of_nodup_map apart mem' mem placed
  rcases fell with fell | fell
  · cases id fell with
    | @built _ id n a kept silent one held =>
      have inside : n ∈ methodsAt g f.place := by rw [one]; exact List.mem_singleton_self n
      obtain ⟨known, placed⟩ := List.mem_filter.mp inside
      obtain ⟨f', mem', id, start, after, making, added⟩ := w.methodMade lawful operations known
      have indexed := making.earlier.grows.indexed emptyIndexed
      obtain ⟨here, _⟩ := methodNodeLists lawful indexed making.at_ making.run added
      cases same mem' (here.symm.trans (of_decide_eq_true placed))
      obtain ⟨plans, planned, judges⟩ := making.judges lawful
      exact ⟨_, plans, planned, judges, fell⟩
  · cases fell with
    | @reported _ s kept bare one =>
      have inside : s ∈ reportsAt g f.place := by rw [one]; exact List.mem_singleton_self s
      obtain ⟨known, placed⟩ := List.mem_filter.mp inside
      obtain ⟨f', mem', e, start, after, making, rfl⟩ := w.reportMade lawful operations known
      cases same mem' (of_decide_eq_true placed)
      obtain ⟨plans, planned, judges⟩ := making.judges lawful
      exact ⟨_, plans, planned, judges, one⟩

end Judgement

/- Among the operations of a prepared document that are not left out or dropped, those are reported
whose body carries no accepted schema or, for a server, two that differ; the others are built. -/
theorem bodiesJudged {fragments : List Value} {o : Pipeline.Options} {p : Pipeline.Prepared}
    {c : Config} {doc : Value} {g : Graph} (prepared : Pipeline.prepare fragments o = .ok p)
    (lawful : p.doc.lawful = true) (built : build c p.doc = (doc, .ok g)) :
    ∃ found patterns, Declaration.operations doc = .ok found ∧
      (∀ f, f ∈ found ↔ PathItems.Stands doc f) ∧ c.requestPatterns = .ok patterns ∧
      ∀ f ∈ found, ¬ Falls c found g f .omitted → ¬ Falls c found g f .dropped →
        (∀ l content, HasBody doc f l content → Judged c doc patterns found g f l content) ∧
        ((∀ l content, ¬ HasBody doc f l content) → Falls c found g f .built) := by
  have lawful' := buildLawful lawful built
  obtain ⟨⟨n, declared⟩, made⟩ := buildSource built
  have plain := PathItems.declarePlain lawful (PathItems.preparePlain prepared) declared
  have operations := PathItems.operationsPlain lawful' plain
  have apart := PathItems.operationsApart lawful'
  have stands := fun f => @PathItems.standsIff doc lawful' f
  obtain ⟨cx, set, walked⟩ := graphOfSource made
  obtain ⟨patterns, accept, compiled, _, rfl⟩ := settingSource set
  generalize (PathItems.listed doc).flatMap PathItems.operationsOf = found at operations apart stands
  have restated : List.Forall₂ Restates found found := List.forall₂_same.mpr fun f _ => .refl f
  obtain ⟨_, _, builds, _⟩ := walkBuilds lawful' walked
  obtain ⟨m, w⟩ := @walkSource ⟨doc, c, patterns, accept⟩ g found lawful' operations () walked
  obtain ⟨log, rfl, account⟩ :=
    @walkAccount ⟨doc, c, patterns, accept⟩ g lawful' _ found operations restated () walked
  have mirrored : ∀ s ∈ g.schemas, ∃ v, Mirrors doc g.schemas s v :=
    fun _ mem => builtSchemas lawful built mem
  refine ⟨_, patterns, operations, stands, compiled, fun f mem kept fresh => ?_⟩
  obtain ⟨⟨f, fate⟩, inside, rfl⟩ := List.mem_map.mp mem
  have falls := account.falls apart inside
  have fell : Falls c (log.map Prod.fst) g f .built ∨ Falls c (log.map Prod.fst) g f .reported := by
    cases fate with
    | omitted => exact absurd falls kept
    | built => exact .inl falls
    | reported => exact .inr falls
    | dropped => exact absurd falls fresh
  have ends := w.ends lawful' operations apart mem fell
  obtain ⟨result, plans, planned, judges, ended⟩ := ends
  refine ⟨fun l content body => ?_, fun none => ?_⟩
  · have ruled := judges.verdict planned (declaredBodyIff.mpr ⟨content, body⟩)
    exact ruled.judged ended builds lawful' mirrored (body.at_ (operationAt operations mem))
  · have bodiless := judges.bodiless planned (Option.eq_none_iff_forall_ne_some.mpr fun l declared => by
      obtain ⟨content, body⟩ := declaredBodyIff.mp declared
      exact none l content body)
    exact ended.builtIff.mpr bodiless

def orderDocument : Value :=
  let typed (name : String) : Value := .obj [("schema", .obj [("type", .str name)])]
  let operation (id : String) (more : Members) : Value :=
    .obj ([("tags", .arr [.str "orders"]), ("operationId", .str id), ("responses", .obj [])] ++ more)
  let body (content : Members) : Members := [("requestBody", .obj [("content", .obj content)])]
  .obj [
    ("paths", .obj [("/orders", .obj [
      ("post", operation "addOrder" (body [("application/json", typed "string"),
        ("text/plain", typed "integer")])),
      ("put", operation "setOrder" (body [("application/json", typed "string"), ("x/y", .obj [])])),
      ("patch", operation "editOrder" (body [("x/y", typed "string")])),
      ("get", operation "getOrders" [])])]),
    ("tags", .arr [.obj [("name", .str "orders")]])]

def serverConfig : Config := { Config.default with role := .server }

theorem orderBodiesJudged : ∃ g found patterns,
    Pipeline.prepare [orderDocument] bareOptions = .ok ⟨orderDocument, none⟩ ∧
    build serverConfig orderDocument = (orderDocument, .ok g) ∧
    g.methods.map Method.operationId = ["setOrder", "getOrders"] ∧
    g.skipped.map Skipped.operationId = ["addOrder", "editOrder"] ∧
    Declaration.operations orderDocument = .ok found ∧
    (∀ f, f ∈ found ↔ PathItems.Stands orderDocument f) ∧
    serverConfig.requestPatterns = .ok patterns ∧
    ∀ f ∈ found, ¬ Falls serverConfig found g f .omitted → ¬ Falls serverConfig found g f .dropped →
      (∀ l content, HasBody orderDocument f l content →
        Judged serverConfig orderDocument patterns found g f l content) ∧
      ((∀ l content, ¬ HasBody orderDocument f l content) → Falls serverConfig found g f .built) := by
  have prepared : Pipeline.prepare [orderDocument] bareOptions = .ok ⟨orderDocument, none⟩ := by rfl
  have told : Declaration.declare serverConfig orderDocument = .ok (orderDocument, 0) := by rfl
  have lawful : orderDocument.lawful = true := by decide +kernel
  obtain ⟨g, walked, methods, skipped⟩ : ∃ g, graphOf serverConfig orderDocument = .ok g ∧
      g.methods.map Method.operationId = ["setOrder", "getOrders"] ∧
      g.skipped.map Skipped.operationId = ["addOrder", "editOrder"] := by decide +kernel
  have built : build serverConfig orderDocument = (orderDocument, .ok g) := by
    simp [build, told, walked]
  obtain ⟨found, patterns, operations, stands, compiled, all⟩ :=
    bodiesJudged prepared lawful built
  exact ⟨g, found, patterns, prepared, built, methods, skipped, operations, stands, compiled, all⟩

def bareOperation : Value := .obj [
  ("tags", .arr [.str "notes"]), ("operationId", .str "addNote"),
  ("requestBody", .obj [("content", .obj [("application/json", .obj [])])]), ("responses", .obj [])]

def bareDocument : Value := .obj [
  ("paths", .obj [("/notes", .obj [("post", bareOperation)])]),
  ("tags", .arr [.obj [("name", .str "notes")]])]

def addNote : Found := ⟨"/notes", "post", ⟨["paths", "/notes"]⟩, bareOperation⟩

/- A body whose one media type is accepted and says nothing of its schema is reported as if that
were not accepted. -/
theorem bareBodyReported : ∃ g l content patterns,
    Pipeline.prepare [bareDocument] bareOptions = .ok ⟨bareDocument, none⟩ ∧
    build Config.default bareDocument = (bareDocument, .ok g) ∧
    Declaration.operations bareDocument = .ok [addNote] ∧
    ¬ Falls Config.default [addNote] g addNote .omitted ∧
    ¬ Falls Config.default [addNote] g addNote .dropped ∧
    HasBody bareDocument addNote l content ∧
    Config.default.requestPatterns = .ok patterns ∧
    ¬ (reportsAt g addNote.place = [reportOf addNote (.noAcceptableBody l)] ↔
      ∀ m, ¬ Accepted patterns content m) := by
  have told : Declaration.declare Config.default bareDocument = .ok (bareDocument, 0) := by rfl
  obtain ⟨patterns, compiled, accepted⟩ : ∃ patterns,
      Config.default.requestPatterns = .ok patterns ∧
      ∃ p ∈ patterns, p.accepts "application/json" = true := by decide +kernel
  obtain ⟨g, walked, reports⟩ : ∃ g, graphOf Config.default bareDocument = .ok g ∧
      reportsAt g addNote.place =
        [reportOf addNote (.noAcceptableBody (addNote.place.child "requestBody"))] := by
    decide +kernel
  have body : HasBody bareDocument addNote (addNote.place.child "requestBody")
      [("application/json", .obj [])] := ⟨_, _, rfl, rfl, rfl, rfl⟩
  refine ⟨g, _, _, patterns, by rfl, by simp [build, told, walked], by rfl, fun fell => ?_,
    fun fell => ?_, body, compiled, fun same => ?_⟩
  · cases fell with
    | omitted _ _ silent => simp [reports] at silent
  · cases fell with
    | dropped _ _ silent => simp [reports] at silent
  · exact same.mp reports "application/json" ⟨by simp [Entries.keys], accepted⟩

end ApiGraph.Build
