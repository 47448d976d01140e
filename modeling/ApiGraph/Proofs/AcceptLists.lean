import ApiGraph.Proofs.Remaking

/-! The media types that a response is asked for in. A response is made for one operation, whose
preferred codes it keeps; the media types of these are listed in order, and the wildcard comes last if
some code accepts anything or declares the wildcard, whether or not it is listed by then. -/
namespace ApiGraph.Build
open Json Resolve ApiGraph.Graph Declaration

def declaresAny (doc : Value) (l : Location) (code : ResponseCode) : Bool :=
  match (Tree.get? (l.child code.code) doc).map (Resolve.resolve doc) with
  | some (.ok r) => Entries.has "*/*" (contentOf r.value)
  | _ => false

def takesAny (doc : Value) (r : Response) : Bool :=
  r.preferred.any (·.media == .any) || r.preferred.any (declaresAny doc r.location)

section Wildcard
variable {cx : Setting} {g g' : Graph} {l : Location} {acc acc' : Carried}

theorem Folds.hasAny {α : Type} {p : α → Bool} {f : Carried → α → Walk Carried} {xs : List α}
    (folds : Folds f acc xs g acc' g')
    (each : ∀ x {acc g acc' g'}, f acc x g = .ok (acc', g') → acc'.hasAny = (acc.hasAny || p x)) :
    acc'.hasAny = (acc.hasAny || xs.any p) := by
  induction folds with
  | nil => simp
  | cons head _ ih => rw [ih, each _ head, List.any_cons, Bool.or_assoc]

theorem visitResponseMediaAny {code : ResponseCode} {m : String} {media : Value}
    (run : visitResponseMedia cx code l acc m media g = .ok (acc', g')) :
    acc'.hasAny = acc.hasAny := by
  simp only [visitResponseMedia, runBind] at run
  obtain ⟨schema, m', _, run⟩ := run
  cases schema with
  | none => rw [(runPure.mp run).1]
  | some id =>
    simp only [runBind, runGet] at run
    obtain ⟨_, m', ⟨rfl, rfl⟩, run⟩ := run
    cases choice : code.mediaTypes.contains m && isNew cx m' acc.schemas id <;>
      simp only [choice, Bool.false_eq_true, if_true, if_false, runPure] at run <;> rw [run.1]

theorem visitResponseContentAny {code : ResponseCode} {v : Value}
    (run : visitResponseContent cx code l v acc g = .ok (acc', g')) :
    acc'.hasAny = (acc.hasAny || Entries.has "*/*" (contentOf v)) := by
  cases held : v.membersAt? "content" with
  | none =>
    simp only [visitResponseContent, held] at run
    simp [(runPure.mp run).1, contentOf, held, Entries.has]
  | some content =>
    simp only [visitResponseContent, held] at run
    have all := (runFoldlM.mp run).hasAny (p := fun _ => false) fun e _ _ _ _ one => by
      rw [visitResponseMediaAny one, Bool.or_false]
    have none : content.any (fun _ => false) = false := List.any_eq_false.mpr fun _ _ => by simp
    simpa [contentOf, held, none] using all

theorem visitCodeAny {code : ResponseCode} (run : visitCode cx l acc code g = .ok (acc', g')) :
    acc'.hasAny = (acc.hasAny || declaresAny cx.doc l code) := by
  cases at_ : Tree.get? (l.child code.code) cx.doc with
  | none =>
    simp only [visitCode, at_, runPure] at run
    simp [run.1, declaresAny, at_]
  | some raw =>
    simp only [visitCode, at_, runBind, runResolve, runPure] at run
    obtain ⟨r, _, ⟨resolved, rfl⟩, acc₁, m, content, _, _, _, rfl, rfl⟩ := run
    rw [visitResponseContentAny content]
    simp [declaresAny, at_, resolved]

end Wildcard

def Answers (cx : Setting) (l : Location) (verb : String) (operation : Value) (r : Response) : Prop :=
  r.location = l.child "responses" ∧ r.hasAny = takesAny cx.doc r ∧
    ∃ g g', preferredResponses cx verb operation g = .ok (r.preferred, g')

section Walked
variable {cx : Setting} {g g' : Graph} {l : Location}

theorem responseNodeAnswers (lawful : cx.doc.lawful = true) {preferred : List ResponseCode}
    {id : ResponseId} (run : responseNode cx l preferred g = .ok (id, g')) {r : Response}
    (mem : r ∈ g'.responses) : r ∈ g.responses ∨
      r.location = l ∧ r.preferred = preferred ∧ r.hasAny = takesAny cx.doc r := by
  obtain ⟨_, rfl⟩ | ⟨_, rfl, new, carried, m, rfl, rfl, any, visited, rfl⟩ := runResponseNode run
  · exact .inl mem
  · have folds := runFoldlM.mp visited
    have trips : Trips cx (g.addResponse new).2 m :=
      folds.keeps (R := Trips cx) .refl .trans fun code mem b a y c one =>
        (visitCodeCollects lawful code one).1
    have added := ((trips.grows lawful).edits.keepsInputs).2.2
    have after := setAddedResponse added fun r =>
      { r with schemas := carried.schemas, hasAny := carried.hasAny }
    rw [after] at mem
    refine (List.mem_append.mp mem).imp_right fun last => ?_
    cases List.mem_singleton.mp last
    refine ⟨rfl, rfl, ?_⟩
    have carries : carried.hasAny = _ := folds.hasAny fun code _ _ _ _ one => visitCodeAny one
    rw [carries, any]
    rfl

theorem methodNodeResponds (lawful : cx.doc.lawful = true) (indexed : Indexed g) {plan : MethodPlan}
    {operation : Value} (at_ : Tree.get? plan.location cx.doc = some operation)
    {result : Except OperationError MethodId}
    (run : methodNode cx plan operation g = .ok (result, g')) {r : Response}
    (mem : r ∈ g'.responses) :
    r ∈ g.responses ∨ Answers cx plan.location plan.verb operation r := by
  cases methodNodeSource run with
  | failed asked _ visited => exact .inl ((sortedInputsAnswer lawful indexed at_ asked visited).2 r mem)
  | made asked ranked visited settled _ added =>
    rw [added] at mem
    rcases responseNodeAnswers lawful settled mem with old | ⟨placed, prefers, any⟩
    · exact .inl ((sortedInputsAnswer lawful indexed at_ asked visited).2 r old)
    · exact .inr ⟨placed, any, g, g, prefers ▸ ranked⟩

theorem apiNamedAnswers (indexed : Indexed g) {name : String}
    {id : ApiId} (run : apiNamed cx name g = .ok (id, g')) :
    Indexed g' ∧ ∀ r ∈ g'.responses, r ∈ g.responses := by
  have builds : Builds .whole cx ⟨fun _ => False, fun _ => False, fun _ => False⟩ g g' :=
    (apiNamedBuilds run).1
  refine ⟨builds.grows.indexed indexed, fun r mem => ?_⟩
  exact (builds.responsesWithin indexed mem).resolve_right not_false

def Responds (cx : Setting) (found : List Found) (g g' : Graph) : Prop :=
  Indexed g → Indexed g' ∧ ∀ r ∈ g'.responses, r ∈ g.responses ∨
    ∃ f ∈ found, Answers cx f.place (Text.asciiLowercase f.verb) f.operation r

theorem Responds.refl {found : List Found} (g : Graph) : Responds cx found g g :=
  fun indexed => ⟨indexed, fun _ => .inl⟩

theorem Responds.trans {found : List Found} {m : Graph} (h : Responds cx found g m)
    (h' : Responds cx found m g') : Responds cx found g g' := by
  intro indexed
  obtain ⟨indexed₁, first⟩ := h indexed
  obtain ⟨indexed₂, second⟩ := h' indexed₁
  exact ⟨indexed₂, fun r mem => (second r mem).elim (first r) .inr⟩

theorem visitOperationResponds (lawful : cx.doc.lawful = true) {found : List Found} {f : Found}
    (mem : f ∈ found) (at_ : Tree.get? f.place cx.doc = some f.operation) {u : PUnit}
    (run : visitOperation cx f g = .ok (u, g')) : Responds cx found g g' := by
  intro indexed
  refine ⟨(visitOperationBuilds lawful at_ run).1.grows.indexed indexed, fun r new => ?_⟩
  cases visitOperationSource run with
  | omitted _ same => exact .inl (same ▸ new)
  | dropped _ grouped _ => exact .inl ((apiNamedAnswers indexed grouped).2 r new)
  | @made _ m result m' _ grouped _ node listed =>
    have same : g'.responses = m'.responses := by
      subst listed
      cases result <;> rfl
    obtain ⟨indexed', still⟩ := apiNamedAnswers indexed grouped
    refine (methodNodeResponds lawful indexed' at_ node (same ▸ new)).imp (still r) ?_
    exact fun answers => ⟨f, mem, answers⟩

theorem walkResponds (lawful : cx.doc.lawful = true) {found : List Found}
    (operations : Declaration.operations cx.doc = .ok found) {u : PUnit}
    (run : walk cx .empty = .ok (u, g)) {r : Response} (mem : r ∈ g.responses) :
    ∃ f ∈ found, Answers cx f.place (Text.asciiLowercase f.verb) f.operation r := by
  obtain ⟨m, _, visits, models⟩ := (walkParts operations).mp run
  have same := ((modelsTravel cx _ _ _ models).grows lawful).edits.keepsInputs.2.2
  have responds : Responds cx found .empty m :=
    visits.keeps (R := Responds cx found) .refl .trans fun f mem _ _ _ one =>
      visitOperationResponds lawful mem (operationAt operations mem) one
  exact ((responds emptyIndexed).2 r (same ▸ mem)).resolve_left (by simp [Graph.empty])

end Walked

structure RankedResponse (doc : Value) (accept : List MediaPattern) (f : Found) (r : Response) :
    Prop where
  placed : r.location = f.place.child "responses"
  codes : r.preferred.map (·.code) = Preference.responseCodes (Text.asciiLowercase f.verb)
    (Entries.keys (responsesOf f.operation))
  media : ∀ code ∈ r.preferred, ∃ raw res, Tree.get? (r.location.child code.code) doc = some raw ∧
    Resolve.resolve doc raw = .ok res ∧ code.mediaTypes = typedMedia accept (contentOf res.value) ∧
    (code.media = .any ↔ code.mediaTypes = [] ∧
      (Preference.mediaTypes accept (Entries.keys (contentOf res.value)) ≠ [] ∨
        Entries.has "*/*" (contentOf res.value) = true))

def typedMediaTypes (r : Response) : List String :=
  Entries.distinct (r.preferred.flatMap ResponseCode.mediaTypes)

/- What a response accepts. The list is as it should be, the wildcard last and only once, exactly if the
wildcard is not both wanted and among the typed media types. -/
structure AcceptList (doc : Value) (r : Response) (includeAny : Bool) : Prop where
  once : (typedMediaTypes r).Nodup
  members : ∀ m, m ∈ typedMediaTypes r ↔ ∃ code ∈ r.preferred, m ∈ code.mediaTypes
  ordered : (typedMediaTypes r).Pairwise fun a b =>
    (r.preferred.flatMap ResponseCode.mediaTypes).idxOf a <
      (r.preferred.flatMap ResponseCode.mediaTypes).idxOf b
  listed : r.accept includeAny =
    typedMediaTypes r ++ if includeAny && takesAny doc r then ["*/*"] else []
  asWanted : (r.accept includeAny = typedMediaTypes r ++
    if includeAny && takesAny doc r && !(typedMediaTypes r).contains "*/*" then ["*/*"] else []) ↔
      ¬ (includeAny = true ∧ "*/*" ∈ typedMediaTypes r)
  repeats : (r.accept includeAny).Nodup ↔ ¬ (includeAny = true ∧ "*/*" ∈ typedMediaTypes r)

theorem answersRanked {cx : Setting} {f : Found}
    (at_ : Tree.get? f.place cx.doc = some f.operation) {r : Response}
    (answers : Answers cx f.place (Text.asciiLowercase f.verb) f.operation r) :
    RankedResponse cx.doc cx.acceptPatterns f r := by
  obtain ⟨placed, any, g, g', ranked⟩ := answers
  have sound := (preferredResponsesSound at_ ranked).2
  refine ⟨placed, ?_, fun code mem => ?_⟩
  · rw [preferredResponsesCodes ranked, List.filter_eq_self]
    intro code mem
    rw [Entries.hasIff]
    exact (((Preference.responseCodesKeyed _ _).members code).mp mem).1
  · obtain ⟨raw, res, held, resolved, media⟩ := sound code mem
    obtain ⟨types, any⟩ := mediaTold media
    exact ⟨raw, res, placed ▸ held, resolved, types, any⟩

theorem typedDeclared {doc : Value} {accept : List MediaPattern} {f : Found} {r : Response}
    (ranked : RankedResponse doc accept f r) (mem : "*/*" ∈ typedMediaTypes r) :
    takesAny doc r = true := by
  obtain ⟨code, inside, typed⟩ := List.mem_flatMap.mp (Preference.memDistinct.mp mem)
  obtain ⟨raw, res, held, resolved, types, _⟩ := ranked.media code inside
  rw [types, typedMedia] at typed
  have declared := (Preference.memMediaTypes.mp (List.mem_of_mem_filter typed)).1
  have any : declaresAny doc r.location code = true := by
    simpa [declaresAny, held, resolved, Entries.hasIff] using declared
  rw [takesAny, List.any_eq_true.mpr ⟨code, inside, any⟩, Bool.or_true]

theorem acceptListed {doc : Value} {accept : List MediaPattern} {f : Found} {r : Response}
    (ranked : RankedResponse doc accept f r) (any : r.hasAny = takesAny doc r) (includeAny : Bool) :
    AcceptList doc r includeAny := by
  have once : (typedMediaTypes r).Nodup := Preference.distinctOnce _
  have members : ∀ m, m ∈ typedMediaTypes r ↔ ∃ code ∈ r.preferred, m ∈ code.mediaTypes := fun m => by
    rw [typedMediaTypes, Preference.memDistinct, List.mem_flatMap]
  have listed : r.accept includeAny =
      typedMediaTypes r ++ if includeAny && takesAny doc r then ["*/*"] else [] := by
    rw [Response.accept, acceptList, any, takesAny]
    cases includeAny <;> cases r.preferred.any (·.media == .any) <;>
      cases r.preferred.any (declaresAny doc r.location) <;> simp [typedMediaTypes]
  -- a wildcard that is typed is declared, so that it is always taken for the end of the list too
  by_cases twice : includeAny = true ∧ "*/*" ∈ typedMediaTypes r
  · obtain ⟨rfl, typed⟩ := twice
    have takes := typedDeclared ranked typed
    refine ⟨once, members, Preference.distinctOrdered _, listed, ?_, ?_⟩
    · simp [listed, takes, typed]
    · simp [listed, takes, typed, List.nodup_append]
  · refine ⟨once, members, Preference.distinctOrdered _, listed, iff_of_true ?_ twice, ?_⟩
    · rw [listed]
      cases includeAny with
      | false => rfl
      | true =>
        have new : (typedMediaTypes r).contains "*/*" = false := by simpa using twice
        rw [new, Bool.not_false, Bool.and_true]
    · refine iff_of_true ?_ twice
      rw [listed]
      split
      · rename_i wanted
        have wild : "*/*" ∉ typedMediaTypes r := fun typed =>
          twice ⟨(Bool.and_eq_true _ _ ▸ wanted).1, typed⟩
        refine List.nodup_append.mpr ⟨once, List.nodup_singleton _, ?_⟩
        rintro m mem _ last rfl
        exact wild (List.mem_singleton.mp last ▸ mem)
      · simpa using once

/- Accepted media types are listed in order of preference and the wildcard after them, if it is wanted.
It is listed again where it is among them. -/
theorem responsesAccept {c : Config} {doc doc' : Value} {g : Graph} (lawful : doc.lawful = true)
    (built : build c doc = (doc', .ok g)) :
    ∃ found accept, Declaration.operations doc' = .ok found ∧ c.acceptPatterns = .ok accept ∧
      ∀ r ∈ g.responses, (∃ f ∈ found, RankedResponse doc' accept f r) ∧
        ∀ includeAny, AcceptList doc' r includeAny := by
  have lawful' := buildLawful lawful built
  obtain ⟨cx, made, run⟩ := graphOfSource (buildSource built).2
  obtain ⟨request, accept, _, compiled, rfl⟩ := settingSource made
  obtain ⟨found, operations, _⟩ := walkBuilds lawful' run
  refine ⟨found, accept, operations, compiled, fun r mem => ?_⟩
  obtain ⟨f, inside, answers⟩ := walkResponds lawful' operations run mem
  have ranked := answersRanked (operationAt operations inside) answers
  exact ⟨⟨f, inside, ranked⟩, acceptListed ranked answers.2.1⟩

def reportDocument : Value :=
  let media : Value := .obj [("schema", .obj [("type", .str "string")])]
  .obj [
    ("tags", .arr [.obj [("name", .str "reports")]]),
    ("paths", .obj [("/report", .obj [("get", .obj [
      ("tags", .arr [.str "reports"]), ("operationId", .str "readReport"),
      ("responses", .obj [
        ("206", .obj [("content", .obj [("text/plain", media)])]),
        ("200", .obj [("content", .obj [("*/*", media), ("application/json", media)])])])])])])]

theorem reportAccepts : ∃ g, build Config.default reportDocument = (reportDocument, .ok g) ∧
    g.responses.map (fun r => (r.accept true, r.accept false)) =
      [(["application/json", "text/plain", "*/*"], ["application/json", "text/plain"])] ∧
    ∀ r ∈ g.responses, ∀ includeAny, AcceptList reportDocument r includeAny := by
  have told : Declaration.declare Config.default reportDocument = .ok (reportDocument, 0) := by rfl
  have lists : (graphOf Config.default reportDocument).toOption.map
      (fun g => g.responses.map fun r => (r.accept true, r.accept false)) =
      some [(["application/json", "text/plain", "*/*"], ["application/json", "text/plain"])] := by
    decide +kernel
  obtain ⟨g, built, same⟩ := builtOfStated told lists
  obtain ⟨_, _, _, _, accept⟩ := responsesAccept (by decide +kernel) built
  exact ⟨g, built, same, fun r mem => (accept r mem).2⟩

def everyMediaType : Config := { Config.default with acceptMediaTypes := ["application/json", "*/*"] }

/- The wildcard is listed twice when it is one of the typed media types. -/
theorem wildcardRepeats : ∃ g, build everyMediaType reportDocument = (reportDocument, .ok g) ∧
    g.responses.map (fun r => (r.accept true, r.accept false)) =
      [(["application/json", "*/*", "*/*"], ["application/json", "*/*"])] := by
  have told : Declaration.declare everyMediaType reportDocument = .ok (reportDocument, 0) := by rfl
  have lists : (graphOf everyMediaType reportDocument).toOption.map
      (fun g => g.responses.map fun r => (r.accept true, r.accept false)) =
      some [(["application/json", "*/*", "*/*"], ["application/json", "*/*"])] := by
    decide +kernel
  exact builtOfStated told lists

end ApiGraph.Build
