import ApiGraph.Proofs.Trails

/-! A walk that leaves out the operations which another one reports comes to the same types, as long
as those operations have brought in no type and no schema that is referred to. -/
namespace ApiGraph.Build
open Json Resolve ApiGraph.Graph Declaration Hydrate

section Methods
variable {cx : Setting} {g m g' h n h' : Graph} {l : Location} {v : Value}

theorem Pursues.inputs (pursues : Pursues cx g h) (indexed' : Indexed h) (trails : Trails cx g' h')
    {k : Scope} {sites : Sites} (builds : Builds k cx .all g g') (builds' : Builds .inputs cx sites h h')
    (parameter : ∀ l, sites.parameter l → ∃ p ∈ g'.parameters, p.location = l)
    (body : ∀ l, sites.body l → ∃ b ∈ g'.bodies, b.location = l) : Pursues cx g' h' where
  trails := trails
  parameters p mem := by
    rcases builds'.parameters.source indexed' mem with old | ⟨new, _⟩
    · obtain ⟨p', inside, same⟩ := pursues.parameters p old
      exact ⟨p', builds.parameters.kept.subset inside, same⟩
    · exact parameter _ new
  bodies b mem := by
    rcases builds'.bodies.source indexed' mem with old | ⟨new, _⟩
    · obtain ⟨b', inside, same⟩ := pursues.bodies b old
      exact ⟨b', builds.bodies.kept.subset inside, same⟩
    · exact body _ new

theorem inputNodePursues (lawful : cx.doc.lawful = true) (kinds : OneKind g') {plan : InputPlan}
    (sound : SoundInput cx plan) (builds : Builds .whole cx .all .empty g) (indexed' : Indexed h)
    (pursues : Pursues cx g h) {i i' : MethodInput} (run : inputNode cx plan g = .ok (i, g'))
    (run' : inputNode cx plan h = .ok (i', h')) : Pursues cx g' h' := by
  obtain ⟨made, node⟩ := inputNodeBuilds lawful sound run
  obtain ⟨made', _⟩ := inputNodeBuilds lawful sound run'
  cases node (builds.grows.indexed emptyIndexed) with
  | parameter stands =>
    obtain ⟨q, held, placed⟩ := Option.map_eq_some_iff.mp stands
    simp only [inputNode, runBind, runPure] at run run'
    obtain ⟨_, _, first, _, rfl⟩ := run
    obtain ⟨_, _, first', _, rfl⟩ := run'
    have trails := parameterNodeTrails lawful kinds sound.1 builds indexed' pursues first first'
    exact pursues.inputs indexed' trails made.anywhere made'
      (fun l same => ⟨q, List.mem_of_getElem? held, placed.trans same.symm⟩) fun _ none => none.elim
  | body stands =>
    obtain ⟨q, held, placed⟩ := Option.map_eq_some_iff.mp stands
    simp only [inputNode, runBind, runPure] at run run'
    obtain ⟨_, _, first, _, rfl⟩ := run
    obtain ⟨_, _, first', _, rfl⟩ := run'
    have trails := bodyNodeTrails lawful kinds sound.1 builds indexed' pursues sound.2.2 first first'
    exact pursues.inputs indexed' trails made.anywhere made' (fun _ none => none.elim)
      fun l same => ⟨q, List.mem_of_getElem? held, placed.trans same.symm⟩

theorem inputNodesPursue (lawful : cx.doc.lawful = true) (kinds : OneKind g') {plans : List InputPlan}
    (sound : ∀ p ∈ plans, SoundInput cx p) (builds : Builds .whole cx .all .empty g)
    (indexed' : Indexed h) (pursues : Pursues cx g h) {inputs inputs' : List MethodInput}
    (run : inputNodes cx plans g = .ok (.ok inputs, g'))
    (run' : inputNodes cx plans h = .ok (.ok inputs', h')) : Pursues cx g' h' := by
  induction plans generalizing g h inputs inputs' with
  | nil =>
    obtain ⟨_, rfl⟩ := runPure.mp run
    obtain ⟨_, rfl⟩ := runPure.mp run'
    exact pursues
  | cons plan more ih =>
    obtain ⟨here, moreSound⟩ := List.forall_mem_cons.mp sound
    obtain ⟨i, m, rest, first, _, others, rfl⟩ := runAcceptedInputs.mp run
    obtain ⟨i', n, rest', first', _, others', rfl⟩ := runAcceptedInputs.mp run'
    have kinds₁ := kindsBefore (inputNodesBuilds lawful moreSound others).1.grows.edits kinds
    have made := wider builds (inputNodeBuilds lawful here first).1.anywhere
    have indexed₁ := (inputNodeBuilds lawful here first').1.grows.indexed indexed'
    have now := inputNodePursues lawful kinds₁ here builds indexed' pursues first first'
    exact ih moreSound made indexed₁ now others others'

theorem methodNodePursues (lawful : cx.doc.lawful = true) (kinds : OneKind g') {plan : MethodPlan}
    {operation : Value} (at_ : Tree.get? plan.location cx.doc = some operation)
    (builds : Builds .whole cx .all .empty g) (builds' : Builds .whole cx .all .empty h)
    (fresh : ∀ r ∈ g.responses, r.location ≠ plan.location.child "responses")
    (fresh' : ∀ r ∈ h.responses, r.location ≠ plan.location.child "responses")
    (pursues : Pursues cx g h) {id id' : MethodId}
    (run : methodNode cx plan operation g = .ok (.ok id, g'))
    (run' : methodNode cx plan operation h = .ok (.ok id', h')) : Pursues cx g' h' := by
  have indexed := builds.grows.indexed emptyIndexed
  have indexed' := builds'.grows.indexed emptyIndexed
  cases methodNodeSource run with
  | @made plans preferred inputs m response m₁ secured asked ranked visited settled _ added =>
    cases methodNodeSource run' with
    | @made plans' preferred' inputs' n response' n₁ secured' asked' ranked' visited' settled' _
        added' =>
      cases (inputPlansAsks cx operation plan.location).one asked asked'
      cases (preferredResponsesAsks cx plan.verb operation).one ranked ranked'
      subst added added'
      have sound := sortedSound at_ asked
      have codes := (preferredResponsesSound at_ ranked).2
      have first := (inputNodesBuilds lawful sound visited).1
      have first' := (inputNodesBuilds lawful sound visited').1
      have next : Builds .inputs cx .all m m₁ ∧ _ := responseNodeBuilds lawful codes trivial settled
      have next' : Builds .inputs cx ⟨fun _ => False, fun _ => False, fun _ => True⟩ n n₁ ∧ _ :=
        responseNodeBuilds lawful codes trivial settled'
      have made := addMethodMakes m₁ (plan.method inputs response secured)
      have made' := addMethodMakes n₁ (plan.method inputs' response' secured')
      have last : Edit .whole m₁ (m₁.addMethod (plan.method inputs response secured)).2 := .method _
      have kinds₂ := kindsBefore (.single last) kinds
      have kinds₁ := kindsBefore next.1.grows.edits kinds₂
      have indexed₁ := first.grows.indexed indexed
      have indexed₁' := first'.grows.indexed indexed'
      have pursues₁ := inputNodesPursue lawful kinds₁ sound builds indexed' pursues visited visited'
      have unanswered := inputNodesAnswer lawful sound indexed visited
      have unanswered' := inputNodesAnswer lawful sound indexed' visited'
      have trails₂ := responseNodeTrails lawful kinds₂ indexed₁ indexed₁' pursues₁.trails
        (fun r mem => fresh r (unanswered r mem)) (fun r mem => fresh' r (unanswered' r mem)) settled
        settled'
      have pursues₂ := pursues₁.inputs indexed₁' trails₂ next.1 next'.1 (fun _ none => none.elim)
        fun _ none => none.elim
      have trails₃ : Trails cx (m₁.addMethod (plan.method inputs response secured)).2
          (n₁.addMethod (plan.method inputs' response' secured')).2 :=
        trails₂.node (made.indexed (next.1.grows.indexed indexed₁)) kinds made.here (by simp) (by simp)
          rfl rfl made'.index
      exact ⟨trails₃, pursues₂.parameters, pursues₂.bodies⟩

end Methods

section Operations
variable {cx : Setting} {log : Log} {names : List String} {g m g' h h' G : Graph} {f : Found}
  {fate : Fate} {name : String}

theorem apiNamedPlace (records : Records cx log names g) {id : ApiId}
    (run : apiNamed cx name g = .ok (id, g')) :
    ∃ i l, Tagged cx name l ∧ g'.location? (.api i) = some l := by
  obtain ⟨records', a, held, rfl⟩ := records.named run
  exact ⟨id, a.location, records'.tagged a (List.mem_of_getElem? held), by simp [location?, held]⟩

theorem apiNamedPursues (kinds : OneKind g')
    (records : Records cx log names g) (pursues : Pursues cx g h) {id id' : ApiId}
    (run : apiNamed cx name g = .ok (id, g')) (run' : apiNamed cx name h = .ok (id', h')) :
    Pursues cx g' h' := by
  have kept : g'.schemas = g.schemas ∧ g'.parameters = g.parameters ∧ g'.bodies = g.bodies := by
    cases apiNamedSource run with
    | known _ same | held _ _ _ same => exact same ▸ ⟨rfl, rfl, rfl⟩
    | made _ _ _ added => exact added ▸ ⟨rfl, rfl, rfl⟩
  obtain ⟨schemas, parameters, bodies⟩ := kept
  obtain ⟨i, l, tag, stands⟩ := apiNamedPlace records run
  have grown : Builds .whole cx .all g g' ∧ _ := apiNamedBuilds run
  have indexed := (records.builds.trans grown.1).grows.indexed emptyIndexed
  have trails : Trails cx g' h' ∧ h'.parameters = h.parameters ∧ h'.bodies = h.bodies := by
    cases apiNamedSource run' with
    | known _ same | held _ _ _ same =>
      subst same
      exact ⟨pursues.trails.other (kindTracks indexed kinds) schemas rfl fun _ => .inr rfl, rfl, rfl⟩
    | @made l' _ tag' _ added =>
      subst added
      cases tag.one tag'
      exact ⟨pursues.trails.node indexed kinds stands (by simp) (by simp) schemas rfl
        (addApiMakes h ⟨l, name, []⟩).index, rfl, rfl⟩
  obtain ⟨trails, parameters', bodies'⟩ := trails
  exact ⟨trails, by rw [parameters, parameters']; exact pursues.parameters,
    by rw [bodies, bodies']; exact pursues.bodies⟩

theorem Pursues.ahead (kinds : OneKind g') (builds : Builds .whole cx .all .empty g)
    (more : Builds .whole cx .all g g') (pursues : Pursues cx g h)
    (bare : ∀ e ∈ g'.skeleton.drop g.skeleton.length, e.2 = false ∧ ¬ Referred cx e.1) :
    Pursues cx g' h := by
  have last := builds.trans more
  obtain ⟨new, split⟩ := more.grows.edits.extends
  rw [← split, List.drop_left] at bare
  have types : g'.typePlaces = g.typePlaces := by
    have none : typesOf new = [] := by
      rw [typesOf, List.filter_eq_nil_iff.mpr fun e mem => by simp [(bare e mem).1]]
      rfl
    rw [typePlaces, ← split, typesOfAppend, none, List.append_nil, ← typePlaces]
  have wider : ∀ l ∈ schemaPlaces g, l ∈ schemaPlaces g' := by
    intro l mem
    rw [schemaPlaces, ← split, List.map_append]
    exact List.mem_append_left _ mem
  refine ⟨⟨kindTracks (last.grows.indexed emptyIndexed) kinds, pursues.trails.tracks',
    pursues.trails.types.trans types.symm, fun l mem => wider l (pursues.trails.less l mem),
    fun l mem gone => ⟨?_, closedMirrored (mirroredSchemas last) mem⟩⟩, fun p mem => ?_,
    fun b mem => ?_⟩
  · by_cases old : l ∈ schemaPlaces g
    · exact (pursues.trails.missing l old gone).1
    · rw [schemaPlaces, ← split, List.map_append] at mem
      obtain ⟨e, inside, rfl⟩ := List.mem_map.mp ((List.mem_append.mp mem).resolve_left old)
      exact (bare e inside).2
  · obtain ⟨p', inside, same⟩ := pursues.parameters p mem
    exact ⟨p', more.parameters.kept.subset inside, same⟩
  · obtain ⟨b', inside, same⟩ := pursues.bodies b mem
    exact ⟨b', more.bodies.kept.subset inside, same⟩

theorem Pursues.stride (lawful : cx.doc.lawful = true) (kinds : OneKind g')
    (left : Records cx log names g) {log' : Log} {names' : List String}
    (right : Records cx log' names' h) (at_ : Tree.get? f.place cx.doc = some f.operation)
    (fresh : ∀ e ∈ log, e.1.place ≠ f.place) (fresh' : ∀ e ∈ log', e.1.place ≠ f.place)
    (pursues : Pursues cx g h) (stride : Stride cx f g h fate g' h')
    (bare : fate = .reported →
      ∀ e ∈ g'.skeleton.drop g.skeleton.length, e.2 = false ∧ ¬ Referred cx e.1) :
    Pursues cx g' h' := by
  have unanswered : ∀ {log : Log} {names : List String} {m : Graph}, Records cx log names m →
      (∀ e ∈ log, e.1.place ≠ f.place) →
      ∀ r ∈ m.responses, r.location ≠ f.place.child "responses" := by
    intro log names m records fresh r mem same
    obtain ⟨e, inside, placed⟩ := records.answered r mem
    exact fresh e inside (childApart (placed.symm.trans same))
  cases stride with
  | omitted => exact pursues
  | dropped _ grouped grouped' => exact apiNamedPursues kinds left pursues grouped grouped'
  | @built api api' m n id id' g₁ h₁ _ grouped grouped' _ _ node node' =>
    have enlists : Edit .whole g₁ (g₁.enlist api id) := .enlist api id
    have kinds₁ := kindsBefore (.single enlists) kinds
    have builds : Builds .whole cx .all m g₁ ∧ _ := methodNodeBuilds lawful at_ node
    have kinds₂ := kindsBefore builds.1.grows.edits kinds₁
    have left' := (left.named grouped).1
    have right' := (right.named grouped').1
    have named := apiNamedPursues kinds₂ left pursues grouped grouped'
    have made := methodNodePursues lawful kinds₁ at_ left'.builds right'.builds
      (unanswered left' fresh) (unanswered right' fresh') named node node'
    exact ⟨made.trails.other made.trails.tracks rfl rfl fun _ => .inr rfl, made.parameters,
      made.bodies⟩
  | @reported api m e g₁ _ grouped _ node =>
    have groups : Builds .whole cx .all g m ∧ _ := apiNamedBuilds grouped
    have builds : Builds .whole cx .all m g₁ ∧ _ := methodNodeBuilds lawful at_ node
    have added : Builds .whole cx .all g₁ (g₁.addSkipped (reportOf f e)) :=
      .edit (.skip _) rfl rfl rfl rfl rfl
    exact pursues.ahead kinds left.builds ((groups.1.trans builds.1).trans added) (bare rfl)

end Operations

def leftovers (cx : Setting) : List Found → Graph → List (Location × Bool)
  | [], _ => []
  | f :: more, g => match visitOperation cx f g with
    | .error _ => []
    | .ok (_, g') =>
      (if g'.skipped.length = g.skipped.length then [] else g'.skeleton.drop g.skeleton.length) ++
        leftovers cx more g'

def Traceless (cx : Setting) (found : List Found) : Prop :=
  ∀ e ∈ leftovers cx found .empty, e.2 = false ∧ ¬ Referred cx e.1

section Whole
variable {cx : Setting} {log : Log} {g g' h h' : Graph} {f : Found} {fate : Fate}

theorem leftoversAppend {found more : List Found} {us : List PUnit}
    (runs : Runs (visitOperation cx) found g us g') :
    leftovers cx (found ++ more) g = leftovers cx found g ++ leftovers cx more g' := by
  induction runs with
  | nil => rfl
  | cons head _ ih => simp [leftovers, head, ih]

theorem Stride.first (stride : Stride cx f g h fate g' h') :
    visitOperation cx f g = .ok (⟨⟩, g') := by
  cases stride with
  | omitted out => exact visitOperationOf (.omitted out rfl)
  | dropped kept grouped _ taken => exact visitOperationOf (.dropped kept grouped taken)
  | built kept grouped _ free _ node => exact visitOperationOf (.made kept grouped free node rfl)
  | reported kept grouped free node => exact visitOperationOf (.made kept grouped free node rfl)

theorem Spares.first (spares : Spares cx log g h) :
    ∃ us, Runs (visitOperation cx) (log.map Prod.fst) .empty us g := by
  induction spares with
  | start => exact ⟨[], .nil _⟩
  | next _ _ stride ih =>
    obtain ⟨us, runs⟩ := ih
    exact ⟨us ++ [⟨⟩], by simpa using runs.snoc stride.first⟩

theorem Stride.leaves (lawful : cx.doc.lawful = true)
    (at_ : Tree.get? f.place cx.doc = some f.operation)
    (stride : Stride cx f g h .reported g' h') :
    leftovers cx [f] g = g'.skeleton.drop g.skeleton.length := by
  have run := stride.first
  cases stride with
  | reported _ grouped _ node =>
    have before := (apiNamedKeeps grouped).2
    obtain ⟨_, skipped, _⟩ := methodNodeRecords lawful at_ node
    simp [leftovers, run, addSkipped, skipped, before]

/- A walk that leaves out what is reported comes to the same types. -/
theorem Spares.pursues (lawful : cx.doc.lawful = true) (kinds : OneKind g)
    (apart : ((log.map Prod.fst).map Found.place).Nodup) (traceless : Traceless cx (log.map Prod.fst))
    (spares : Spares cx log g h) : Pursues cx g h := by
  induction spares with
  | start =>
    have tracks := kindTracks emptyIndexed kinds
    exact ⟨⟨tracks, tracks, rfl, fun _ mem => mem, fun _ mem gone => (gone mem).elim⟩,
      fun _ mem => (List.not_mem_nil mem).elim, fun _ mem => (List.not_mem_nil mem).elim⟩
  | @next log g h f fate g' h' before at_ stride ih =>
    have left := before.left lawful
    have right := before.right lawful
    obtain ⟨us, runs⟩ := before.first
    have builds := (visitOperationBuilds lawful at_ stride.first).1
    rw [List.map_append, List.map_append, List.nodup_append] at apart
    obtain ⟨apart, _, disjoint⟩ := apart
    rw [Traceless, List.map_append, List.map_singleton, leftoversAppend runs] at traceless
    have fresh : ∀ e ∈ log, e.1.place ≠ f.place := fun e mem =>
      disjoint _ (List.mem_map_of_mem (List.mem_map_of_mem mem)) _ (by simp)
    refine (ih (kindsBefore builds.grows.edits kinds) apart fun e mem =>
      traceless e (List.mem_append_left _ mem)).stride lawful kinds left right at_ fresh
      (fun e mem => fresh e (List.mem_filter.mp mem).1) stride ?_
    rintro rfl e mem
    rw [← stride.leaves lawful at_] at mem
    exact traceless e (List.mem_append_right _ mem)

end Whole
end ApiGraph.Build
