import ApiGraph.Proofs.Endings
import ApiGraph.Proofs.OperationWalk

/-! Walks that can be done again. What a walk through a parameter, a body or a response asks for has
a node once it has succeeded, so with these nodes as a witness it succeeds from every graph. -/
namespace ApiGraph.Build
open Json Resolve ApiGraph.Graph

def Succeeds {α : Type} (Q : Graph → Prop) (x : Walk α) : Prop :=
  ∀ g, Q g → ∃ a g', x g = .ok (a, g') ∧ Q g'

namespace Succeeds
variable {α β : Type} {Q : Graph → Prop}

theorem pure (a : α) : Succeeds Q (Pure.pure a : Walk α) := fun g holds => ⟨a, g, rfl, holds⟩

theorem bind {x : Walk α} {f : α → Walk β} (first : Succeeds Q x) (rest : ∀ a, Succeeds Q (f a)) :
    Succeeds Q (x >>= f) := by
  intro g holds
  obtain ⟨a, m, run, holds⟩ := first g holds
  obtain ⟨b, g', run', holds⟩ := rest a m holds
  exact ⟨b, g', runBind.mpr ⟨a, m, run, run'⟩, holds⟩

theorem get {f : Graph → Walk α} (rest : ∀ g, Succeeds Q (f g)) :
    Succeeds Q (MonadState.get >>= f) := by
  intro g holds
  obtain ⟨a, g', run, holds⟩ := rest g g holds
  exact ⟨a, g', runBind.mpr ⟨g, g, rfl, run⟩, holds⟩

theorem put {f : Graph → Graph} {rest : Graph → Walk α} (keeps : ∀ g, Q g → Q (f g))
    (after : ∀ g, Succeeds Q (rest g)) :
    Succeeds Q (MonadState.get >>= fun g => set (f g) >>= fun _ => rest g) := by
  intro g holds
  obtain ⟨a, g', run, holds'⟩ := after g (f g) (keeps g holds)
  exact ⟨a, g', runBind.mpr ⟨g, g, rfl, runBind.mpr ⟨⟨⟩, f g, rfl, run⟩⟩, holds'⟩

theorem modify {f : Graph → Graph} (keeps : ∀ g, Q g → Q (f g)) :
    Succeeds Q (modify f : Walk PUnit) := fun g holds => ⟨⟨⟩, f g, rfl, keeps g holds⟩

theorem asks {x : Walk α} (asks : Asks x) (once : ∃ a g, x g = .ok (a, g)) : Succeeds Q x := by
  intro g holds
  obtain ⟨a, m, run⟩ := once
  exact ⟨a, g, (asks _ _ _ run).2 g, holds⟩

theorem resolve {cx : Setting} {v : Value} {r : Resolved} (resolved : resolve cx.doc v = .ok r)
    {f : Resolved → Walk α} (rest : Succeeds Q (f r)) : Succeeds Q (cx.resolve v >>= f) := by
  intro g holds
  obtain ⟨a, g', run, holds⟩ := rest g holds
  exact ⟨a, g', runBind.mpr ⟨r, g, runResolve.mpr ⟨resolved, rfl⟩, run⟩, holds⟩

theorem mapM {f : α → Walk β} {xs : List α} (each : ∀ x ∈ xs, Succeeds Q (f x)) :
    Succeeds Q (xs.mapM f) := by
  induction xs with
  | nil =>
    rw [List.mapM_nil]
    exact Succeeds.pure []
  | cons x xs ih =>
    rw [List.mapM_cons]
    have rest := ih fun y mem => each y (List.mem_cons_of_mem _ mem)
    exact (each x List.mem_cons_self).bind fun y => rest.bind fun ys => Succeeds.pure (y :: ys)

theorem forM {f : α → Walk PUnit} {xs : List α} (each : ∀ x ∈ xs, Succeeds Q (f x)) :
    Succeeds Q (xs.forM f) := by
  induction xs with
  | nil =>
    unfold List.forM
    exact Succeeds.pure PUnit.unit
  | cons x xs ih =>
    unfold List.forM
    have rest := ih fun y mem => each y (List.mem_cons_of_mem _ mem)
    exact (each x List.mem_cons_self).bind fun _ => rest

theorem foldlM {f : β → α → Walk β} {xs : List α} (each : ∀ x ∈ xs, ∀ b, Succeeds Q (f b x))
    (b : β) : Succeeds Q (xs.foldlM f b) := by
  induction xs generalizing b with
  | nil =>
    rw [List.foldlM_nil]
    exact Succeeds.pure b
  | cons x xs ih =>
    rw [List.foldlM_cons]
    have rest := ih fun y mem => each y (List.mem_cons_of_mem _ mem)
    exact (each x List.mem_cons_self b).bind rest

end Succeeds

namespace Ran
variable {cx : Setting} {nodes : List Schema} {α β : Type}

theorem bind (lawful : cx.doc.lawful = true) {x : Walk α} {f : α → Walk β}
    (first : Travels cx x) (rest : ∀ a, Travels cx (f a)) (ran : Ran (x >>= f) nodes) :
    Ran x nodes ∧ ∃ a, Ran (f a) nodes := by
  obtain ⟨g, b, g', indexed, run, keeps⟩ := ran
  obtain ⟨a, m, run, run'⟩ := runBind.mp run
  have grows := (first _ _ _ run).grows lawful
  have more := (rest a _ _ _ run').grows lawful
  exact ⟨⟨g, a, m, indexed, run, more.keepsPlaces.trans keeps⟩,
    a, m, b, g', grows.indexed indexed, run', keeps⟩

theorem mapM (lawful : cx.doc.lawful = true) {f : α → Walk β} {xs : List α}
    (travels : ∀ x ∈ xs, Travels cx (f x)) (ran : Ran (xs.mapM f) nodes) :
    ∀ x ∈ xs, Ran (f x) nodes := by
  obtain ⟨g, ys, g', indexed, run, keeps⟩ := ran
  have runs := runMapM.mp run
  clear run
  induction runs with
  | nil => exact fun _ mem => by cases mem
  | @cons x xs y ys g m g' head tail ih =>
    have later := fun x mem => travels x (List.mem_cons_of_mem _ mem)
    have first := (travels _ List.mem_cons_self _ _ _ head).grows lawful
    have rest := tail.keeps (R := Trips cx) .refl .trans fun x mem => later x mem _ _ _
    intro x mem
    rcases List.mem_cons.mp mem with rfl | old
    · exact ⟨g, y, m, indexed, head, (rest.grows lawful).keepsPlaces.trans keeps⟩
    · exact ih later (first.indexed indexed) keeps x old

theorem forM (lawful : cx.doc.lawful = true) {f : α → Walk PUnit} {xs : List α}
    (travels : ∀ x ∈ xs, Travels cx (f x)) (ran : Ran (xs.forM f) nodes) :
    ∀ x ∈ xs, Ran (f x) nodes := by
  obtain ⟨g, u, g', indexed, run, keeps⟩ := ran
  obtain ⟨us, runs⟩ := runForM.mp run
  exact mapM lawful travels ⟨g, us, g', indexed, runMapM.mpr runs, keeps⟩

theorem foldlM (lawful : cx.doc.lawful = true) {f : β → α → Walk β} {b : β} {xs : List α}
    (travels : ∀ x ∈ xs, ∀ b, Travels cx (f b x)) (ran : Ran (xs.foldlM f b) nodes) :
    ∀ x ∈ xs, ∃ b, Ran (f b x) nodes := by
  obtain ⟨g, b', g', indexed, run, keeps⟩ := ran
  have folds := runFoldlM.mp run
  clear run
  induction folds with
  | nil => exact fun _ mem => by cases mem
  | @cons b x xs b' b'' g m g' head tail ih =>
    have later := fun x mem => travels x (List.mem_cons_of_mem _ mem)
    have first := (travels _ List.mem_cons_self _ _ _ _ head).grows lawful
    have rest := tail.keeps (R := Trips cx) .refl .trans fun x mem _ _ _ _ => later x mem _ _ _ _
    intro x mem
    rcases List.mem_cons.mp mem with rfl | old
    · exact ⟨b, g, b', m, indexed, head, (rest.grows lawful).keepsPlaces.trans keeps⟩
    · exact ih later (first.indexed indexed) keeps x old

end Ran

/- What a walk over inputs has to keep: visiting a schema that has a node keeps it, and so does
adding other nodes where `free` lets them stand, a body only under a name that it is given there. -/
structure Keeps (cx : Setting) (nodes : List Schema) (free : Location → Prop)
    (named : Location → String → Prop) (Q : Graph → Prop) : Prop where
  schema : ∀ {v l}, Known cx.doc nodes v l → Succeeds Q (schemaAt cx v l)
  other : ∀ {g g'}, Q g → g'.schemas = g.schemas → g'.bodies = g.bodies →
    (∀ l, (free l ∧ g'.schemaAt l = none) ∨ g'.nodeAt l = g.nodeAt l) → Q g'
  body : ∀ {g b}, Q g → free b.location → named b.location b.name → Q (g.addBody b).2
  file : ∀ {g id schemas}, Q g → Q (g.setBody id fun b => { b with schemas := schemas })

section Replay
variable {cx : Setting} {nodes : List Schema} {v : Value} {l : Location} {free : Location → Prop}
  {named : Location → String → Prop} {Q : Graph → Prop}

theorem visitOptionSucceeds (lawful : cx.doc.lawful = true) (kept : Keeps cx nodes free named Q)
    (at_ : Tree.get? l cx.doc = some v) {key : String}
    (ran : Ran (visitOption (schemaAt cx) l key (v.get? key)) nodes) :
    Succeeds Q (visitOption (schemaAt cx) l key (v.get? key)) := by
  obtain ⟨g, id, g', indexed, run, keeps⟩ := ran
  cases held : v.get? key with
  | none => exact Succeeds.pure none
  | some x =>
    have here := Tree.childAt at_ held
    rw [held] at run
    obtain ⟨_, mirrors⟩ := visitOptionGrows (schemaAtVisits lawful) (fun y same => by
      cases same
      exact here) run
    have stands := (mirrors indexed).mono keeps
    cases id with
    | none => exact stands.elim
    | some id =>
      have known : Known cx.doc nodes x (l.child key) := ⟨here, id, stands⟩
      exact (kept.schema known).bind fun id => Succeeds.pure (some id)

def Repeats (cx : Setting) (nodes : List Schema) (Q : Graph → Prop)
    (header : Value → Location → Walk (Option SchemaId)) : Prop :=
  ∀ {v l}, Tree.get? l cx.doc = some v → Ran (header v l) nodes → Succeeds Q (header v l)

variable {header : Value → Location → Walk (Option SchemaId)}

theorem resolvedHeaderSucceeds (repeats : Repeats cx nodes Q header) {raw : Value} {place : Location}
    (at_ : Tree.get? place cx.doc = some raw)
    (ran : Ran (do let r ← cx.resolve raw; let _ ← header r.value (r.locationOr place)) nodes) :
    Succeeds Q (do let r ← cx.resolve raw; let _ ← header r.value (r.locationOr place)) := by
  obtain ⟨g, u, g', indexed, run, keeps⟩ := ran
  simp only [runBind, runResolve, runPure] at run
  obtain ⟨r, _, ⟨resolved, rfl⟩, id, _, visited, _, rfl⟩ := run
  have here := resolvedAt (readAt at_) resolved
  have again := repeats here ⟨_, id, _, indexed, visited, keeps⟩
  exact Succeeds.resolve resolved (again.bind fun _ => Succeeds.pure _)

theorem visitEncodingsSucceeds (lawful : cx.doc.lawful = true) (carries : Carries cx header)
    (repeats : Repeats cx nodes Q header) (at_ : Tree.get? l cx.doc = some v)
    (ran : Ran (visitEncodings cx header v l) nodes) :
    Succeeds Q (visitEncodings cx header v l) := by
  have encodings := ran.forM lawful fun e mem => encodingTravels lawful carries at_ mem
  refine Succeeds.forM fun e mem => ?_
  have inner := encodings e mem
  simp only [joinFour] at inner ⊢
  have places : ∀ e' ∈ (e.2.membersAt? "headers").getD [], Tree.get?
      ((((l.child "encoding").child e.1).child "headers").child e'.1) cx.doc = some e'.2 :=
    fun e' mem' => encodingHeadersAt lawful (encodingsAt lawful at_ mem) mem'
  have headers := inner.forM lawful fun e' mem' => resolvedHeaderTravels carries (places e' mem')
  refine Succeeds.forM fun e' mem' => ?_
  exact resolvedHeaderSucceeds repeats (places e' mem') (headers e' mem')

theorem mediaSchemaSucceeds (lawful : cx.doc.lawful = true) (kept : Keeps cx nodes free named Q)
    (carries : Carries cx header) (repeats : Repeats cx nodes Q header)
    (at_ : Tree.get? l cx.doc = some v) (ran : Ran (mediaSchema cx header v l) nodes) :
    Succeeds Q (mediaSchema cx header v l) := by
  have own := visitOptionTravels (fun x (held : v.get? "schema" = some x) => Tree.childAt at_ held)
  have encodings := visitEncodingsTravels lawful carries at_
  obtain ⟨schema, id, rest⟩ := ran.bind lawful own fun id => encodings.bind fun _ => Travels.pure id
  have done := (rest.bind lawful encodings fun _ => Travels.pure id).1
  refine (visitOptionSucceeds lawful kept at_ schema).bind fun id => ?_
  exact (visitEncodingsSucceeds lawful carries repeats at_ done).bind fun _ => Succeeds.pure id

theorem headerSchemaRepeats (lawful : cx.doc.lawful = true) (kept : Keeps cx nodes free named Q)
    (steps : Nat) : Repeats cx nodes Q (headerSchema cx steps) := by
  induction steps with
  | zero =>
    intro v l _ ran
    obtain ⟨_, _, _, _, run, _⟩ := ran
    exact (runThrow.mp run).elim
  | succ steps ih =>
    intro v l at_ ran
    have carries : Carries cx (headerSchema cx steps) := headerSchemaCarries lawful steps
    unfold headerSchema at ran ⊢
    cases held : v.membersAt? "content" with
    | none =>
      simp only [held] at ran
      exact visitOptionSucceeds lawful kept at_ ran
    | some content =>
      simp only [held, joinTwo] at ran ⊢
      have places : ∀ e ∈ content, Tree.get? ((l.child "content").child e.1) cx.doc = some e.2 :=
        fun e mem => Tree.memberAt lawful at_ held mem
      have travels := fun e mem => mediaSchemaTravels lawful carries (places e mem)
      obtain ⟨visited, _⟩ := ran.bind lawful (Travels.mapM travels) fun found => Travels.pure _
      have each := visited.mapM lawful travels
      refine (Succeeds.mapM fun e mem => ?_).bind fun found => Succeeds.pure _
      exact mediaSchemaSucceeds lawful kept carries ih (places e mem) (each e mem)

theorem headerAtRepeats (lawful : cx.doc.lawful = true) (kept : Keeps cx nodes free named Q) :
    Repeats cx nodes Q (headerAt cx) := headerSchemaRepeats lawful kept cx.bound

theorem mediaAtSucceeds (lawful : cx.doc.lawful = true) (kept : Keeps cx nodes free named Q)
    (at_ : Tree.get? l cx.doc = some v) (ran : Ran (mediaAt cx v l) nodes) :
    Succeeds Q (mediaAt cx v l) :=
  mediaSchemaSucceeds lawful kept (headerAtTravels lawful) (headerAtRepeats lawful kept)
    at_ ran

theorem visitCodeTravels (lawful : cx.doc.lawful = true) (code : ResponseCode) (acc : Carried) :
    Travels cx (visitCode cx l acc code) :=
  fun _ _ _ run => (visitCodeCollects lawful code run).1

theorem mediaOfContentSucceeds (lawful : cx.doc.lawful = true) (kept : Keeps cx nodes free named Q)
    (at_ : Tree.get? l cx.doc = some v) (ran : Ran (mediaOfContent cx l (contentOf v)) nodes) :
    Succeeds Q (mediaOfContent cx l (contentOf v)) := by
  unfold mediaOfContent at ran ⊢
  simp only [joinTwo] at ran ⊢
  have places := fun e mem => contentAt (e := e) lawful at_ mem
  have travels : ∀ e ∈ contentOf v, Travels cx (mediaAt cx e.2 ((l.child "content").child e.1)) :=
    fun e mem => mediaSchemaTravels lawful (headerAtTravels lawful) (places e mem)
  have each := ran.mapM lawful fun e mem => (travels e mem).bind fun id => Travels.pure (e.1, id)
  refine Succeeds.mapM fun e mem => ?_
  have visited := ((each e mem).bind lawful (travels e mem) fun id => Travels.pure (e.1, id)).1
  exact (mediaAtSucceeds lawful kept (places e mem) visited).bind fun id => Succeeds.pure (e.1, id)

theorem visitResponseMediaSucceeds {media : Value} {code : ResponseCode} {acc : Carried}
    {name : String} (visits : Succeeds Q (mediaAt cx media (l.join ["content", name]))) :
    Succeeds Q (visitResponseMedia cx code l acc name media) := by
  refine visits.bind fun found => ?_
  cases found with
  | none => exact Succeeds.pure acc
  | some id =>
    refine Succeeds.get fun g => ?_
    split
    · exact Succeeds.pure _
    · exact Succeeds.pure acc

theorem visitResponseContentSucceeds (lawful : cx.doc.lawful = true)
    (kept : Keeps cx nodes free named Q) (at_ : Tree.get? l cx.doc = some v) {code : ResponseCode}
    {acc : Carried} (ran : Ran (visitResponseContent cx code l v acc) nodes) (acc' : Carried) :
    Succeeds Q (visitResponseContent cx code l v acc') := by
  unfold visitResponseContent at ran ⊢
  cases held : v.membersAt? "content" with
  | none => exact Succeeds.pure acc'
  | some content =>
    simp only [held] at ran ⊢
    have places : ∀ e ∈ content, Tree.get? ((l.child "content").child e.1) cx.doc = some e.2 :=
      fun e mem => Tree.memberAt lawful at_ held mem
    have collects : ∀ e ∈ content, ∀ acc, Travels cx (visitResponseMedia cx code l acc e.1 e.2) :=
      fun e mem acc _ _ _ run => (visitResponseMediaCollects lawful code (places e mem) run).1
    have each := ran.foldlM lawful collects
    refine Succeeds.foldlM (fun e mem acc => ?_) _
    obtain ⟨_, visited⟩ := each e mem
    have own : Travels cx (mediaAt cx e.2 (l.join ["content", e.1])) := by
      rw [joinTwo]
      exact mediaSchemaTravels lawful (headerAtTravels lawful) (places e mem)
    have judged := (visited.bind lawful own fun found => ?_).1
    swap
    · cases found with
      | none => exact Travels.pure _
      | some id =>
        intro g a g' run
        simp only [runBind, runGet] at run
        obtain ⟨_, m, ⟨rfl, rfl⟩, run⟩ := run
        split at run
        · exact Travels.pure _ _ _ _ run
        · exact Travels.pure _ _ _ _ run
    rw [joinTwo] at judged
    have again := mediaAtSucceeds lawful kept (places e mem) judged
    exact visitResponseMediaSucceeds (joinTwo l "content" e.1 ▸ again)

theorem visitHeadersSucceeds (lawful : cx.doc.lawful = true) (kept : Keeps cx nodes free named Q)
    (at_ : Tree.get? l cx.doc = some v) (ran : Ran (visitHeaders cx l v) nodes) :
    Succeeds Q (visitHeaders cx l v) := by
  unfold visitHeaders at ran ⊢
  simp only [joinTwo] at ran ⊢
  have places : ∀ e ∈ (v.membersAt? "headers").getD [],
      Tree.get? ((l.child "headers").child e.1) cx.doc = some e.2 :=
    fun e mem => encodingHeadersAt lawful at_ mem
  have each := ran.forM lawful fun e mem =>
    resolvedHeaderTravels (headerAtTravels lawful) (places e mem)
  refine Succeeds.forM fun e mem => ?_
  exact resolvedHeaderSucceeds (headerAtRepeats lawful kept) (places e mem) (each e mem)

theorem visitCodeSucceeds (lawful : cx.doc.lawful = true) (kept : Keeps cx nodes free named Q)
    {code : ResponseCode} {acc : Carried} (ran : Ran (visitCode cx l acc code) nodes)
    (acc' : Carried) : Succeeds Q (visitCode cx l acc' code) := by
  obtain ⟨g, a, g', indexed, run, places⟩ := ran
  cases at_ : Tree.get? (l.child code.code) cx.doc with
  | none =>
    simp only [visitCode, at_]
    exact Succeeds.pure acc'
  | some raw =>
    simp only [visitCode, at_, runBind, runResolve, runPure] at run ⊢
    obtain ⟨r, _, ⟨resolved, rfl⟩, acc₁, m, content, _, _, headers, rfl, rfl⟩ := run
    have here := resolvedAt (readAt at_) resolved
    have trips := (visitResponseContentCollects lawful code here content).1
    have more := (visitHeadersTravels lawful here _ _ _ headers).grows lawful
    have first := visitResponseContentSucceeds lawful kept here
      ⟨_, _, _, indexed, content, more.keepsPlaces.trans places⟩ acc'
    have second := visitHeadersSucceeds lawful kept here
      ⟨_, _, _, (trips.grows lawful).indexed indexed, headers, places⟩
    exact Succeeds.resolve resolved (first.bind fun acc => second.bind fun _ => Succeeds.pure acc)

theorem mirroredSchemas {k : Scope} {sites : Sites} {g : Graph}
    (builds : Builds k cx sites .empty g) : Mirrored cx.doc g.schemas := by
  intro s mem
  obtain ⟨i, found⟩ := List.getElem?_of_mem mem
  exact builds.grows.schemas.fresh emptyIndexed i s (Nat.zero_le _) found

theorem anyKept (lawful : cx.doc.lawful = true) (mirrored : Mirrored cx.doc nodes) :
    Keeps cx nodes (fun _ => True) (fun _ _ => True) fun _ => True where
  schema known m _ := by
    obtain ⟨id, m', run, _⟩ := (schemaAtEnds (g := m) (knownPermits lawful mirrored) known).succeeds
    exact ⟨id, m', run, trivial⟩
  other _ _ _ _ := trivial
  body _ _ _ := trivial
  file _ := trivial

theorem otherNode {g g' : Graph} {n : NodeRef} (h : g'.nodes = Entries.put l n g.nodes)
    (other : ∀ id, n ≠ .schema id) (here : free l) (k : Location) :
    (free k ∧ g'.schemaAt k = none) ∨ g'.nodeAt k = g.nodeAt k := by
  by_cases same : k = l
  · have held : g'.nodeAt l = some n := by simp [nodeAt, h]
    refine .inl (same ▸ ⟨here, ?_⟩)
    simp only [Graph.schemaAt, held]
    cases n with
    | schema id => exact (other id rfl).elim
    | _ => rfl
  · exact .inr (by simp [nodeAt, h, Entries.lookupPutOther same])

theorem parameterNodeSucceeds (lawful : cx.doc.lawful = true) (kept : Keeps cx nodes free named Q)
    {g : Graph} {p : Parameter} (made : MadeParameter cx g p) (places : KeepsPlaces g.schemas nodes)
    (here : free p.location) (at_ : Tree.get? p.location cx.doc = some v) :
    Succeeds Q (parameterNode cx p.location v) := by
  obtain ⟨w, at', plain, facts, ran⟩ := made
  cases at_.symm.trans at'
  obtain ⟨start, default⟩ := facts.default
  unfold parameterNode
  refine Succeeds.get fun m => ?_
  split
  · exact Succeeds.pure _
  · simp only [facts.identity]
    refine (Succeeds.asks (parameterDefaultAsks cx v) ⟨_, start, default⟩).bind fun default => ?_
    refine Succeeds.put (fun g holds => ?_) fun g => ?_
    · exact kept.other holds rfl rfl (otherNode rfl (by simp) here)
    · refine (headerAtRepeats lawful kept at_ (ran.mono places)).bind fun schema => ?_
      refine (Succeeds.modify fun g holds => ?_).bind fun _ => Succeeds.pure _
      exact kept.other holds rfl rfl fun _ => .inr rfl

theorem bodyNodeSucceeds (lawful : cx.doc.lawful = true) (kept : Keeps cx nodes free named Q)
    {g : Graph} {b : RequestBody} (made : MadeBody cx g b) (places : KeepsPlaces g.schemas nodes)
    (here : free b.location) {name : String} (named : named b.location name)
    (at_ : Tree.get? b.location cx.doc = some v) :
    Succeeds Q (bodyNode cx b.location v name b.preferred) := by
  obtain ⟨w, at', plain, facts, ran⟩ := made
  cases at_.symm.trans at'
  obtain ⟨start, default⟩ := facts.default
  unfold bodyNode
  refine Succeeds.get fun m => ?_
  split
  · exact Succeeds.pure _
  · refine (Succeeds.asks (bodyDefaultAsks cx _ _ _) ⟨_, start, default⟩).bind fun default => ?_
    refine Succeeds.put (fun g holds => ?_) fun g => ?_
    · exact kept.body holds here named
    · refine (mediaOfContentSucceeds lawful kept at_ (ran.mono places)).bind fun byMedia => ?_
      refine (Succeeds.modify fun g holds => ?_).bind fun _ => Succeeds.pure _
      exact kept.file holds

theorem responseNodeSucceeds (lawful : cx.doc.lawful = true) (kept : Keeps cx nodes free named Q)
    {g : Graph} {r : Response} (made : MadeResponse cx g r) (places : KeepsPlaces g.schemas nodes)
    (here : free r.location) : Succeeds Q (responseNode cx r.location r.preferred) := by
  obtain ⟨acc, ran⟩ := made
  have codes := (ran.mono places).foldlM lawful fun code _ acc => visitCodeTravels lawful code acc
  unfold responseNode
  refine Succeeds.get fun m => ?_
  split
  · exact Succeeds.pure _
  · refine Succeeds.put (fun g holds => ?_) fun g => ?_
    · exact kept.other holds rfl rfl (otherNode rfl (by simp) here)
    · have again : ∀ code ∈ r.preferred, ∀ acc, Succeeds Q (visitCode cx r.location acc code) := by
        intro code mem acc
        obtain ⟨_, visited⟩ := codes code mem
        exact visitCodeSucceeds lawful kept visited acc
      refine (Succeeds.foldlM again _).bind fun carried => ?_
      refine (Succeeds.modify fun g holds => ?_).bind fun _ => Succeeds.pure _
      exact kept.other holds rfl rfl fun _ => .inr rfl

end Replay
end ApiGraph.Build
