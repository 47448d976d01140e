import ApiGraph.Proofs.Replay

/-! Two walks over one document, each from its own graph. What the visits of schemas keep between
the two graphs is kept by all that leads to schemas: media types, headers and responses. -/
namespace ApiGraph.Build
open Json Resolve ApiGraph.Graph

def Together {α β : Type} (R : Graph → Graph → Prop) (x : Walk α) (y : Walk β) : Prop :=
  ∀ g h a b g' h', R g h → x g = .ok (a, g') → y h = .ok (b, h') → R g' h'

namespace Together
variable {α β γ δ : Type} {R : Graph → Graph → Prop}

theorem still {x : Walk α} {y : Walk β} (left : ∀ g a g', x g = .ok (a, g') → g' = g)
    (right : ∀ g b g', y g = .ok (b, g') → g' = g) : Together R x y := by
  intro g h a b g' h' related run run'
  rw [left _ _ _ run, right _ _ _ run']
  exact related

theorem pure (a : α) (b : β) : Together R (Pure.pure a : Walk α) (Pure.pure b : Walk β) :=
  still (fun _ _ _ run => (runPure.mp run).2) fun _ _ _ run => (runPure.mp run).2

theorem bind {x : Walk α} {y : Walk β} {f : α → Walk γ} {f' : β → Walk δ} (first : Together R x y)
    (rest : ∀ a b, Together R (f a) (f' b)) : Together R (x >>= f) (y >>= f') := by
  intro g h a b g' h' related run run'
  obtain ⟨_, _, one, more⟩ := runBind.mp run
  obtain ⟨_, _, one', more'⟩ := runBind.mp run'
  exact rest _ _ _ _ _ _ _ _ (first _ _ _ _ _ _ related one one') more more'

theorem resolve {cx : Setting} {v : Value} {f f' : Resolved → Walk α}
    (rest : ∀ r, resolve cx.doc v = .ok r → Together R (f r) (f' r)) :
    Together R (cx.resolve v >>= f) (cx.resolve v >>= f') := by
  intro g h a b g' h' related run run'
  simp only [runBind, runResolve] at run run'
  obtain ⟨r, _, ⟨resolved, rfl⟩, more⟩ := run
  obtain ⟨r', _, ⟨resolved', rfl⟩, more'⟩ := run'
  cases resolved.symm.trans resolved'
  exact rest r resolved _ _ _ _ _ _ related more more'

theorem mapM {f : α → Walk β} {f' : α → Walk γ} {xs : List α}
    (each : ∀ x ∈ xs, Together R (f x) (f' x)) : Together R (xs.mapM f) (xs.mapM f') := by
  induction xs with
  | nil =>
    rw [List.mapM_nil, List.mapM_nil]
    exact pure [] []
  | cons x xs ih =>
    rw [List.mapM_cons, List.mapM_cons]
    have rest := ih fun y mem => each y (List.mem_cons_of_mem _ mem)
    exact (each x List.mem_cons_self).bind fun _ _ => rest.bind fun _ _ => pure _ _

theorem forM {f f' : α → Walk PUnit} {xs : List α} (each : ∀ x ∈ xs, Together R (f x) (f' x)) :
    Together R (xs.forM f) (xs.forM f') := by
  induction xs with
  | nil => exact pure _ _
  | cons x xs ih =>
    have rest := ih fun y mem => each y (List.mem_cons_of_mem _ mem)
    exact (each x List.mem_cons_self).bind fun _ _ => rest

theorem foldlM {f : β → α → Walk β} {xs : List α}
    (each : ∀ x ∈ xs, ∀ b b', Together R (f b x) (f b' x)) (b b' : β) :
    Together R (xs.foldlM f b) (xs.foldlM f b') := by
  induction xs generalizing b b' with
  | nil =>
    rw [List.foldlM_nil, List.foldlM_nil]
    exact pure b b'
  | cons x xs ih =>
    rw [List.foldlM_cons, List.foldlM_cons]
    exact (each x List.mem_cons_self b b').bind
      (ih fun y mem => each y (List.mem_cons_of_mem _ mem))

end Together

def Agree {α : Type} (cx : Setting) (R : Graph → Graph → Prop)
    (visit : Value → Location → Walk α) : Prop :=
  ∀ {v l}, Tree.get? l cx.doc = some v → Together R (visit v l) (visit v l)

section Walks
variable {cx : Setting} {R : Graph → Graph → Prop} {v : Value} {l : Location}
  {header : Value → Location → Walk (Option SchemaId)}

theorem visitOptionTogether (schemas : Agree cx R (schemaAt cx))
    (at_ : Tree.get? l cx.doc = some v) (key : String) :
    Together R (visitOption (schemaAt cx) l key (v.get? key))
      (visitOption (schemaAt cx) l key (v.get? key)) := by
  cases held : v.get? key with
  | none => exact Together.pure none none
  | some x => exact (schemas (Tree.childAt at_ held)).bind fun _ _ => Together.pure _ _

theorem resolvedHeaderTogether (headers : Agree cx R header)
    (at_ : Tree.get? l cx.doc = some v) :
    Together R (do let r ← cx.resolve v; let _ ← header r.value (r.locationOr l))
      (do let r ← cx.resolve v; let _ ← header r.value (r.locationOr l)) :=
  Together.resolve fun _ resolved =>
    (headers (resolvedAt (readAt at_) resolved)).bind fun _ _ => Together.pure _ _

theorem visitEncodingsTogether (lawful : cx.doc.lawful = true) (headers : Agree cx R header)
    (at_ : Tree.get? l cx.doc = some v) :
    Together R (visitEncodings cx header v l) (visitEncodings cx header v l) := by
  unfold visitEncodings
  simp only [joinFour]
  refine Together.forM fun e mem => Together.forM fun e' mem' => ?_
  exact resolvedHeaderTogether headers
    (encodingHeadersAt lawful (encodingsAt lawful at_ mem) mem')

theorem mediaSchemaTogether (lawful : cx.doc.lawful = true) (schemas : Agree cx R (schemaAt cx))
    (headers : Agree cx R header) : Agree cx R (mediaSchema cx header) := fun at_ =>
  (visitOptionTogether schemas at_ "schema").bind fun _ _ =>
    (visitEncodingsTogether lawful headers at_).bind fun _ _ => Together.pure _ _

theorem headerSchemaTogether (lawful : cx.doc.lawful = true) (schemas : Agree cx R (schemaAt cx))
    (steps : Nat) : Agree cx R (headerSchema cx steps) := by
  induction steps with
  | zero =>
    intro v l _ g h a b g' h' _ run
    exact (runThrow.mp run).elim
  | succ steps ih =>
    intro v l at_
    unfold headerSchema
    cases held : v.membersAt? "content" with
    | none => exact visitOptionTogether schemas at_ "schema"
    | some content =>
      simp only [joinTwo]
      refine (Together.mapM fun e mem => ?_).bind fun _ _ => Together.pure _ _
      exact mediaSchemaTogether lawful schemas ih (Tree.memberAt lawful at_ held mem)

theorem mediaAtTogether (lawful : cx.doc.lawful = true) (schemas : Agree cx R (schemaAt cx)) :
    Agree cx R (mediaAt cx) :=
  mediaSchemaTogether lawful schemas (headerSchemaTogether lawful schemas cx.bound)

theorem mediaOfContentTogether (lawful : cx.doc.lawful = true)
    (schemas : Agree cx R (schemaAt cx)) (at_ : Tree.get? l cx.doc = some v) :
    Together R (mediaOfContent cx l (contentOf v)) (mediaOfContent cx l (contentOf v)) := by
  unfold mediaOfContent
  simp only [joinTwo]
  refine Together.mapM fun e mem => ?_
  exact (mediaAtTogether lawful schemas (contentAt lawful at_ mem)).bind fun _ _ =>
    Together.pure _ _

theorem visitResponseContentTogether (lawful : cx.doc.lawful = true)
    (schemas : Agree cx R (schemaAt cx)) (at_ : Tree.get? l cx.doc = some v) (code : ResponseCode)
    (acc acc' : Carried) : Together R (visitResponseContent cx code l v acc)
      (visitResponseContent cx code l v acc') := by
  unfold visitResponseContent
  cases held : v.membersAt? "content" with
  | none => exact Together.pure acc acc'
  | some content =>
    refine Together.foldlM (fun e mem b b' => ?_) _ _
    unfold visitResponseMedia
    simp only [joinTwo]
    refine (mediaAtTogether lawful schemas (Tree.memberAt lawful at_ held mem)).bind fun a a' => ?_
    have judged : ∀ (acc : Carried) (id : SchemaId) (g : Graph) (c : Carried) (g' : Graph), (do
        if code.mediaTypes.contains e.1 && isNew cx (← get) acc.schemas id then
          return { acc with schemas := acc.schemas ++ [id] }
        else return acc : Walk Carried) g = .ok (c, g') → g' = g := by
      intro acc id g c g' run
      simp only [runBind, runGet] at run
      obtain ⟨_, m, ⟨rfl, rfl⟩, run⟩ := run
      split at run <;> exact (runPure.mp run).2
    refine Together.still (fun g c g' run => ?_) fun g c g' run => ?_
    · cases a with
      | none => exact (runPure.mp run).2
      | some id => exact judged b id g c g' run
    · cases a' with
      | none => exact (runPure.mp run).2
      | some id => exact judged b' id g c g' run

theorem visitHeadersTogether (lawful : cx.doc.lawful = true) (schemas : Agree cx R (schemaAt cx))
    (at_ : Tree.get? l cx.doc = some v) : Together R (visitHeaders cx l v) (visitHeaders cx l v) := by
  unfold visitHeaders
  simp only [joinTwo]
  refine Together.forM fun e mem => ?_
  exact resolvedHeaderTogether (headerSchemaTogether lawful schemas cx.bound)
    (encodingHeadersAt lawful at_ mem)

theorem visitCodeTogether (lawful : cx.doc.lawful = true) (schemas : Agree cx R (schemaAt cx))
    (code : ResponseCode) (acc acc' : Carried) :
    Together R (visitCode cx l acc code) (visitCode cx l acc' code) := by
  cases at_ : Tree.get? (l.child code.code) cx.doc with
  | none =>
    simp only [visitCode, at_]
    exact Together.pure acc acc'
  | some raw =>
    simp only [visitCode, at_]
    refine Together.resolve fun r resolved => ?_
    have here := resolvedAt (readAt at_) resolved
    refine (visitResponseContentTogether lawful schemas here code acc acc').bind fun _ _ => ?_
    exact (visitHeadersTogether lawful schemas here).bind fun _ _ => Together.pure _ _

end Walks
end ApiGraph.Build
