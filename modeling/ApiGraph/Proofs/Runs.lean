import ApiGraph.Graph.Hydrate
import Mathlib.Data.List.Forall2

/-! Walks that come to an end, taken apart: what the run of a composed walk says of the runs of its
parts, from which graph each part starts and with which graph it ends. -/
namespace ApiGraph.Build
open Json
variable {α β : Type} {g g' : Graph}

theorem runBind {x : Walk α} {f : α → Walk β} {b : β} :
    (x >>= f) g = .ok (b, g') ↔ ∃ a m, x g = .ok (a, m) ∧ f a m = .ok (b, g') := by
  constructor
  · intro h
    cases hx : x g with
    | error e => simp [bind, StateT.bind, hx, Except.bind] at h
    | ok p => exact ⟨p.1, p.2, rfl, by simpa [bind, StateT.bind, hx, Except.bind] using h⟩
  · rintro ⟨a, m, hx, hf⟩
    simp [bind, StateT.bind, hx, Except.bind, hf]

theorem runPure {a b : α} : (pure a : Walk α) g = .ok (b, g') ↔ b = a ∧ g' = g := by
  constructor
  · intro h; cases h; exact ⟨rfl, rfl⟩
  · rintro ⟨rfl, rfl⟩; rfl

theorem runGet {m : Graph} : (get : Walk Graph) g = .ok (m, g') ↔ m = g ∧ g' = g := by
  constructor
  · intro h; cases h; exact ⟨rfl, rfl⟩
  · rintro ⟨rfl, rfl⟩; rfl

theorem runSet {m : Graph} {u : PUnit} : (set m : Walk PUnit) g = .ok (u, g') ↔ g' = m := by
  constructor
  · intro h; cases h; rfl
  · rintro rfl; rfl

theorem runModify {f : Graph → Graph} {u : PUnit} :
    (modify f : Walk PUnit) g = .ok (u, g') ↔ g' = f g := by
  constructor
  · intro h; cases h; rfl
  · rintro rfl; rfl

theorem runThrow {e : Failure} {a : α} : (throw e : Walk α) g = .ok (a, g') ↔ False := by
  constructor
  · intro h; cases h
  · exact False.elim

theorem runLift {x : Except Failure α} {a : α} :
    (liftM x : Walk α) g = .ok (a, g') ↔ x = .ok a ∧ g' = g := by
  cases x with
  | error e =>
    constructor
    · intro h; cases h
    · rintro ⟨h, _⟩; cases h
  | ok b =>
    constructor
    · intro h; cases h; exact ⟨rfl, rfl⟩
    · rintro ⟨h, rfl⟩; cases h; rfl

theorem mapErrorOk {ε ε' : Type} {x : Except ε α} {f : ε → ε'} {a : α} :
    x.mapError f = .ok a ↔ x = .ok a := by
  cases x <;> simp [Except.mapError]

theorem runResolve {cx : Setting} {v : Value} {r : Resolve.Resolved} :
    cx.resolve v g = .ok (r, g') ↔ Resolve.resolve cx.doc v = .ok r ∧ g' = g := by
  rw [Setting.resolve, runLift, mapErrorOk]

theorem runResolveAt {cx : Setting} {l : Location} {p : Value × Location} :
    cx.resolveAt l g = .ok (p, g') ↔ Resolve.resolveAt cx.doc l = .ok p ∧ g' = g := by
  rw [Setting.resolveAt, runLift, mapErrorOk]

inductive Runs (f : α → Walk β) : List α → Graph → List β → Graph → Prop
  | nil (g : Graph) : Runs f [] g [] g
  | cons {x xs y ys} {g m g' : Graph} (head : f x g = .ok (y, m)) (tail : Runs f xs m ys g') :
      Runs f (x :: xs) g (y :: ys) g'

theorem runMapM {f : α → Walk β} {xs : List α} {ys : List β} :
    xs.mapM f g = .ok (ys, g') ↔ Runs f xs g ys g' := by
  induction xs generalizing g ys with
  | nil =>
    rw [List.mapM_nil, runPure]
    constructor
    · rintro ⟨rfl, rfl⟩; exact .nil _
    · intro h; cases h; exact ⟨rfl, rfl⟩
  | cons x xs ih =>
    simp only [List.mapM_cons, runBind, runPure]
    constructor
    · rintro ⟨y, m, head, rest, m', tail, rfl, rfl⟩
      exact .cons head (ih.mp tail)
    · intro h
      cases h with
      | cons head tail => exact ⟨_, _, head, _, _, ih.mpr tail, rfl, rfl⟩

theorem runForM {f : α → Walk PUnit} {xs : List α} {u : PUnit} :
    xs.forM f g = .ok (u, g') ↔ ∃ us, Runs f xs g us g' := by
  induction xs generalizing g with
  | nil =>
    rw [List.forM, runPure]
    constructor
    · rintro ⟨_, rfl⟩; exact ⟨[], .nil g'⟩
    · rintro ⟨us, h⟩; cases h; exact ⟨rfl, rfl⟩
  | cons x xs ih =>
    simp only [List.forM, runBind]
    constructor
    · rintro ⟨y, m, head, tail⟩
      obtain ⟨us, rest⟩ := ih.mp tail
      exact ⟨y :: us, .cons head rest⟩
    · rintro ⟨us, h⟩
      cases h with
      | cons head tail => exact ⟨_, _, head, ih.mpr ⟨_, tail⟩⟩

inductive Folds (f : β → α → Walk β) : β → List α → Graph → β → Graph → Prop
  | nil (b : β) (g : Graph) : Folds f b [] g b g
  | cons {b x xs b' b''} {g m g' : Graph} (head : f b x g = .ok (b', m))
      (tail : Folds f b' xs m b'' g') : Folds f b (x :: xs) g b'' g'

theorem runFoldlM {f : β → α → Walk β} {b b' : β} {xs : List α} :
    xs.foldlM f b g = .ok (b', g') ↔ Folds f b xs g b' g' := by
  induction xs generalizing g b with
  | nil =>
    rw [List.foldlM_nil, runPure]
    constructor
    · rintro ⟨rfl, rfl⟩; exact .nil _ _
    · intro h; cases h; exact ⟨rfl, rfl⟩
  | cons x xs ih =>
    simp only [List.foldlM_cons, runBind]
    constructor
    · rintro ⟨y, m, head, tail⟩
      exact .cons head (ih.mp tail)
    · intro h
      cases h with
      | cons head tail => exact ⟨_, _, head, ih.mpr tail⟩

theorem Runs.each {f : α → Walk β} {xs : List α} {ys : List β} (runs : Runs f xs g ys g') {x : α}
    (mem : x ∈ xs) : ∃ m y m', f x m = .ok (y, m') := by
  induction runs with
  | nil => cases mem
  | cons head _ ih =>
    rcases List.mem_cons.mp mem with rfl | later
    · exact ⟨_, _, _, head⟩
    · exact ih later

theorem Folds.each {f : β → α → Walk β} {b b' : β} {xs : List α} (folds : Folds f b xs g b' g')
    {x : α} (mem : x ∈ xs) : ∃ acc m acc' m', f acc x m = .ok (acc', m') := by
  induction folds with
  | nil => cases mem
  | cons head _ ih =>
    rcases List.mem_cons.mp mem with rfl | later
    · exact ⟨_, _, _, _, head⟩
    · exact ih later

theorem Runs.keeps {f : α → Walk β} {xs : List α} {ys : List β} {R : Graph → Graph → Prop}
    (runs : Runs f xs g ys g') (refl : ∀ g, R g g) (trans : ∀ {a b c}, R a b → R b c → R a c)
    (each : ∀ x ∈ xs, ∀ {g y g'}, f x g = .ok (y, g') → R g g') : R g g' := by
  induction runs with
  | nil => exact refl _
  | cons head tail ih =>
    exact trans (each _ List.mem_cons_self head)
      (ih fun x mem _ _ _ => each x (List.mem_cons_of_mem _ mem))

theorem Folds.keeps {f : β → α → Walk β} {b b' : β} {xs : List α} {R : Graph → Graph → Prop}
    (folds : Folds f b xs g b' g') (refl : ∀ g, R g g)
    (trans : ∀ {a b c}, R a b → R b c → R a c)
    (each : ∀ x ∈ xs, ∀ {b g y g'}, f b x g = .ok (y, g') → R g g') : R g g' := by
  induction folds with
  | nil => exact refl _
  | cons head tail ih =>
    exact trans (each _ List.mem_cons_self head)
      (ih fun x mem _ _ _ _ => each x (List.mem_cons_of_mem _ mem))

theorem Runs.still {f : α → Walk β} {xs : List α} {ys : List β} {P : α → β → Prop}
    (runs : Runs f xs g ys g')
    (each : ∀ x ∈ xs, ∀ {g y g'}, f x g = .ok (y, g') → g' = g ∧ P x y) :
    g' = g ∧ List.Forall₂ P xs ys := by
  induction runs with
  | nil => exact ⟨rfl, .nil⟩
  | cons head _ ih =>
    obtain ⟨rfl, first⟩ := each _ List.mem_cons_self head
    obtain ⟨same, rest⟩ := ih fun x mem _ _ _ => each x (List.mem_cons_of_mem _ mem)
    exact ⟨same, .cons first rest⟩

/- A walk that asks the document alone: it leaves the graph, and its answer does not depend on it. -/
def Asks (x : Walk α) : Prop :=
  ∀ g a g', x g = .ok (a, g') → g' = g ∧ ∀ m, x m = .ok (a, m)

namespace Asks

theorem one {x : Walk α} (asks : Asks x) {g₁ g₂ : Graph} {a b : α} (run : x g = .ok (a, g₁))
    (run' : x g' = .ok (b, g₂)) : b = a := by
  have again := (asks _ _ _ run).2 g'
  rw [run'] at again
  exact congrArg Prod.fst (Except.ok.inj again)

theorem pure (a : α) : Asks (Pure.pure a : Walk α) := by
  intro g b g' run
  obtain ⟨rfl, rfl⟩ := runPure.mp run
  exact ⟨rfl, fun m => rfl⟩

theorem resolve (cx : Setting) (v : Value) : Asks (cx.resolve v) := by
  intro g r g' run
  obtain ⟨resolved, rfl⟩ := runResolve.mp run
  exact ⟨rfl, fun m => runResolve.mpr ⟨resolved, rfl⟩⟩

theorem bind {x : Walk α} {f : α → Walk β} (first : Asks x) (rest : ∀ a, Asks (f a)) :
    Asks (x >>= f) := by
  intro g b g' run
  obtain ⟨a, m, asked, later⟩ := runBind.mp run
  obtain ⟨rfl, again⟩ := first _ _ _ asked
  obtain ⟨rfl, again'⟩ := rest a _ _ _ later
  exact ⟨rfl, fun m => runBind.mpr ⟨a, m, again m, again' m⟩⟩

theorem mapM {f : α → Walk β} (each : ∀ x, Asks (f x)) (xs : List α) : Asks (xs.mapM f) := by
  induction xs with
  | nil =>
    rw [List.mapM_nil]
    exact Asks.pure []
  | cons x xs ih =>
    rw [List.mapM_cons]
    exact (each x).bind fun y => ih.bind fun ys => Asks.pure (y :: ys)

end Asks

theorem partner {α β : Type} {P : α → β → Prop} {xs : List α} {ys : List β}
    (h : List.Forall₂ P xs ys) {y : β} (mem : y ∈ ys) : ∃ x ∈ xs, P x y := by
  induction h with
  | nil => cases mem
  | cons head _ ih =>
    rcases List.mem_cons.mp mem with rfl | rest
    · exact ⟨_, List.mem_cons_self, head⟩
    · obtain ⟨x, inside, related⟩ := ih rest
      exact ⟨x, List.mem_cons_of_mem _ inside, related⟩

theorem counterpart {α β : Type} {P : α → β → Prop} {xs : List α} {ys : List β}
    (h : List.Forall₂ P xs ys) {x : α} (mem : x ∈ xs) : ∃ y ∈ ys, P x y :=
  partner h.flip mem

instance decidableResult {ε α : Type} (x : Except ε α) (P : α → Prop) [DecidablePred P] :
    Decidable (∃ a, x = .ok a ∧ P a) :=
  match x with
  | .error _ => isFalse (by simp)
  | .ok a => decidable_of_iff (P a) (by simp)

end ApiGraph.Build
