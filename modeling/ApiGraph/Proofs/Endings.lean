import ApiGraph.Proofs.Contents
import ApiGraph.Proofs.Pointers
import ApiGraph.Json.Measure

/-! Every walk through schemas comes to an end. A new node is either inside the value that was being
read, and less deep, or at the end of a pointer that no schema node stood at before; so the pointers
left over and the depth bound what a walk can still do. -/
namespace ApiGraph

/- With so much of a bound there is an answer, and with more of it the answer is the same. -/
def Answers {α : Type} (bound : Nat) (run : Nat → Except Failure α) : Prop :=
  ∃ answer, answer ≠ .error .unfinished ∧ ∀ n, bound ≤ n → run n = answer

end ApiGraph

namespace ApiGraph.Json.Value

theorem refListed {v : Value} {p : String} (named : refOf v = some p) : p ∈ v.pointers := by
  cases v with
  | obj members => simp [pointers, named]
  | _ => simp [refOf, textAt?, get?] at named

end ApiGraph.Json.Value

namespace ApiGraph.Tree
open Json

theorem walkMeasures {segments : List String} {doc v : Value} (h : walk? segments doc = some v) :
    v.depth ≤ doc.depth ∧ v.pointers ⊆ doc.pointers := by
  induction segments generalizing doc with
  | nil =>
    cases h
    exact ⟨Nat.le_refl _, List.Subset.refl _⟩
  | cons s r ih =>
    obtain ⟨w, step, rest⟩ := Option.bind_eq_some_iff.mp h
    obtain ⟨deep, inside⟩ := ih rest
    cases doc with
    | obj members =>
      have mem := Entries.mem_of_lookup (show members.lookup s = some w from step)
      have less : w.depth < (Value.obj members).depth := Value.depthOfMember mem
      have more := Value.pointersOfMember mem
      exact ⟨by omega, List.Subset.trans inside more⟩
    | arr items =>
      obtain ⟨i, _, found⟩ := Option.bind_eq_some_iff.mp step
      have mem := List.mem_of_getElem? found
      have less := Value.depthOfItem mem
      have more := Value.pointersOfItem mem
      exact ⟨by omega, List.Subset.trans inside more⟩
    | _ => simp [step?] at step

theorem depthAt {doc v : Value} {l : Location} (at_ : get? l doc = some v) :
    v.depth ≤ doc.depth := (walkMeasures at_).1

theorem refAt {doc v : Value} {l : Location} {p : String} (at_ : get? l doc = some v)
    (named : refOf v = some p) : p ∈ doc.pointers := (walkMeasures at_).2 (Value.refListed named)

end ApiGraph.Tree

namespace ApiGraph.Resolve
open Json

theorem followListed {doc : Value} {steps : Nat} {seen : List String} {pointer : String}
    {r : Resolved} (h : follow doc steps seen pointer = .ok r) (listed : pointer ∈ doc.pointers) :
    ∃ p ∈ doc.pointers, r.pointer = some p := by
  induction steps generalizing seen pointer with
  | zero => simp [follow] at h
  | succ steps ih =>
    simp only [follow] at h
    split at h
    · contradiction
    · split at h
      · contradiction
      · rename_i v found
        split at h
        · rename_i next named
          exact ih h (Tree.refAt (lookupSource found).2 named)
        · cases h
          exact ⟨pointer, listed, rfl⟩

theorem resolvedInside {doc v : Value} {r : Resolved} (inside : v.pointers ⊆ doc.pointers)
    (h : resolve doc v = .ok r) :
    (refOf v = none ∧ r = ⟨v, none⟩) ∨ ∃ p ∈ doc.pointers, r.pointer = some p := by
  cases named : refOf v with
  | none =>
    simp only [resolve, named, Except.ok.injEq] at h
    exact .inl ⟨rfl, h.symm⟩
  | some pointer =>
    simp only [resolve, named] at h
    exact .inr (followListed h (inside (Value.refListed named)))

theorem resolvedListed {doc v : Value} {place : Location} {r : Resolved}
    (at_ : Tree.get? place doc = some v) (h : resolve doc v = .ok r) :
    (refOf v = none ∧ r = ⟨v, none⟩) ∨ ∃ p ∈ doc.pointers, r.pointer = some p :=
  resolvedInside (Tree.walkMeasures at_).2 h

theorem resolvedMeasures {doc v : Value} {r : Resolved} (h : resolve doc v = .ok r) :
    (refOf v = none ∧ r = ⟨v, none⟩) ∨
      r.value.depth ≤ doc.depth ∧ r.value.pointers ⊆ doc.pointers := by
  rcases resolvedSource h with plain | ⟨l, _, found⟩
  · exact .inl plain
  · exact .inr (Tree.walkMeasures found)

end ApiGraph.Resolve

namespace ApiGraph.Graph

theorem plantSchemaAt (g : Graph) (s : Schema) (l : Location) :
    (g.plant s).schemaAt l =
      if l = s.location then some ⟨g.schemas.length⟩ else g.schemaAt l := by
  have index : (g.plant s).nodes =
      Entries.put s.location (.schema ⟨g.schemas.length⟩) g.nodes := by
    unfold plant
    split <;> rfl
  by_cases same : l = s.location
  · simp [schemaAt, nodeAt, index, same]
  · simp [schemaAt, nodeAt, index, same, Entries.lookupPutOther same]

theorem Edit.keepsSchemaAt {g g' : Graph} (e : Edit .schemas g g') {l : Location}
    (held : (g.schemaAt l).isSome) : (g'.schemaAt l).isSome := by
  cases e with
  | schema s named free =>
    rw [plantSchemaAt]
    split
    · rfl
    · exact held
  | fill id c => exact held
  | _ => contradiction

theorem Edits.keepsSchemaAt {g g' : Graph} (e : Edits .schemas g g') {l : Location}
    (held : (g.schemaAt l).isSome) : (g'.schemaAt l).isSome :=
  e.keeps (P := fun m => (m.schemaAt l).isSome) (fun edit => edit.keepsSchemaAt) held

end ApiGraph.Graph

namespace ApiGraph.Build
open Json Resolve Classify ApiGraph.Graph

structure Inside (w v : Value) : Prop where
  depth : w.depth < v.depth
  pointers : w.pointers ⊆ v.pointers

theorem Inside.trans {u v w : Value} (h : Inside u v) (h' : Inside v w) : Inside u w :=
  ⟨Nat.lt_trans h.depth h'.depth, List.Subset.trans h.pointers h'.pointers⟩

theorem heldInside {v x : Value} {key : String} (held : v.get? key = some x) : Inside x v := by
  cases v with
  | obj members =>
    have mem := Entries.mem_of_lookup held
    exact ⟨Value.depthOfMember mem, Value.pointersOfMember mem⟩
  | _ => simp [Value.get?] at held

theorem memberInside {v : Value} {key : String} {e : String × Value}
    (mem : e ∈ (v.membersAt? key).getD []) : Inside e.2 v := by
  cases held : v.membersAt? key with
  | none => simp [held] at mem
  | some members =>
    simp only [held, Option.getD_some] at mem
    exact Inside.trans ⟨Value.depthOfMember mem, Value.pointersOfMember mem⟩
      (heldInside (Value.membersAtSome held))

theorem contentsInside {schema : Value} {l : Location} {shape : Shape} {e : Value × Location}
    (mem : e ∈ contents shape schema l) : Inside e.1 schema := by
  cases memContents mem with
  | item key _ mem =>
    obtain ⟨items, i, held, found, _⟩ := memItemsWithin mem
    have inner := List.mem_of_getElem? found
    exact Inside.trans ⟨Value.depthOfItem inner, Value.pointersOfItem inner⟩
      (heldInside (Value.itemsAtSome held))
  | property mem =>
    obtain ⟨members, name, held, found, _⟩ := memMembersWithin mem
    have inside : (name, e.1) ∈ (schema.membersAt? "properties").getD [] := by
      simpa [held] using found
    exact memberInside inside
  | not mem => exact heldInside (memOptionWithin mem).1
  | additional mem => exact heldInside (additionalSchemaSource (memOptionWithin mem).1)
  | items mem => exact heldInside (itemsSchemaSource (memOptionWithin mem).1)

def Ends {α : Type} (allowed : Failure → Prop) (Q : Graph → Prop) (x : Walk α) (g : Graph) : Prop :=
  match x g with
  | .ok (_, g') => Q g'
  | .error e => allowed e

namespace Ends
variable {α β : Type} {allowed : Failure → Prop} {Q R : Graph → Prop} {g : Graph}

theorem pure {a : α} (holds : Q g) : Ends allowed Q (Pure.pure a : Walk α) g := holds

theorem throw {e : Failure} (fine : allowed e) : Ends allowed Q (throw e : Walk α) g := fine

theorem bind {x : Walk α} {f : α → Walk β} (first : Ends allowed R x g)
    (rest : ∀ a m, R m → Ends allowed Q (f a) m) : Ends allowed Q (x >>= f) g := by
  unfold Ends at first
  cases hx : x g with
  | error e =>
    rw [hx] at first
    have same : (x >>= f) g = .error e := by simp [Bind.bind, StateT.bind, hx, Except.bind]
    unfold Ends
    rw [same]
    exact first
  | ok p =>
    rw [hx] at first
    have same : (x >>= f) g = f p.1 p.2 := by simp [Bind.bind, StateT.bind, hx, Except.bind]
    have later := rest p.1 p.2 first
    unfold Ends at later ⊢
    rw [same]
    exact later

theorem ask {ε : Type} {x : Except ε α} {wrap : ε → Failure} {f : α → Walk β}
    (fails : ∀ e, x = .error e → allowed (wrap e)) (rest : ∀ a, x = .ok a → Ends allowed Q (f a) g) :
    Ends allowed Q ((liftM (x.mapError wrap) : Walk α) >>= f) g := by
  cases hx : x with
  | error e => exact fails e hx
  | ok a => exact rest a hx

theorem get {f : Graph → Walk β} (rest : Ends allowed Q (f g) g) :
    Ends allowed Q (MonadState.get >>= f) g := rest

theorem set {g' : Graph} {f : PUnit → Walk β} (rest : Ends allowed Q (f ⟨⟩) g') :
    Ends allowed Q (MonadStateOf.set g' >>= f) g := rest

theorem mapM {f : α → Walk β} {xs : List α} (each : ∀ x ∈ xs, ∀ g, Q g → Ends allowed Q (f x) g)
    (holds : Q g) : Ends allowed Q (xs.mapM f) g := by
  induction xs generalizing g with
  | nil =>
    rw [List.mapM_nil]
    exact Ends.pure holds
  | cons x xs ih =>
    rw [List.mapM_cons]
    refine (each x List.mem_cons_self g holds).bind fun y m first => ?_
    refine (ih (fun y mem => each y (List.mem_cons_of_mem _ mem)) first).bind fun ys m' rest => ?_
    exact Ends.pure rest

theorem weaken {x : Walk α} (ends : Ends allowed R x g) (weaker : ∀ m, R m → Q m) :
    Ends allowed Q x g := by
  unfold Ends at *
  cases hx : x g with
  | error e => simpa [hx] using ends
  | ok p =>
    rw [hx] at ends
    exact weaker p.2 ends

theorem both {also strict : Failure → Prop} {x : Walk α} (ends : Ends allowed Q x g)
    (ends' : Ends also R x g) (fine : ∀ e, allowed e → also e → strict e) : Ends strict Q x g := by
  unfold Ends at *
  cases hx : x g with
  | error e =>
    rw [hx] at ends ends'
    exact fine e ends ends'
  | ok p => simpa [hx] using ends

theorem finished {x : Walk α} (ends : Ends (· ≠ .unfinished) Q x g) : x g ≠ .error .unfinished := by
  intro failed
  rw [Ends, failed] at ends
  exact ends rfl

theorem succeeds {x : Walk α} (ends : Ends (fun _ => False) Q x g) :
    ∃ a g', x g = .ok (a, g') ∧ Q g' := by
  unfold Ends at ends
  cases hx : x g with
  | error e =>
    rw [hx] at ends
    exact ends.elim
  | ok p =>
    rw [hx] at ends
    exact ⟨p.1, p.2, rfl, ends⟩

end Ends

section Filling
variable {allowed : Failure → Prop} {Q : Graph → Prop} {visit : Value → Location → Walk SchemaId}
  {schema : Value} {l : Location} {g : Graph}

theorem visitItemsEnds {key : String}
    (each : ∀ e ∈ itemsWithin schema l key, ∀ g, Q g → Ends allowed Q (visit e.1 e.2) g)
    (holds : Q g) : Ends allowed Q (visitItems visit schema l key) g :=
  Ends.mapM (fun _ mem => each _ (List.mem_map_of_mem mem)) holds

theorem visitOptionEnds {key : String} {x : Option Value}
    (each : ∀ e ∈ optionWithin l key x, ∀ g, Q g → Ends allowed Q (visit e.1 e.2) g)
    (holds : Q g) : Ends allowed Q (visitOption visit l key x) g := by
  cases x with
  | none => exact Ends.pure holds
  | some v =>
    have inside : (v, l.child key) ∈ optionWithin l key (some v) := by simp [optionWithin]
    exact (each _ inside g holds).bind fun _ _ => Ends.pure

theorem visitPropertiesEnds {shape : Shape}
    (declared : ¬ Declares shape schema → allowed (.schema (.shapeMismatch l)))
    (each : ∀ e ∈ membersWithin schema l "properties", ∀ g, Q g → Ends allowed Q (visit e.1 e.2) g)
    (holds : Q g) : Ends allowed Q (visitProperties visit shape schema l) g := by
  cases held : schema.membersAt? "properties" with
  | none =>
    simp only [visitProperties, held]
    exact Ends.pure holds
  | some members =>
    cases shape with
    | record r =>
      simp only [visitProperties, held, visitMembers]
      refine Ends.mapM (fun e mem g before => ?_) holds
      have inside : (e.2, (l.child "properties").child e.1) ∈
          membersWithin schema l "properties" := by
        rw [membersWithin, held]
        exact List.mem_map_of_mem mem
      exact (each _ inside g before).bind fun _ _ => Ends.pure
    | leaf =>
      simp only [visitProperties, held]
      exact Ends.throw (declared (by simp [Declares, held]))
    | array items =>
      simp only [visitProperties, held]
      exact Ends.throw (declared (by simp [Declares, held]))

theorem fillSchemaEnds {id : SchemaId} {shape : Shape}
    (declared : ¬ Declares shape schema → allowed (.schema (.shapeMismatch l)))
    (keeps : ∀ g f, Q g → Q (g.setSchema id f))
    (each : ∀ e ∈ contents shape schema l, ∀ g, Q g → Ends allowed Q (visit e.1 e.2) g)
    (holds : Q g) : Ends allowed Q (fillSchema visit id shape schema l) g := by
  have inside : ∀ {xs : List (Value × Location)}, (∀ e ∈ xs, e ∈ contents shape schema l) →
      ∀ e ∈ xs, ∀ g, Q g → Ends allowed Q (visit e.1 e.2) g :=
    fun within e mem => each e (within e mem)
  unfold fillSchema
  refine (visitItemsEnds (inside fun _ mem => ?_) holds).bind fun allOf _ holds => ?_
  · simp [contents, mem]
  refine (visitItemsEnds (inside fun _ mem => ?_) holds).bind fun oneOf _ holds => ?_
  · simp [contents, mem]
  refine (visitItemsEnds (inside fun _ mem => ?_) holds).bind fun anyOf _ holds => ?_
  · simp [contents, mem]
  refine (visitOptionEnds (inside fun _ mem => ?_) holds).bind fun not _ holds => ?_
  · simp [contents, mem]
  refine (visitPropertiesEnds declared (inside fun _ mem => ?_) holds).bind
    fun properties _ holds => ?_
  · simp [contents, mem]
  refine (visitOptionEnds (inside fun _ mem => ?_) holds).bind fun additional _ holds => ?_
  · simp [contents, mem]
  refine (visitOptionEnds (inside fun _ mem => ?_) holds).bind fun items _ holds => ?_
  · simp [contents, mem]
  exact keeps _ _ holds

end Filling

structure Permits (doc : Value) (allowed : Failure → Prop) (P : Value → Location → Prop) :
    Prop where
  held : ∀ {v place}, P v place → Tree.get? place doc = some v
  resolves : ∀ {v place e}, P v place → resolve doc v = .error e → allowed (.resolve e)
  classifies : ∀ {v place r e}, P v place → resolve doc v = .ok r →
    classify r.value (r.locationOr place) = .error e → allowed (.schema e)
  declares : ∀ {v place r c}, P v place → resolve doc v = .ok r →
    classify r.value (r.locationOr place) = .ok c → ¬ Declares c.shape r.value →
    allowed (.schema (.shapeMismatch (r.locationOr place)))
  contents : ∀ {v place r c}, P v place → resolve doc v = .ok r →
    classify r.value (r.locationOr place) = .ok c →
    ∀ e ∈ contents c.shape r.value (r.locationOr place), P e.1 e.2

def unvisited (doc : Value) (g : Graph) : Nat :=
  doc.pointers.countP fun p => (g.schemaAt (.ofPointer p)).isNone

theorem countLess {α : Type} {p q : α → Bool} {xs : List α} {x : α}
    (weaker : ∀ y, q y = true → p y = true) (mem : x ∈ xs) (holds : p x = true)
    (fails : q x = false) : xs.countP q < xs.countP p := by
  induction xs with
  | nil => cases mem
  | cons y r ih =>
    have rest : r.countP q ≤ r.countP p := List.countP_mono_left fun z _ => weaker z
    rcases List.mem_cons.mp mem with rfl | later
    · simp only [List.countP_cons, holds, fails]
      simp
      omega
    · have less := ih later
      have here := weaker y
      simp only [List.countP_cons]
      split <;> split <;> first | omega | (exfalso; simp_all)

theorem unvisitedAfter {doc : Value} {g g' : Graph} (e : Edits .schemas g g') :
    unvisited doc g' ≤ unvisited doc g := by
  refine List.countP_mono_left fun p _ later => ?_
  cases held : g.schemaAt (.ofPointer p) with
  | none => rfl
  | some id =>
    have still := e.keepsSchemaAt (l := .ofPointer p) (by simp [held])
    simp [Option.isNone_iff_eq_none.mp later] at still

theorem unvisitedLess {doc : Value} {g : Graph} {s : Schema} {p : String} (mem : p ∈ doc.pointers)
    (there : s.location = .ofPointer p) (free : g.schemaAt s.location = none) :
    unvisited doc (g.plant s) < unvisited doc g := by
  refine countLess (fun q later => ?_) mem ?_ ?_
  · rw [plantSchemaAt] at later
    split at later
    · simp at later
    · exact later
  · simp [← there, free]
  · simp [plantSchemaAt, there]

theorem schemaNodeStops {cx : Setting} {allowed : Failure → Prop} {Q : Graph → Prop} {steps : Nat}
    {v : Value} {place : Location} {g : Graph} {e : ResolveError}
    (unresolved : resolve cx.doc v = .error e) (fine : allowed (.resolve e)) :
    Ends allowed Q (schemaNode cx (steps + 1) v place) g := by
  unfold schemaNode
  refine Ends.ask (fun e' failed => ?_) fun r resolved => ?_
  · cases unresolved.symm.trans failed
    exact fine
  · rw [unresolved] at resolved
    contradiction

theorem schemaNodeOpens {cx : Setting} {allowed : Failure → Prop} {Q : Graph → Prop} {steps : Nat}
    {v : Value} {place : Location} {g : Graph} {r : Resolved} (resolved : resolve cx.doc v = .ok r)
    (classifies : ∀ e, classify r.value (r.locationOr place) = .error e → allowed (.schema e))
    (holds : Q g)
    (fills : ∀ c, g.schemaAt (r.locationOr place) = none →
      classify r.value (r.locationOr place) = .ok c →
      Ends allowed Q (fillSchema (schemaNode cx steps) ⟨g.schemas.length⟩ c.shape r.value
        (r.locationOr place)) (g.plant (newSchema c r.value (r.locationOr place)
          (r.location?.bind Location.last?)))) :
    Ends allowed Q (schemaNode cx (steps + 1) v place) g := by
  unfold schemaNode
  refine Ends.ask (fun e failed => ?_) fun r' resolved' => ?_
  · rw [resolved] at failed
    contradiction
  cases resolved.symm.trans resolved'
  refine Ends.get ?_
  cases held : g.schemaAt (r.locationOr place) with
  | some id => exact holds
  | none =>
    refine Ends.ask classifies fun c told => Ends.get (Ends.set ?_)
    exact (fills c held told).bind fun _ _ => Ends.pure

/- The fuel that a walk needs: a whole depth for each pointer left over, and its own. -/
theorem schemaNodeFinishes {cx : Setting} {steps left : Nat} {v : Value} {place : Location} {g : Graph}
    (inside : v.pointers ⊆ cx.doc.pointers) (few : unvisited cx.doc g ≤ left)
    (enough : left * (cx.doc.depth + 2) + v.depth < steps) :
    Ends (· ≠ .unfinished) (fun g => unvisited cx.doc g ≤ left) (schemaNode cx steps v place) g := by
  induction steps generalizing left v place g with
  | zero => omega
  | succ steps ih =>
    cases resolved : resolve cx.doc v with
    | error e => exact schemaNodeStops resolved (by simp)
    | ok r =>
      refine schemaNodeOpens resolved (fun _ _ => by simp) few ?_
      intro c held told
      generalize entry : newSchema c r.value (r.locationOr place)
        (r.location?.bind Location.last?) = s
      have there : s.location = r.locationOr place := by simp [← entry, newSchema]
      -- the contents are less deep, or one pointer less is left over
      have less : r.value.pointers ⊆ cx.doc.pointers ∧
          ∃ left' ≤ left, unvisited cx.doc (g.plant s) ≤ left' ∧
            left' * (cx.doc.depth + 2) + r.value.depth ≤ steps := by
        rcases resolvedInside inside resolved with ⟨_, rfl⟩ | ⟨p, mem, named⟩
        · have planted := Edit.schema (k := .schemas) s (entry ▸ newSchemaNamed) (there ▸ held)
          have fewer : unvisited cx.doc (g.plant s) ≤ unvisited cx.doc g := unvisitedAfter (.single planted)
          exact ⟨inside, left, Nat.le_refl _, by omega, by simp only; omega⟩
        · have listed : s.location = .ofPointer p := by
            simp [there, Resolved.locationOr, Resolved.location?, named]
          have fewer := unvisitedLess mem listed (there ▸ held)
          rcases resolvedMeasures resolved with ⟨_, rfl⟩ | ⟨deep, within⟩
          · contradiction
          · cases left with
            | zero => omega
            | succ left' =>
              rw [Nat.add_mul] at enough
              exact ⟨within, left', by omega, by omega, by omega⟩
      obtain ⟨within, left', smaller, fewer, rest⟩ := less
      have fills : Ends (· ≠ .unfinished) (fun g => unvisited cx.doc g ≤ left')
          (fillSchema (schemaNode cx steps) ⟨g.schemas.length⟩ c.shape r.value
            (r.locationOr place)) (g.plant s) := by
        refine fillSchemaEnds (fun _ => by simp) (fun _ _ holds => holds) ?_ fewer
        intro e mem g' before
        have part := contentsInside mem
        have shallow := part.depth
        exact ih (List.Subset.trans part.pointers within) before (by omega)
      exact fills.weaken fun m holds => Nat.le_trans holds smaller

theorem schemaNodeAllows {cx : Setting} {allowed : Failure → Prop} {P : Value → Location → Prop}
    (permits : Permits cx.doc allowed P) {steps : Nat} {v : Value} {place : Location} {g : Graph}
    (here : P v place) : Ends (fun e => e = .unfinished ∨ allowed e) (fun _ => True)
      (schemaNode cx steps v place) g := by
  induction steps generalizing v place g with
  | zero => exact .inl rfl
  | succ steps ih =>
    cases resolved : resolve cx.doc v with
    | error e => exact schemaNodeStops resolved (.inr (permits.resolves here resolved))
    | ok r =>
      refine schemaNodeOpens resolved (fun e failed => .inr (permits.classifies here resolved failed))
        trivial fun c held told => ?_
      refine fillSchemaEnds (fun bare => .inr (permits.declares here resolved told bare))
        (fun _ _ _ => trivial) (fun e mem g' _ => ?_) trivial
      exact ih (permits.contents here resolved told e mem)

theorem schemaNodeEnds {cx : Setting} {allowed : Failure → Prop} {P : Value → Location → Prop}
    (permits : Permits cx.doc allowed P) {steps left : Nat} {v : Value} {place : Location}
    {g : Graph} (here : P v place) (few : unvisited cx.doc g ≤ left)
    (enough : left * (cx.doc.depth + 2) + v.depth < steps) :
    Ends allowed (fun g => unvisited cx.doc g ≤ left) (schemaNode cx steps v place) g := by
  have inside := (Tree.walkMeasures (permits.held here)).2
  refine (schemaNodeFinishes inside few enough).both (schemaNodeAllows permits here) ?_
  intro e ended fine
  exact fine.resolve_left ended

theorem unvisitedFew (doc : Value) (g : Graph) : unvisited doc g ≤ doc.pointers.length :=
  List.countP_le_length

theorem schemaNodeFinishesAnywhere {cx : Setting} {steps : Nat} {v : Value} {place : Location}
    {g : Graph}
    (enough : cx.doc.pointers.length * (cx.doc.depth + 2) + cx.doc.depth + v.depth < steps) :
    Ends (· ≠ .unfinished) (fun _ => True) (schemaNode cx steps v place) g := by
  induction steps generalizing v place g with
  | zero => omega
  | succ steps ih =>
    cases resolved : resolve cx.doc v with
    | error e => exact schemaNodeStops resolved (by simp)
    | ok r =>
      refine schemaNodeOpens resolved (fun _ _ => by simp) trivial fun c held told => ?_
      refine fillSchemaEnds (fun _ => by simp) (fun _ _ _ => trivial) (fun e mem g' _ => ?_) trivial
      have part := contentsInside mem
      have shallow := part.depth
      rcases resolvedMeasures resolved with ⟨_, rfl⟩ | ⟨deep, within⟩
      · exact ih (by simp only at shallow; omega)
      · have inside := List.Subset.trans part.pointers within
        exact (schemaNodeFinishes inside (unvisitedFew cx.doc g') (by omega)).weaken
          fun _ _ => trivial

theorem schemaAtFinishes {cx : Setting} {v : Value} {place : Location} {g : Graph}
    (shallow : v.depth ≤ cx.doc.depth + 1) :
    Ends (· ≠ .unfinished) (fun _ => True) (schemaAt cx v place) g := by
  refine schemaNodeFinishesAnywhere ?_
  rw [Setting.bound, Nat.add_mul]
  omega

theorem schemaAtEnds {cx : Setting} {allowed : Failure → Prop} {P : Value → Location → Prop}
    (permits : Permits cx.doc allowed P) {v : Value} {place : Location} {g : Graph}
    (here : P v place) : Ends allowed (fun _ => True) (schemaAt cx v place) g := by
  have deep := Tree.depthAt (permits.held here)
  refine (schemaNodeEnds permits here (unvisitedFew cx.doc g) ?_).weaken fun _ _ => trivial
  rw [Setting.bound, Nat.add_mul]
  omega

theorem referenceEnds {cx : Setting} {allowed : Failure → Prop} {P : Value → Location → Prop}
    (permits : Permits cx.doc allowed P) {v : Value} {l : Location} {r : Resolved} {g : Graph}
    (resolved : resolve cx.doc v = .ok r) (here : P r.value (r.locationOr l)) :
    Ends allowed (fun _ => True) (schemaAt cx v l) g := by
  have deep := Tree.depthAt (permits.held here)
  have own : resolve cx.doc r.value = .ok ⟨r.value, none⟩ := resolvePlain (resolvedPlain resolved)
  unfold schemaAt
  cases bound : cx.bound with
  | zero => simp [Setting.bound] at bound
  | succ steps =>
    rw [Setting.bound, Nat.add_mul] at bound
    refine schemaNodeOpens resolved (fun e failed => permits.classifies here own failed) trivial
      fun c held told => ?_
    have few := unvisitedFew cx.doc
    refine (fillSchemaEnds (Q := fun g => unvisited cx.doc g ≤ cx.doc.pointers.length)
      (permits.declares here own told) (fun _ _ holds => holds) (fun e mem g' before => ?_)
      (few _)).weaken fun _ _ => trivial
    have shallow : e.1.depth < r.value.depth := (contentsInside mem).depth
    exact schemaNodeEnds permits (permits.contents here own told e mem) before (by omega)

theorem registerTypeEnds {cx : Setting} {allowed : Failure → Prop} {P : Value → Location → Prop}
    (permits : Permits cx.doc allowed P) {v : Value} {l : Location} {g : Graph} (here : P v l)
    (plain : refOf v = none) (spelled : l.Spelled) :
    Ends allowed (fun _ => True) (registerType cx l) g := by
  have place : (⟨v, some l.toPointer⟩ : Resolved).locationOr l = l := by
    simp [Resolved.locationOr, Resolved.location?, Location.pointerRoundTrip spelled]
  refine referenceEnds permits (resolveReference spelled (permits.held here) plain) ?_
  rw [place]
  exact here

theorem mirrorsDeclares {doc v : Value} {nodes : List Schema} {l : Location} {c s : Shape}
    (shape : MirrorsShape doc nodes v l c s) : Declares c v := by
  cases shape with
  | leaf bare => exact .inl bare
  | array bare _ => exact .inl bare
  | record _ _ _ => exact .inr ⟨_, rfl⟩

def Known (doc : Value) (nodes : List Schema) (v : Value) (place : Location) : Prop :=
  Tree.get? place doc = some v ∧ ∃ id, StandsFor doc nodes v place id

def Mirrored (doc : Value) (nodes : List Schema) : Prop :=
  ∀ s ∈ nodes, ∃ v, Mirrors doc nodes s v

theorem standsMirrors {doc v : Value} {nodes : List Schema} {place : Location} {id : SchemaId}
    (mirrored : Mirrored doc nodes) (at_ : Tree.get? place doc = some v)
    (stands : StandsFor doc nodes v place id) : ∃ r s, resolve doc v = .ok r ∧
      s.location = r.locationOr place ∧ Mirrors doc nodes s r.value := by
  obtain ⟨r, s, resolved, found, placed⟩ := stands
  obtain ⟨w, mirrors⟩ := mirrored s (List.mem_of_getElem? found)
  have same := mirrors.located
  rw [placed, resolvedAt (readAt at_) resolved, Option.some.injEq] at same
  exact ⟨r, s, resolved, placed, same ▸ mirrors⟩

theorem knownPermits {doc : Value} {nodes : List Schema} (lawful : doc.lawful = true)
    (mirrored : Mirrored doc nodes) : Permits doc (fun _ => False) (Known doc nodes) where
  held known := known.1
  resolves known failed := by
    obtain ⟨at_, id, stands⟩ := known
    obtain ⟨r, s, resolved, _, _⟩ := standsMirrors mirrored at_ stands
    rw [resolved] at failed
    contradiction
  classifies known resolved failed := by
    obtain ⟨at_, id, stands⟩ := known
    obtain ⟨r, s, resolved', placed, mirrors⟩ := standsMirrors mirrored at_ stands
    cases resolved.symm.trans resolved'
    obtain ⟨c, told, _⟩ := mirrors.classified
    rw [placed, failed] at told
    contradiction
  declares known resolved told bare := by
    obtain ⟨at_, id, stands⟩ := known
    obtain ⟨r, s, resolved', placed, mirrors⟩ := standsMirrors mirrored at_ stands
    cases resolved.symm.trans resolved'
    obtain ⟨c, told', _, _, _, shape⟩ := mirrors.classified
    rw [placed] at told'
    cases told.symm.trans told'
    exact bare (mirrorsDeclares shape)
  contents known resolved told e mem := by
    obtain ⟨at_, id, stands⟩ := known
    obtain ⟨r, s, resolved', placed, mirrors⟩ := standsMirrors mirrored at_ stands
    cases resolved.symm.trans resolved'
    rw [← placed] at told mem
    exact ⟨contentsAt lawful mirrors.located mem, contentsStand mirrors told mem⟩

end ApiGraph.Build
