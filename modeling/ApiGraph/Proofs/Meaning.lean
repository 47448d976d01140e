import ApiGraph.Proofs.Endings
import ApiGraph.Proofs.Matching

/-! What a value means: the value with every reference in it replaced by what it leads to, to any
depth. Chains of references are finite, so they are followed by an inductive relation; the values
at their ends are compared layer by layer, and a relation that is kept from one layer to the next
relates values of one meaning. A reader may tell values of several files apart by where they stand. -/
namespace ApiGraph.Meaning
open Json Resolve
variable {κ κ' κ'' : Type}

/- How a pointer is read by where it stands: the value it names, and where that value stands. -/
structure Reader (κ : Type) where
  read : κ → String → Option (κ × Value)

namespace Reader

def ofDocument (doc : Value) : Reader Unit where
  read _ pointer := (lookup doc pointer).toOption.map fun v => ((), v)

inductive Leads (R : Reader κ) : κ × Value → κ × Value → Prop
  | here {k v} (plain : refOf v = none) : Leads R (k, v) (k, v)
  | step {k v p x a} (named : refOf v = some p) (read : R.read k p = some x) (rest : Leads R x a) :
      Leads R (k, v) a

namespace Leads
variable {R : Reader κ} {x a b : κ × Value}

theorem plain (h : R.Leads x a) : refOf a.2 = none := by
  induction h with
  | here plain => exact plain
  | step _ _ _ ih => exact ih

theorem unique (h : R.Leads x a) (h' : R.Leads x b) : a = b := by
  induction h with
  | here plain =>
    cases h' with
    | here => rfl
    | step named => simp [plain] at named
  | step named read _ ih =>
    cases h' with
    | here plain => simp [plain] at named
    | step named' read' rest' =>
      cases named.symm.trans named'
      cases read.symm.trans read'
      exact ih rest'

theorem next {p : String} (h : R.Leads x a) (named : refOf x.2 = some p) :
    ∃ y, R.read x.1 p = some y ∧ R.Leads y a := by
  cases h with
  | here plain => simp [plain] at named
  | step named' read rest =>
    cases named.symm.trans named'
    exact ⟨_, read, rest⟩

end Leads
end Reader

inductive Layer (S : κ × Value → κ' × Value → Prop) (k : κ) (k' : κ') : Value → Value → Prop
  | items {xs ys} (each : List.Forall₂ (fun x y => S (k, x) (k', y)) xs ys) :
      Layer S k k' (.arr xs) (.arr ys)
  | members {xs ys : Members}
      (each : ∀ key, Option.Rel (fun x y => S (k, x) (k', y)) (xs.lookup key) (ys.lookup key)) :
      Layer S k k' (.obj xs) (.obj ys)
  | leaf {v w} (noItems : v.items? = none) (noMembers : v.members? = none) (same : v.same w = true) :
      Layer S k k' v w

def Alike (R : Reader κ) (R' : Reader κ') : Nat → κ × Value → κ' × Value → Prop
  | 0, _, _ => True
  | n + 1, x, y =>
    (∃ a b, R.Leads x a ∧ R'.Leads y b ∧ Layer (Alike R R' n) a.1 b.1 a.2 b.2) ∨
      (∀ a, ¬ R.Leads x a) ∧ ∀ b, ¬ R'.Leads y b

/- The same, unfolded to any depth. -/
def Means (R : Reader κ) (R' : Reader κ') (x : κ × Value) (y : κ' × Value) : Prop :=
  ∀ n, Alike R R' n x y

namespace Layer
variable {S : κ × Value → κ' × Value → Prop} {k : κ} {k' : κ'} {v w : Value}

theorem mono {T : κ × Value → κ' × Value → Prop} (h : Layer S k k' v w)
    (each : ∀ x y, S x y → T x y) : Layer T k k' v w := by
  cases h with
  | items parts => exact .items (parts.imp fun x y => each _ _)
  | members parts =>
    refine .members fun key => ?_
    have part := parts key
    cases held : List.lookup key _ <;> cases held' : List.lookup key _ <;> rw [held, held'] at part
    · exact .none
    · cases part
    · cases part
    · cases part with
      | some related => exact .some (each _ _ related)
  | leaf noItems noMembers same => exact .leaf noItems noMembers same

theorem leafSame {v w : Value} (noItems : v.items? = none) (noMembers : v.members? = none)
    (same : v.same w = true) : w.items? = none ∧ w.members? = none := by
  cases v with
  | arr => contradiction
  | obj => contradiction
  | num n =>
    cases w <;> simp [Value.same] at same
    exact ⟨rfl, rfl⟩
  | _ => cases w <;> simp_all [Value.same, Value.items?, Value.members?]

theorem refl {S : κ × Value → κ × Value → Prop} (each : ∀ x, S x x) (k : κ) (v : Value) :
    Layer S k k v v := by
  cases v with
  | arr xs => exact .items (List.forall₂_same.mpr fun x _ => each _)
  | obj xs =>
    refine .members fun key => ?_
    cases xs.lookup key with
    | none => exact .none
    | some x => exact .some (each _)
  | num n => exact .leaf rfl rfl (numeralSameRefl n)
  | _ => exact .leaf rfl rfl (by simp [Value.same])

theorem trans {T : κ' × Value → κ'' × Value → Prop} {k'' : κ''} {u : Value} (h : Layer S k k' v w)
    (h' : Layer T k' k'' w u) : Layer (fun x z => ∃ y, S x y ∧ T y z) k k'' v u := by
  cases h with
  | items each =>
    cases h' with
    | items each' =>
      exact .items (itemsTrans each each' fun _ _ _ _ _ _ related related' => ⟨_, related, related'⟩)
    | leaf noItems => contradiction
  | members each =>
    cases h' with
    | members each' =>
      exact .members fun key => relTrans (each key) (each' key)
        fun _ _ _ _ _ _ related related' => ⟨_, related, related'⟩
    | leaf _ noMembers => contradiction
  | leaf noItems noMembers same =>
    obtain ⟨noItems', noMembers'⟩ := leafSame noItems noMembers same
    cases h' with
    | items => contradiction
    | members => contradiction
    | leaf _ _ same' =>
      obtain ⟨noItems'', noMembers''⟩ := leafSame noItems' noMembers' same'
      exact .leaf noItems noMembers (sameTrans v (Value.leafLawful noItems noMembers)
        (Value.leafLawful noItems' noMembers') (Value.leafLawful noItems'' noMembers'') same same')

end Layer

section Alike
variable {R : Reader κ} {R' : Reader κ'} {R'' : Reader κ''} {n : Nat} {x : κ × Value}
  {y : κ' × Value} {z : κ'' × Value}

theorem Alike.refl (R : Reader κ) (n : Nat) (x : κ × Value) : Alike R R n x x := by
  induction n generalizing x with
  | zero => trivial
  | succ n ih =>
    by_cases ends : ∃ a, R.Leads x a
    · obtain ⟨a, leads⟩ := ends
      exact .inl ⟨a, a, leads, leads, .refl ih a.1 a.2⟩
    · have never := not_exists.mp ends
      exact .inr ⟨never, never⟩

theorem Alike.trans (h : Alike R R' n x y) (h' : Alike R' R'' n y z) : Alike R R'' n x z := by
  induction n generalizing x y z with
  | zero => trivial
  | succ n ih =>
    rcases h with ⟨a, b, leads, leads', parts⟩ | ⟨never, never'⟩
    · rcases h' with ⟨b', c, again, leads'', parts'⟩ | ⟨impossible, _⟩
      · cases leads'.unique again
        refine .inl ⟨a, c, leads, leads'', (parts.trans parts').mono ?_⟩
        rintro _ _ ⟨_, related, related'⟩
        exact ih related related'
      · exact absurd leads' (impossible b)
    · rcases h' with ⟨b', _, again, _, _⟩ | ⟨_, never''⟩
      · exact absurd again (never' b')
      · exact .inr ⟨never, never''⟩

theorem Means.refl (R : Reader κ) (x : κ × Value) : Means R R x x := fun n => Alike.refl R n x

theorem Means.trans (h : Means R R' x y) (h' : Means R' R'' y z) : Means R R'' x z :=
  fun n => (h n).trans (h' n)

theorem Means.ends (h : Means R R' x y) : (∃ a, R.Leads x a) ↔ ∃ b, R'.Leads y b := by
  rcases h 1 with ⟨a, b, leads, leads', _⟩ | ⟨never, never'⟩
  · exact ⟨fun _ => ⟨b, leads'⟩, fun _ => ⟨a, leads⟩⟩
  · exact ⟨fun ⟨a, leads⟩ => absurd leads (never a), fun ⟨b, leads⟩ => absurd leads (never' b)⟩

theorem Means.atEnds {a : κ × Value} {b : κ' × Value} (h : Means R R' x y) (leads : R.Leads x a)
    (leads' : R'.Leads y b) : Means R R' a b := by
  have settled : R.Leads a a := .here leads.plain
  have settled' : R'.Leads b b := .here leads'.plain
  intro n
  cases n with
  | zero => trivial
  | succ n =>
    rcases h (n + 1) with ⟨a', b', again, again', parts⟩ | ⟨never, _⟩
    · cases leads.unique again
      cases leads'.unique again'
      exact .inl ⟨a, b, settled, settled', parts⟩
    · exact absurd leads (never a)

theorem Means.member (key : String) {a : κ × Value} {u : Value} (h : Means R R' x y)
    (leads : R.Leads x a) (held : a.2.get? key = some u) :
    ∃ b u', R'.Leads y b ∧ b.2.get? key = some u' ∧ Means R R' (a.1, u) (b.1, u') := by
  have at_ : ∀ n, ∃ b u', R'.Leads y b ∧ b.2.get? key = some u' ∧
      Alike R R' n (a.1, u) (b.1, u') := by
    intro n
    rcases h (n + 1) with ⟨a', b, again, leads', parts⟩ | ⟨never, _⟩
    · cases leads.unique again
      obtain ⟨k, v⟩ := a
      obtain ⟨k', w⟩ := b
      cases parts with
      | items => simp [Value.get?] at held
      | members each =>
        have part := each key
        rw [show List.lookup key _ = some u from held] at part
        obtain ⟨u', held', related⟩ := relFrom part
        exact ⟨_, u', leads', held', related⟩
      | leaf _ noMembers => cases v <;> simp [Value.get?, Value.members?] at held noMembers
    · exact absurd leads (never a)
  obtain ⟨b, u', leads', held', _⟩ := at_ 0
  refine ⟨b, u', leads', held', fun n => ?_⟩
  obtain ⟨b', u'', again, held'', related⟩ := at_ n
  cases leads'.unique again
  cases held'.symm.trans held''
  exact related

/- A relation that leads to ends with related parts, or to none on both sides, relates values of
one meaning. -/
theorem Means.ofSteps {S : κ × Value → κ' × Value → Prop}
    (forth : ∀ x y a, S x y → R.Leads x a →
      ∃ b, R'.Leads y b ∧ Layer S a.1 b.1 a.2 b.2)
    (back : ∀ x y b, S x y → R'.Leads y b → ∃ a, R.Leads x a) (related : S x y) :
    Means R R' x y := by
  intro n
  induction n generalizing x y with
  | zero => trivial
  | succ n ih =>
    by_cases ends : ∃ a, R.Leads x a
    · obtain ⟨a, leads⟩ := ends
      obtain ⟨b, leads', parts⟩ := forth x y a related leads
      exact .inl ⟨a, b, leads, leads', parts.mono fun _ _ => ih⟩
    · refine .inr ⟨not_exists.mp ends, fun b leads' => ends ?_⟩
      exact back x y b related leads'

end Alike

inductive Chain (doc : Value) : List String → Value → Prop
  | last {p v} (found : lookup doc p = .ok v) (plain : refOf v = none) : Chain doc [p] v
  | more {p q ps v a} (found : lookup doc p = .ok v) (named : refOf v = some q)
      (rest : Chain doc (q :: ps) a) : Chain doc (p :: q :: ps) a

namespace Chain
variable {doc a b : Value} {p : String} {ps qs : List String}

theorem unique (h : Chain doc (p :: ps) a) (h' : Chain doc (p :: qs) b) : ps = qs := by
  generalize same : p :: ps = l at h
  induction h generalizing p ps qs with
  | last found plain =>
    obtain ⟨rfl, rfl⟩ := List.cons.inj same
    cases h' with
    | last => rfl
    | more found' named =>
      cases found.symm.trans found'
      simp [plain] at named
  | more found named _ ih =>
    obtain ⟨rfl, rfl⟩ := List.cons.inj same
    cases h' with
    | last found' plain =>
      cases found.symm.trans found'
      simp [plain] at named
    | more found' named' rest' =>
      cases found.symm.trans found'
      cases named.symm.trans named'
      rw [ih rest' rfl]

theorem suffix (h : Chain doc ps a) {pre : List String} (split : ps = pre ++ p :: qs) :
    Chain doc (p :: qs) a := by
  induction h generalizing pre with
  | last found plain =>
    cases pre with
    | nil =>
      obtain ⟨rfl, rfl⟩ := List.cons.inj split
      exact .last found plain
    | cons => simp at split
  | more found named rest ih =>
    cases pre with
    | nil =>
      obtain ⟨rfl, rfl⟩ := List.cons.inj split
      exact .more found named rest
    | cons _ pre => exact ih (List.cons.inj split).2

theorem once (h : Chain doc ps a) : ps.Nodup := by
  induction h with
  | last => simp
  | @more p q ps v a found named rest ih =>
    refine List.nodup_cons.mpr ⟨fun mem => ?_, ih⟩
    obtain ⟨pre, post, split⟩ := List.append_of_mem mem
    have again := rest.suffix split
    have same := again.unique (.more found named rest)
    have lengths := congrArg List.length split
    simp [same] at lengths
    omega

theorem listed (h : Chain doc (p :: ps) a) : ps ⊆ doc.pointers := by
  generalize same : p :: ps = l at h
  induction h generalizing p ps with
  | last =>
    obtain ⟨_, rfl⟩ := List.cons.inj same
    simp
  | more found named _ ih =>
    obtain ⟨_, rfl⟩ := List.cons.inj same
    exact List.cons_subset.mpr ⟨Tree.refAt (lookupSource found).2 named, ih rfl⟩

theorem followed (seen : List String) (steps : Nat) (h : Chain doc (p :: ps) a)
    (fresh : ∀ q ∈ p :: ps, q ∉ seen) (enough : ps.length < steps) :
    ∃ last, follow doc steps seen p = .ok ⟨a, some last⟩ := by
  generalize same : p :: ps = l at h
  induction h generalizing p ps seen steps with
  | last found plain =>
    obtain ⟨rfl, rfl⟩ := List.cons.inj same
    obtain ⟨steps, rfl⟩ : ∃ n, steps = n + 1 := ⟨steps - 1, by omega⟩
    have new : seen.contains p = false := by simpa using fresh p
    exact ⟨p, by simp only [follow, new, Bool.false_eq_true, if_false, found, plain]⟩
  | @more _ q qs v a found named rest ih =>
    obtain ⟨rfl, rfl⟩ := List.cons.inj same
    obtain ⟨steps, rfl⟩ : ∃ n, steps = n + 1 := ⟨steps - 1, by omega⟩
    have new : seen.contains p = false := by
      simpa using fresh p List.mem_cons_self
    have apart := (Chain.more found named rest).once
    have further : ∀ r ∈ q :: qs, r ∉ p :: seen := by
      rintro r mem (_ | ⟨_, old⟩)
      · exact (List.nodup_cons.mp apart).1 mem
      · exact fresh r (List.mem_cons_of_mem _ mem) old
    obtain ⟨last, told⟩ := ih _ _ further (Nat.lt_of_succ_lt_succ enough) rfl
    exact ⟨last, by simp only [follow, new, Bool.false_eq_true, if_false, found, named]; exact told⟩

end Chain

section Resolution
variable {doc v a : Value}

theorem readDocument {p : String} {x : Unit × Value} :
    (Reader.ofDocument doc).read () p = some x ↔ lookup doc p = .ok x.2 := by
  cases found : lookup doc p <;> simp [Reader.ofDocument, found, Except.toOption, Prod.ext_iff]

theorem chainOfLeads {x : Unit × Value} {y : Unit × Value}
    (leads : (Reader.ofDocument doc).Leads x y) {p : String} (named : refOf x.2 = some p) :
    ∃ ps, Chain doc (p :: ps) y.2 := by
  induction leads generalizing p with
  | here plain => simp [plain] at named
  | @step _ v q x a named' read rest ih =>
    cases named.symm.trans named'
    have found := readDocument.mp read
    cases further : refOf x.2 with
    | none =>
      cases rest with
      | here => exact ⟨[], .last found further⟩
      | step impossible => simp [further] at impossible
    | some q =>
      obtain ⟨ps, chain⟩ := ih further
      exact ⟨q :: ps, .more found further chain⟩

theorem leadsOfFollow {steps : Nat} {seen : List String} {p : String} {r : Resolved}
    (h : follow doc steps seen p = .ok r) (named : refOf v = some p) :
    (Reader.ofDocument doc).Leads ((), v) ((), r.value) := by
  induction steps generalizing seen p v with
  | zero => simp [follow] at h
  | succ steps ih =>
    simp only [follow] at h
    split at h
    · contradiction
    · split at h
      · contradiction
      · rename_i w found
        refine .step named (x := ((), w)) (readDocument.mpr found) ?_
        split at h
        · rename_i next further
          exact ih h further
        · rename_i plain
          cases h
          exact .here plain

theorem resolves : (∃ r, resolve doc v = .ok r ∧ r.value = a) ↔
    (Reader.ofDocument doc).Leads ((), v) ((), a) := by
  constructor
  · rintro ⟨r, resolved, rfl⟩
    unfold resolve at resolved
    split at resolved
    · rename_i plain
      cases resolved
      exact .here plain
    · rename_i p named
      exact leadsOfFollow resolved named
  · intro leads
    cases named : refOf v with
    | none =>
      have settled : (Reader.ofDocument doc).Leads ((), v) ((), v) := .here named
      cases leads.unique settled
      exact ⟨⟨v, none⟩, resolvePlain named, rfl⟩
    | some p =>
      obtain ⟨ps, chain⟩ := chainOfLeads leads named
      have short : ps.length ≤ doc.pointers.length :=
        ((List.nodup_cons.mp chain.once).2.subperm chain.listed).length_le
      obtain ⟨last, told⟩ := chain.followed [] (doc.pointers.length + 2) (by simp) (by omega)
      exact ⟨⟨a, some last⟩, by simp [resolve, named, told], rfl⟩

end Resolution
end ApiGraph.Meaning
