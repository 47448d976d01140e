import ApiGraph.Proofs.Substitution
import ApiGraph.Session

/-! Where a chain of references comes to. It ends at a value that is no reference, it stops at a
pointer that is not local or names nothing, or it comes back to a pointer of its own. Resolving tells
these apart for every value: the loop over the chain always ends, and its bound is no part of the
answer. -/
namespace ApiGraph.Resolve
open Json Meaning Relation

inductive Names (doc : Value) : Value → Value → Prop
  | intro {v w p} (named : refOf v = some p) (hash : p.startsWith "#" = true)
      (found : Tree.get? (.ofPointer p) doc = some w) : Names doc v w

def Reaches (doc v a : Value) : Prop := ReflTransGen (Names doc) v a ∧ refOf a = none

def Strays (doc v : Value) : Prop :=
  ∃ w p, ReflTransGen (Names doc) v w ∧ refOf w = some p ∧ p.startsWith "#" = false

def Leaves (doc v : Value) : Prop :=
  ∃ w p, ReflTransGen (Names doc) v w ∧ refOf w = some p ∧ p.startsWith "#" = true ∧
    Tree.get? (.ofPointer p) doc = none

def Returns (doc v : Value) : Prop :=
  ∃ u w p, ReflTransGen (Names doc) v u ∧ refOf u = some p ∧ TransGen (Names doc) u w ∧
    refOf w = some p

/- The loop over a chain, without a bound; `seen` are the pointers so far, the latest first. -/
inductive Loop (doc : Value) : List String → String → Except ResolveError Resolved → Prop
  | back {seen p} (mem : p ∈ seen) :
      Loop doc seen p (.error (.unresolvable (joined " -> " (p :: seen).reverse)))
  | lost {seen p e} (fresh : p ∉ seen) (failed : lookup doc p = .error e) :
      Loop doc seen p (.error e)
  | ends {seen p v} (fresh : p ∉ seen) (found : lookup doc p = .ok v) (plain : refOf v = none) :
      Loop doc seen p (.ok ⟨v, some p⟩)
  | more {seen p v q answer} (fresh : p ∉ seen) (found : lookup doc p = .ok v)
      (named : refOf v = some q) (rest : Loop doc (p :: seen) q answer) : Loop doc seen p answer

inductive Answered (doc : Value) : Value → Except ResolveError Resolved → Prop
  | plain {v} (plain : refOf v = none) : Answered doc v (.ok ⟨v, none⟩)
  | chain {v p answer} (named : refOf v = some p) (loop : Loop doc [] p answer) :
      Answered doc v answer

section Following
variable {doc v w a : Value} {p : String}

theorem namesLookup : Names doc v w ↔ ∃ p, refOf v = some p ∧ lookup doc p = .ok w := by
  constructor
  · rintro ⟨named, hash, found⟩
    exact ⟨_, named, lookupIff.mpr ⟨hash, found⟩⟩
  · rintro ⟨p, named, found⟩
    obtain ⟨hash, there⟩ := lookupIff.mp found
    exact ⟨named, hash, there⟩

theorem Names.unique {x y : Value} (h : Names doc v x) (h' : Names doc v y) : x = y := by
  obtain ⟨p, named, found⟩ := namesLookup.mp h
  obtain ⟨q, named', found'⟩ := namesLookup.mp h'
  cases named.symm.trans named'
  cases found.symm.trans found'
  rfl

theorem reachesLeads : Reaches doc v a ↔ (Reader.ofDocument doc).Leads ((), v) ((), a) := by
  constructor
  · rintro ⟨way, plain⟩
    induction way using ReflTransGen.head_induction_on with
    | refl => exact .here plain
    | head step _ ih =>
      obtain ⟨p, named, found⟩ := namesLookup.mp step
      exact .step (x := ((), _)) named (readDocument.mpr found) ih
  · intro leads
    generalize start : ((), v) = x at leads
    generalize finish : ((), a) = y at leads
    induction leads generalizing v with
    | here plain =>
      cases start
      cases finish
      exact ⟨.refl, plain⟩
    | step named read _ ih =>
      cases start
      obtain ⟨way, plain⟩ := ih rfl finish
      exact ⟨.head (namesLookup.mpr ⟨_, named, readDocument.mp read⟩) way, plain⟩

theorem Reaches.onward (h : Reaches doc v a) (way : ReflTransGen (Names doc) v w) :
    Reaches doc w a := by
  induction way with
  | refl => exact h
  | tail _ step ih =>
    obtain ⟨rest, plain⟩ := ih
    rcases rest.cases_head with rfl | ⟨x, first, rest⟩
    · obtain ⟨p, named, _⟩ := namesLookup.mp step
      rw [plain] at named
      contradiction
    · exact ⟨step.unique first ▸ rest, plain⟩

theorem chainLeft {u : Value} {ps : List String} {q : String} (chain : Chain doc (p :: ps) a)
    (named : refOf u = some p) (way : TransGen (Names doc) u w) (named' : refOf w = some q) :
    ∃ qs, Chain doc (q :: qs) a ∧ qs.length < ps.length := by
  have one : ∀ {u x : Value} {p r : String} {ps : List String}, Chain doc (p :: ps) a →
      refOf u = some p → Names doc u x → refOf x = some r →
      ∃ rs, Chain doc (r :: rs) a ∧ rs.length < ps.length := by
    intro u x p r ps chain named step further
    obtain ⟨p', again, found⟩ := namesLookup.mp step
    cases named.symm.trans again
    cases chain with
    | last found' plain =>
      cases found.symm.trans found'
      rw [plain] at further
      contradiction
    | more found' named' rest =>
      cases found.symm.trans found'
      cases named'.symm.trans further
      exact ⟨_, rest, by simp⟩
  induction way using TransGen.head_induction_on generalizing p ps with
  | single step => exact one chain named step named'
  | head step rest ih =>
    obtain ⟨y, next, _⟩ := TransGen.head'_iff.mp rest
    obtain ⟨r, further, _⟩ := namesLookup.mp next
    obtain ⟨rs, chain', less⟩ := one chain named step further
    obtain ⟨qs, chain'', less'⟩ := ih chain' further
    exact ⟨qs, chain'', by omega⟩

theorem Reaches.unbroken (h : Reaches doc v a) : ¬ (Leaves doc v ∨ Strays doc v ∨ Returns doc v) := by
  have goes : ∀ {w p}, ReflTransGen (Names doc) v w → refOf w = some p →
      p.startsWith "#" = true ∧ ∃ x, Tree.get? (.ofPointer p) doc = some x := by
    intro w p way named
    obtain ⟨rest, plain⟩ := h.onward way
    rcases rest.cases_head with rfl | ⟨x, step, _⟩
    · rw [plain] at named
      contradiction
    · obtain ⟨again, hash, found⟩ := step
      cases named.symm.trans again
      exact ⟨hash, x, found⟩
  rintro (⟨w, p, way, named, _, absent⟩ | ⟨w, p, way, named, foreign⟩ |
    ⟨u, w, p, way, named, round, again⟩)
  · obtain ⟨_, x, found⟩ := goes way named
    rw [absent] at found
    contradiction
  · rw [(goes way named).1] at foreign
    contradiction
  · obtain ⟨ps, chain⟩ := chainOfLeads (reachesLeads.mp (h.onward way)) named
    obtain ⟨qs, chain', less⟩ := chainLeft chain named round again
    rw [chain.unique chain'] at less
    omega

theorem lookupFailed {e : ResolveError} (h : lookup doc p = .error e) : e = .unresolvable p ∧
    (p.startsWith "#" = true → Tree.get? (.ofPointer p) doc = none) := by
  unfold lookup at h
  split at h
  · split at h
    · contradiction
    · rename_i absent
      cases h
      exact ⟨rfl, fun _ => absent⟩
  · rename_i foreign
    cases h
    exact ⟨rfl, fun hash => absurd hash foreign⟩

/- The pointers of a chain are its first one and those of the document, so a loop that has made as many
turns as there are pointers has ended. -/
theorem followLoop (first : String) {steps : Nat} {seen : List String}
    (listed : p :: seen ⊆ first :: doc.pointers) (once : seen.Nodup)
    (enough : doc.pointers.length + 2 ≤ steps + seen.length) :
    Loop doc seen p (follow doc steps seen p) := by
  induction steps generalizing seen p with
  | zero =>
    have inside : seen ⊆ first :: doc.pointers :=
      List.Subset.trans (List.subset_cons_self p seen) listed
    have short := (once.subperm inside).length_le
    rw [List.length_cons] at short
    omega
  | succ steps ih =>
    simp only [follow]
    split
    · rename_i met
      exact .back (by simpa using met)
    · rename_i new
      have fresh : p ∉ seen := by simpa using new
      split
      · exact .lost fresh ‹_›
      · rename_i w found
        split
        · rename_i q named
          have within := List.mem_cons_of_mem first (Tree.refAt (lookupSource found).2 named)
          refine .more fresh found named (ih (List.cons_subset.mpr ⟨within, listed⟩)
            (List.nodup_cons.mpr ⟨fresh, once⟩) ?_)
          rw [List.length_cons]
          omega
        · exact .ends fresh found ‹_›

theorem resolveAnswered (doc v : Value) : Answered doc v (resolve doc v) := by
  cases named : refOf v with
  | none =>
    rw [resolvePlain named]
    exact .plain named
  | some p =>
    have loop : Loop doc [] p (follow doc (doc.pointers.length + 2) [] p) :=
      followLoop p (by simp) .nil (by simp)
    simp only [resolve, named]
    exact .chain named loop

theorem Loop.failed {seen : List String} {answer : Except ResolveError Resolved} {e : ResolveError}
    (loop : Loop doc seen p answer) (fails : answer = .error e) (way : ReflTransGen (Names doc) v w)
    (named : refOf w = some p) (passed : ∀ q ∈ seen, ∃ u, ReflTransGen (Names doc) v u ∧
      refOf u = some q ∧ TransGen (Names doc) u w) :
    (∃ text, e = .unresolvable text) ∧ (Leaves doc v ∨ Strays doc v ∨ Returns doc v) := by
  induction loop generalizing w with
  | back mem =>
    cases fails
    obtain ⟨u, way', named', round⟩ := passed _ mem
    exact ⟨⟨_, rfl⟩, .inr (.inr ⟨u, w, _, way', named', round, named⟩)⟩
  | @lost _ p _ _ failed =>
    cases fails
    obtain ⟨rfl, absent⟩ := lookupFailed failed
    refine ⟨⟨_, rfl⟩, ?_⟩
    cases hash : p.startsWith "#" with
    | true => exact .inl ⟨w, p, way, named, hash, absent hash⟩
    | false => exact .inr (.inl ⟨w, p, way, named, hash⟩)
  | ends => contradiction
  | @more seen p x q _ _ found further _ ih =>
    have step : Names doc w x := namesLookup.mpr ⟨p, named, found⟩
    refine ih fails (way.tail step) further fun r mem => ?_
    rcases List.mem_cons.mp mem with rfl | old
    · exact ⟨w, way, named, .single step⟩
    · obtain ⟨u, way', named', round⟩ := passed r old
      exact ⟨u, way', named', round.tail step⟩

structure Followed (s : Session) (doc v : Value) : Prop where
  ends : ∃ answer, Answered doc v answer ∧ s.resolve v = answer.mapError .resolve
  reached : ∀ a, (∃ r, s.resolve v = .ok r ∧ r.value = a) ↔ Reaches doc v a
  unreferred : ∀ r, s.resolve v = .ok r → (r.pointer = none ↔ refOf v = none)
  placed : ∀ r, s.resolve v = .ok r → refOf v ≠ none →
    ∃ l, r.location? = some l ∧ Tree.get? l doc = some r.value ∧ s.resolveAt l = .ok (r.value, l)
  unresolvable : (∃ text, s.resolve v = .error (.resolve (.unresolvable text))) ↔
    Leaves doc v ∨ Strays doc v ∨ Returns doc v

theorem sessionResolves {r : Resolved} :
    Session.resolve ⟨some doc⟩ v = .ok r ↔ resolve doc v = .ok r := by
  have same : Session.resolve ⟨some doc⟩ v = (resolve doc v).mapError .resolve := rfl
  rw [same]
  cases resolve doc v <;> simp [Except.mapError]

theorem resolvedChain {r : Resolved} (resolved : resolve doc v = .ok r) (named : refOf v = some p) :
    ∃ l, r.location? = some l ∧ Tree.get? l doc = some r.value := by
  rcases resolvedSource resolved with ⟨plain, _⟩ | source
  · rw [named] at plain
    contradiction
  · exact source

theorem resolveFails {e : ResolveError} (failed : resolve doc v = .error e) :
    (∃ text, e = .unresolvable text) ∧ (Leaves doc v ∨ Strays doc v ∨ Returns doc v) := by
  have answered := resolveAnswered doc v
  rw [failed] at answered
  cases answered with
  | chain named loop => exact loop.failed rfl .refl named fun q none => nomatch none

/- Following references is what resolving does, for every value and every document. -/
theorem referencesFollowed (doc v : Value) : Followed ⟨some doc⟩ doc v where
  ends := ⟨resolve doc v, resolveAnswered doc v, rfl⟩
  reached a := by
    simp only [sessionResolves]
    rw [resolves, reachesLeads]
  unreferred r resolved := by
    have found := sessionResolves.mp resolved
    constructor
    · intro absent
      cases named : refOf v with
      | none => rfl
      | some p =>
        obtain ⟨l, placed, _⟩ := resolvedChain found named
        rw [Resolved.location?, absent] at placed
        contradiction
    · intro plain
      cases (resolvePlain plain).symm.trans found
      rfl
  placed r resolved referred := by
    have found := sessionResolves.mp resolved
    obtain ⟨p, named⟩ := Option.ne_none_iff_exists'.mp referred
    obtain ⟨l, placed, there⟩ := resolvedChain found named
    refine ⟨l, placed, there, ?_⟩
    have again : Session.resolveAt ⟨some doc⟩ l = (resolveAt doc l).mapError .resolve := rfl
    rw [again, resolveAtFinal there (resolvedPlain found)]
    rfl
  unresolvable := by
    have same : Session.resolve ⟨some doc⟩ v = (resolve doc v).mapError .resolve := rfl
    rw [same]
    constructor
    · rintro ⟨text, failed⟩
      cases told : resolve doc v with
      | ok r => simp [told, Except.mapError] at failed
      | error e => exact (resolveFails told).2
    · intro broken
      cases told : resolve doc v with
      | ok r => exact absurd broken (reachesLeads.mpr (resolves.mp ⟨r, told, rfl⟩)).unbroken
      | error e =>
        obtain ⟨text, rfl⟩ := (resolveFails told).1
        exact ⟨text, rfl⟩

end Following
end ApiGraph.Resolve
