import ApiGraph.Proofs.SiteEdits
import Mathlib.Data.Finset.Sort
import Mathlib.Data.String.Basic

/-! What a fingerprint tells of the structure of a schema. It is made of the structure alone. The words
of a structure stand in it one after the other with nothing between them, so that two structures may
share one; they cannot if no word that one of them has more often begins another word of the other. -/
namespace ApiGraph.Fingerprint
open Json ApiGraph.Tree Hoist

inductive Structure
  | object (names required : Finset String) (declared : required ⊆ names) (additional : Bool)
  | enum (literals : Multiset String)
  deriving DecidableEq

def structureOf (schema : Value) : Option Structure :=
  let kind := schema.textAt? "type"
  let properties := schema.membersAt? "properties"
  let additional := (schema.get? "additionalProperties").any Value.isObject
  if kind == some "object" || properties.isSome then
    let names := (Entries.keys (properties.getD [])).toFinset
    if names = ∅ && !additional then none
    else some (.object names (names.filter (· ∈ schema.textsAt "required"))
      (Finset.filter_subset _ _) additional)
  else if kind == some "string" then
    (schema.itemsAt? "enum").map fun values => .enum (values.map literal)
  else none

namespace Structure

def words : Structure → List (String × Bool)
  | .object names required _ _ => names.sort.map fun name => (name, decide (name ∈ required))
  | .enum literals => literals.sort.map fun literal => (literal, false)

def closed : Structure → Bool
  | .object _ _ _ additional => additional
  | .enum _ => false

def isObject : Structure → Bool
  | .object .. => true
  | .enum _ => false

end Structure

def spell (words : List (String × Bool)) (closed : Bool) : List Char :=
  words.flatMap (fun w => w.1.toList ++ if w.2 then ['!'] else []) ++ if closed then ['+'] else []

def Structure.text (σ : Structure) : String :=
  String.ofList ((if σ.isObject then 'O' else 'E') :: spell σ.words σ.closed)

theorem sortedTexts (xs : List String) : (sortTexts xs).Pairwise (· ≤ ·) := by
  have ranks : ∀ a b : String, decide (¬ b < a) = true ↔ a ≤ b := fun a b => by
    rw [decide_eq_true_iff, not_lt]
  refine (Stable.sortSorted (S := fun _ _ => True) (fun a b => ?_) (fun a b c => ?_)
    (List.pairwise_of_forall fun _ _ => trivial)).imp fun h => (ranks _ _).mp h.1
  · rw [ranks, ranks]
    exact le_total a b
  · rw [ranks, ranks, ranks]
    exact le_trans

theorem sortedUnique {xs ys : List String} (sorted : xs.Pairwise (· ≤ ·))
    (sorted' : ys.Pairwise (· ≤ ·)) (perm : xs.Perm ys) : xs = ys :=
  perm.eq_of_pairwise (fun _ _ _ _ h h' => le_antisymm h h') sorted sorted'

theorem sortTextsMultiset (xs : List String) : sortTexts xs = (xs : Multiset String).sort := by
  refine sortedUnique (sortedTexts xs) (Multiset.pairwise_sort _ _) ?_
  refine (Stable.sortPerm _ xs).trans (Multiset.coe_eq_coe.mp ?_)
  rw [Multiset.sort_eq]

theorem sortTextsFinset {xs : List String} (once : xs.Nodup) :
    sortTexts xs = xs.toFinset.sort := by
  rw [sortTextsMultiset, ← Finset.sort_val, List.toFinset_val, once.dedup]

theorem objectText {properties : Members} (once : (Entries.keys properties).Nodup)
    (required : List String) (additional : Bool) :
    ofObject properties required additional =
      (Structure.object (Entries.keys properties).toFinset
        ((Entries.keys properties).toFinset.filter (· ∈ required)) (Finset.filter_subset _ _)
        additional).text := by
  have marked : ∀ name ∈ (Entries.keys properties).toFinset.sort,
      (if required.contains name then name ++ "!" else name).toList =
        name.toList ++ if decide (name ∈ (Entries.keys properties).toFinset.filter (· ∈ required))
          then ['!'] else [] := by
    intro name mem
    have known : name ∈ (Entries.keys properties).toFinset := (Finset.mem_sort _).mp mem
    by_cases listed : name ∈ required <;> simp [Finset.mem_filter, known, listed]
  rw [← String.toList_inj]
  simp only [ofObject, Structure.text, Structure.words, Structure.closed, Structure.isObject, spell,
    sortTextsFinset once, String.toList_append, String.toList_join, String.toList_ofList,
    List.flatMap_map]
  rw [List.flatMap_congr marked]
  cases additional <;> simp

theorem enumText (values : List Value) :
    ofEnum values = (Structure.enum (values.map literal)).text := by
  rw [← String.toList_inj]
  simp [ofEnum, Structure.text, Structure.words, Structure.closed, Structure.isObject, spell,
    sortTextsMultiset, List.flatMap_map]

theorem fingerprintText {schema : Value} (lawful : schema.lawful = true) :
    fingerprint schema = (structureOf schema).map Structure.text := by
  have once : (Entries.keys ((schema.membersAt? "properties").getD [])).Nodup := by
    cases held : schema.membersAt? "properties" with
    | none => simp [Entries.keys]
    | some members =>
      have at_ : Tree.get? ⟨["properties"]⟩ schema = some (.obj members) :=
        childAt (l := .root) rfl (Value.membersAtSome held)
      exact (Value.lawfulObject.mp (lawfulAt lawful at_)).1
  unfold fingerprint structureOf
  simp only [objectText once]
  have none : ((schema.membersAt? "properties").getD []).isEmpty =
      decide ((Entries.keys ((schema.membersAt? "properties").getD [])).toFinset = ∅) := by
    cases (schema.membersAt? "properties").getD [] <;> simp [Entries.keys]
  rw [none]
  split
  · split <;> simp_all
  · split
    · cases schema.itemsAt? "enum" <;> simp [enumText]
    · rfl

/- No word that stands in `more` more often than in `less` is empty or begins another word of `less`. -/
def Tellable (more less : Multiset String) : Prop :=
  ∀ w ∈ more, less.count w < more.count w →
    w ≠ "" ∧ ∀ u ∈ less, w.toList <+: u.toList → u = w

instance (more less : Multiset String) : Decidable (Tellable more less) := by
  unfold Tellable
  infer_instance

def bare (words : List (String × Bool)) : Multiset String := (words.map Prod.fst : List String)

def Unmarked (w : String) : Prop := ∀ c r, w.toList = c :: r → c ≠ '!' ∧ c ≠ '+'

instance (w : String) : Decidable (Unmarked w) :=
  match held : w.toList with
  | [] => .isTrue fun c r same => by simp [held] at same
  | c :: r =>
    decidable_of_iff (c ≠ '!' ∧ c ≠ '+') ⟨fun h c' r' same => by simp_all, fun h => h c r held⟩

def Worded (words : List (String × Bool)) (closed object : Bool) : Prop :=
  if object then (words.map Prod.fst).Pairwise (· < ·) ∧ ∀ x ∈ words, Unmarked x.1
  else closed = false ∧ ∀ x ∈ words, x.2 = false

section Words
variable {xs ys : List (String × Bool)} {x y : String × Bool} {c d object : Bool}

theorem Worded.tail (h : Worded (x :: xs) c object) : Worded xs c object := by
  cases object with
  | true => exact ⟨(List.pairwise_cons.mp h.1).2, fun y mem => h.2 y (List.mem_cons_of_mem _ mem)⟩
  | false => exact ⟨h.1, fun y mem => h.2 y (List.mem_cons_of_mem _ mem)⟩

theorem Tellable.tail {w : String} {more less : Multiset String}
    (h : Tellable (w ::ₘ more) (w ::ₘ less)) : Tellable more less := by
  intro v mem fewer
  have again : (w ::ₘ less).count v < (w ::ₘ more).count v := by
    rw [Multiset.count_cons, Multiset.count_cons]
    omega
  obtain ⟨filled, begins⟩ := h v (Multiset.mem_cons_of_mem mem) again
  exact ⟨filled, fun u inside => begins u (Multiset.mem_cons_of_mem inside)⟩

theorem spellCons (x : String × Bool) (xs : List (String × Bool)) (c : Bool) :
    spell (x :: xs) c = x.1.toList ++ ((if x.2 then ['!'] else []) ++ spell xs c) := by
  simp [spell]

theorem filledHead {w : String} (filled : w ≠ "") : ∃ c r, w.toList = c :: r := by
  cases held : w.toList with
  | nil => exact absurd (String.toList_inj.mp held) filled
  | cons c r => exact ⟨c, r, rfl⟩

theorem emptyTold (worded : Worded [] c object) (worded' : Worded (y :: ys) d object)
    (told : Tellable (bare (y :: ys)) (bare [])) : spell [] c ≠ spell (y :: ys) d := by
  obtain ⟨filled, _⟩ := told y.1 (by simp [bare]) (by simp [bare])
  obtain ⟨a, r, begins⟩ := filledHead filled
  rw [spellCons, begins]
  cases object with
  | true =>
    have plain := (worded'.2 y List.mem_cons_self a r begins).2
    cases c <;> simp [spell, Ne.symm plain]
  | false => simp [spell, worded.1]

theorem firstTold (sorted : (y :: ys).Pairwise fun a b => a.1 ≤ b.1) (less : x.1 < y.1)
    (told : Tellable (bare (x :: xs)) (bare (y :: ys))) : spell (x :: xs) c ≠ spell (y :: ys) d := by
  intro same
  have absent : x.1 ∉ bare (y :: ys) := by
    simp only [bare, Multiset.mem_coe, List.map_cons, List.mem_cons, List.mem_map, not_or, not_exists,
      not_and]
    refine ⟨less.ne, fun z mem equal => ?_⟩
    have above := (List.pairwise_cons.mp sorted).1 z mem
    rw [equal] at above
    exact absurd less (not_lt.mpr above)
  have counted : (bare (y :: ys)).count x.1 < (bare (x :: xs)).count x.1 := by
    rw [Multiset.count_eq_zero_of_notMem absent]
    exact Multiset.count_pos.mpr (by simp [bare])
  have begins := (told x.1 (by simp [bare]) counted).2 y.1 (by simp [bare])
  rw [spellCons, spellCons] at same
  rcases List.prefix_or_prefix_of_prefix (List.prefix_append x.1.toList _)
    (same ▸ List.prefix_append y.1.toList _) with inside | around
  · exact less.ne (begins inside).symm
  · exact around.le less

theorem markTold (worded : Worded (y :: ys) d true) (r : List Char) : '!' :: r ≠ spell ys d := by
  cases ys with
  | nil => cases d <;> simp [spell]
  | cons z zs =>
    have above : y.1 < z.1 :=
      (List.pairwise_cons.mp worded.1).1 z.1 (List.mem_map.mpr ⟨z, List.mem_cons_self, rfl⟩)
    have filled : z.1 ≠ "" := fun empty => by
      rw [empty] at above
      exact List.not_lt_nil _ above
    obtain ⟨a, more, begins⟩ := filledHead filled
    have plain := (worded.2 z (List.mem_cons_of_mem _ List.mem_cons_self) a more begins).1
    rw [spellCons, begins]
    simp [Ne.symm plain]

theorem marksAlike (worded : Worded (x :: xs) c object) (worded' : Worded (y :: ys) d object)
    (rest : (if x.2 then ['!'] else []) ++ spell xs c = (if y.2 then ['!'] else []) ++ spell ys d) :
    x.2 = y.2 := by
  cases object with
  | false => rw [worded.2 x List.mem_cons_self, worded'.2 y List.mem_cons_self]
  | true =>
    cases marked : x.2 <;> cases marked' : y.2 <;> rw [marked, marked'] at rest
    · exact absurd rest.symm (markTold worded _)
    · exact absurd rest (markTold worded' _)

/- Words that are written alike are the same: where they differ first, the one that comes first in the
order has no equal in the other list. -/
theorem spelledAlike (worded : Worded xs c object) (worded' : Worded ys d object)
    (sorted : xs.Pairwise fun a b => a.1 ≤ b.1) (sorted' : ys.Pairwise fun a b => a.1 ≤ b.1)
    (told : Tellable (bare xs) (bare ys)) (told' : Tellable (bare ys) (bare xs))
    (same : spell xs c = spell ys d) : xs = ys ∧ c = d := by
  induction xs generalizing ys with
  | nil =>
    cases ys with
    | nil => cases c <;> cases d <;> simp_all [spell]
    | cons y ys => exact absurd same (emptyTold worded worded' told')
  | cons x xs ih =>
    cases ys with
    | nil => exact absurd same.symm (emptyTold worded' worded told)
    | cons y ys =>
      rcases lt_trichotomy x.1 y.1 with less | equal | more
      · exact absurd same (firstTold sorted' less told)
      · rw [spellCons, spellCons, equal] at same
        have rest := List.append_cancel_left same
        have marks := marksAlike worded worded' rest
        rw [marks] at rest
        have words : ∀ zs, bare (x :: zs) = y.1 ::ₘ bare zs := fun zs => by simp [bare, equal]
        have words' : ∀ zs, bare (y :: zs) = y.1 ::ₘ bare zs := fun zs => by simp [bare]
        rw [words, words'] at told told'
        obtain ⟨more, ends⟩ := ih worded.tail worded'.tail (List.pairwise_cons.mp sorted).2
          (List.pairwise_cons.mp sorted').2 told.tail told'.tail (List.append_cancel_left rest)
        exact ⟨by rw [more, Prod.ext equal marks], ends⟩
      · exact absurd same.symm (firstTold sorted more told')

end Words

def Structure.vocabulary : Structure → Multiset String
  | .object names _ _ _ => names.val
  | .enum literals => literals

structure Legible (σ τ : Structure) : Prop where
  forth : Tellable σ.vocabulary τ.vocabulary
  back : Tellable τ.vocabulary σ.vocabulary
  unmarked : σ.isObject = true → ∀ w ∈ σ.vocabulary, Unmarked w
  unmarked' : τ.isObject = true → ∀ w ∈ τ.vocabulary, Unmarked w

namespace Structure
variable {σ τ : Structure}

theorem bareWords (σ : Structure) : bare σ.words = σ.vocabulary := by
  cases σ with
  | object names => simp [bare, words, vocabulary, Function.comp_def]
  | enum literals => simp [bare, words, vocabulary, Function.comp_def]

theorem sorted (σ : Structure) : σ.words.Pairwise fun a b => a.1 ≤ b.1 := by
  cases σ with
  | object names => simp [words, List.pairwise_map]
  | enum literals => simp [words, List.pairwise_map]

theorem worded (plain : σ.isObject = true → ∀ w ∈ σ.vocabulary, Unmarked w) :
    Worded σ.words σ.closed σ.isObject := by
  cases σ with
  | object names =>
    refine ⟨?_, fun x mem => plain rfl x.1 ?_⟩
    · simpa [words, Function.comp_def] using (Finset.sortedLT_sort names).pairwise
    · obtain ⟨name, listed, rfl⟩ := List.mem_map.mp mem
      exact (Finset.mem_sort _).mp listed
  | enum literals => exact ⟨rfl, by simp [words]⟩

theorem determined (kind : σ.isObject = τ.isObject) (same : σ.words = τ.words)
    (ends : σ.closed = τ.closed) : σ = τ := by
  have vocabulary : σ.vocabulary = τ.vocabulary := by rw [← bareWords, ← bareWords, same]
  cases σ with
  | object names required declared additional =>
    cases τ with
    | object names' required' declared' additional' =>
      cases Finset.val_injective vocabulary
      cases ends
      have listed : ∀ name ∈ names, (name ∈ required ↔ name ∈ required') := by
        intro name mem
        have inside : (name, decide (name ∈ required)) ∈
            words (.object names required declared additional) :=
          List.mem_map.mpr ⟨name, (Finset.mem_sort _).mpr mem, rfl⟩
        rw [same] at inside
        obtain ⟨name', _, equal⟩ := List.mem_map.mp inside
        cases congrArg Prod.fst equal
        exact (decide_eq_decide.mp (congrArg Prod.snd equal)).symm
      have sets : required = required' := by
        ext name
        exact ⟨fun mem => (listed name (declared mem)).mp mem,
          fun mem => (listed name (declared' mem)).mpr mem⟩
      subst sets
      rfl
    | enum => cases kind
  | enum literals =>
    cases τ with
    | object => cases kind
    | enum literals' =>
      cases (show literals = literals' from vocabulary)
      rfl

theorem textKind (same : σ.text = τ.text) : σ.isObject = τ.isObject := by
  have letters := congrArg String.toList same
  simp only [text, String.toList_ofList, List.cons.injEq] at letters
  cases kind : σ.isObject <;> cases kind' : τ.isObject <;> simp_all

theorem textTells (legible : Legible σ τ) (same : σ.text = τ.text) : σ = τ := by
  have kind := textKind same
  have letters := congrArg String.toList same
  simp only [text, String.toList_ofList, List.cons.injEq] at letters
  obtain ⟨words, ends⟩ := spelledAlike (worded legible.unmarked) (kind ▸ worded legible.unmarked')
    σ.sorted τ.sorted (by simpa only [bareWords] using legible.forth)
    (by simpa only [bareWords] using legible.back) letters.2
  exact determined kind words ends

end Structure

section Report
variable {doc : Value} {found : List Suggestion} {site : Site} {left : List Site}

theorem suggestStep (doc : Value) (found : List Suggestion) (site : Site) :
    suggest doc found site = found ∧ (∀ v, Tree.get? site.location doc = some v → preset v = none →
        ∃ g ∈ found, g.fingerprint = site.fingerprint) ∨
      ∃ hint, suggest doc found site = found ++ [⟨site.fingerprint, site.location, hint⟩] ∧
        ∀ g ∈ found, g.fingerprint ≠ site.fingerprint := by
  unfold suggest
  cases reads : Tree.get? site.location doc with
  | none => exact .inl ⟨rfl, fun v at_ => nomatch at_⟩
  | some schema =>
    simp only
    split
    · rename_i passed
      refine .inl ⟨rfl, ?_⟩
      rintro v ⟨⟩ nameless
      simpa [nameless] using passed
    · rename_i fresh
      refine .inr ⟨_, rfl, ?_⟩
      simp only [Bool.or_eq_true, not_or, List.any_eq_true, beq_iff_eq, not_exists, not_and] at fresh
      exact fresh.2

structure Lists (doc : Value) (left : List Site) (found all : List Suggestion) : Prop where
  grows : found ⊆ all
  sites : ∀ g ∈ all, g ∈ found ∨ ∃ site ∈ left, g.location = site.location ∧
    g.fingerprint = site.fingerprint
  once : (found.map Suggestion.fingerprint).Nodup → (all.map Suggestion.fingerprint).Nodup
  each : ∀ site ∈ left, ∀ v, Tree.get? site.location doc = some v → preset v = none →
    ∃ g ∈ all, g.fingerprint = site.fingerprint

theorem Lists.skip {all : List Suggestion} (h : Lists doc left found all)
    (listed : ∀ v, Tree.get? site.location doc = some v → preset v = none →
      ∃ g ∈ found, g.fingerprint = site.fingerprint) : Lists doc (site :: left) found all where
  grows := h.grows
  sites g mem := (h.sites g mem).imp_right fun ⟨t, later, same⟩ =>
    ⟨t, List.mem_cons_of_mem _ later, same⟩
  once := h.once
  each t mem v at_ nameless := by
    rcases List.mem_cons.mp mem with rfl | later
    · obtain ⟨g, inside, told⟩ := listed v at_ nameless
      exact ⟨g, h.grows inside, told⟩
    · exact h.each t later v at_ nameless

theorem Lists.list {all : List Suggestion} {hint : String}
    (h : Lists doc left (found ++ [⟨site.fingerprint, site.location, hint⟩]) all)
    (fresh : ∀ g ∈ found, g.fingerprint ≠ site.fingerprint) : Lists doc (site :: left) found all where
  grows := List.Subset.trans (List.subset_append_left _ _) h.grows
  sites g mem := by
    rcases h.sites g mem with old | ⟨t, later, same⟩
    · rcases List.mem_append.mp old with before | new
      · exact .inl before
      · rw [List.mem_singleton.mp new]
        exact .inr ⟨site, List.mem_cons_self, rfl, rfl⟩
    · exact .inr ⟨t, List.mem_cons_of_mem _ later, same⟩
  once distinct := by
    refine h.once ?_
    rw [List.map_append, List.nodup_append]
    exact ⟨distinct, by simp, by simpa using fresh⟩
  each t mem v at_ nameless := by
    rcases List.mem_cons.mp mem with rfl | later
    · exact ⟨_, h.grows (List.mem_append_right _ (List.mem_singleton.mpr rfl)), rfl⟩
    · exact h.each t later v at_ nameless

theorem suggestions (doc : Value) (left : List Site) (found : List Suggestion) :
    Lists doc left found (left.foldl (suggest doc) found) := by
  induction left generalizing found with
  | nil => exact ⟨List.Subset.refl _, fun g mem => .inl mem, id, fun site mem => nomatch mem⟩
  | cons site rest ih =>
    have further := ih (suggest doc found site)
    rw [List.foldl_cons]
    rcases suggestStep doc found site with ⟨same, listed⟩ | ⟨hint, added, fresh⟩
    · rw [same] at further ⊢
      exact further.skip listed
    · rw [added] at further ⊢
      exact further.list fresh

end Report

inductive Covers (names : List (String × String)) (key name fp : String) : Prop
  | exact (listed : names.lookup key = some name) (same : fp = key)
  | folded (listed : names.lookup key = some name) (other : names.lookup fp = none)
      (lowered : Text.lowercase fp = key)

theorem nameForCovers {names : List (String × String)} {site : Site} {v : Value} {name : String}
    (asked : nameFor names site v = some name) :
    (∃ key, Covers names key name site.fingerprint) ∨ preset v = some name := by
  simp only [nameFor] at asked
  cases exact_ : names.lookup site.fingerprint with
  | some other =>
    simp only [exact_, Option.some_or, Option.some.injEq] at asked
    exact .inl ⟨_, .exact (asked ▸ exact_) rfl⟩
  | none =>
    cases lowered : names.lookup (Text.lowercase site.fingerprint) with
    | some other =>
      simp only [exact_, lowered, Option.none_or, Option.some_or, Option.some.injEq] at asked
      exact .inl ⟨_, .folded (asked ▸ lowered) exact_ rfl⟩
    | none =>
      simp only [exact_, lowered, Option.none_or] at asked
      exact .inr asked

theorem loweredOther (σ τ : Structure) : Text.lowercase σ.text ≠ τ.text := by
  intro same
  have letters := congrArg String.toList same
  have upper : Text.lowerChar 'O' = ['o'] ∧ Text.lowerChar 'E' = ['e'] := by decide
  cases kind : σ.isObject <;> cases kind' : τ.isObject <;>
    simp [Structure.text, Text.lowercase, kind, kind', Text.lowerChars, upper] at letters

structure Told (s t : Value) (f g : String) (σ τ : Structure) : Prop where
  first : structureOf s = some σ
  second : structureOf t = some τ
  alike : σ = τ → f = g
  kind : f = g → σ.isObject = τ.isObject
  apart : Legible σ τ → (f = g ↔ σ = τ)

theorem schemasTold {s t : Value} {f g : String} (lawful : s.lawful = true)
    (lawful' : t.lawful = true) (told : fingerprint s = some f) (told' : fingerprint t = some g) :
    ∃ σ τ, Told s t f g σ τ ∧ f = σ.text ∧ g = τ.text := by
  rw [fingerprintText lawful] at told
  rw [fingerprintText lawful'] at told'
  obtain ⟨σ, first, rfl⟩ := Option.map_eq_some_iff.mp told
  obtain ⟨τ, second, rfl⟩ := Option.map_eq_some_iff.mp told'
  exact ⟨σ, τ, ⟨first, second, congrArg _, Structure.textKind, fun legible =>
    ⟨Structure.textTells legible, congrArg _⟩⟩, rfl, rfl⟩

def Shared (s t : Value) (f g : String) : Prop :=
  f = g ∧ ∃ σ τ, Told s t f g σ τ ∧ (Legible σ τ → σ = τ)

theorem schemasShare {s t : Value} {f g : String} (lawful : s.lawful = true)
    (lawful' : t.lawful = true) (told : fingerprint s = some f) (told' : fingerprint t = some g)
    (same : f = g) : Shared s t f g := by
  obtain ⟨σ, τ, both, _⟩ := schemasTold lawful lawful' told told'
  exact ⟨same, σ, τ, both, fun legible => (both.apart legible).mp same⟩

structure Reported (doc : Value) (listed : List Suggestion) : Prop where
  once : (listed.map Suggestion.fingerprint).Nodup
  each : ∀ site ∈ sites doc, ∃ v, Tree.get? site.location doc = some v ∧ (preset v = none →
    ∃ g ∈ listed, ∃ w, Tree.get? g.location doc = some w ∧
      Shared v w site.fingerprint g.fingerprint)

theorem schemasReported {doc : Value} (lawful : doc.lawful = true) :
    Reported doc (hoist .report doc).2.suggestions := by
  obtain ⟨_, from_, once, each⟩ := suggestions doc (sites doc) []
  refine ⟨once .nil, fun site mem => ?_⟩
  obtain ⟨v, stands, told⟩ := memSites.mp mem
  obtain ⟨reads, fits⟩ := stands.reads lawful
  refine ⟨v, reads, fun nameless => ?_⟩
  obtain ⟨g, listed, same⟩ := each site mem v reads nameless
  obtain ⟨other, mem', place, print⟩ := (from_ g listed).resolve_left (by simp)
  obtain ⟨w, stands', told'⟩ := memSites.mp mem'
  obtain ⟨reads', fits'⟩ := stands'.reads lawful
  exact ⟨g, listed, w, place ▸ reads', schemasShare fits fits' told (print ▸ told') same.symm⟩

/- What fingerprints are good for: two schemas are told by them, a report leaves none out, and an entry
of a map is for one structure, unless its key is no fingerprint but what some are when lowercased. -/
structure Identify (names : List (String × String)) (doc s t : Value) (f g : String) : Prop where
  schemas : ∃ σ τ, Told s t f g σ τ
  reports : Reported doc (hoist .report doc).2.suggestions
  asked : ∀ site v name, nameFor names site v = some name →
    (∃ key, Covers names key name site.fingerprint) ∨ preset v = some name
  covered : ∀ key name, Covers names key name f → Covers names key name g →
    Shared s t f g ∨ Text.lowercase f = key ∧ Text.lowercase g = key ∧
      ∀ u, u.lawful = true → fingerprint u ≠ some key

theorem fingerprintsIdentify (names : List (String × String)) {doc s t : Value} {f g : String}
    (lawful : doc.lawful = true) (fits : s.lawful = true) (fits' : t.lawful = true)
    (told : fingerprint s = some f) (told' : fingerprint t = some g) : Identify names doc s t f g where
  schemas := by
    obtain ⟨σ, τ, both, _⟩ := schemasTold fits fits' told told'
    exact ⟨σ, τ, both⟩
  reports := schemasReported lawful
  asked site v name := nameForCovers
  covered key name covers covers' := by
    have share := schemasShare fits fits' told told'
    obtain ⟨σ, τ, _, rfl, rfl⟩ := schemasTold fits fits' told told'
    cases covers with
    | exact _ same =>
      cases covers' with
      | exact _ same' => exact .inl (share (same.trans same'.symm))
      | folded _ _ lowered => exact absurd (lowered.trans same.symm) (loweredOther τ σ)
    | folded _ _ lowered =>
      cases covers' with
      | exact _ same' => exact absurd (lowered.trans same'.symm) (loweredOther σ τ)
      | folded _ _ lowered' =>
        refine .inr ⟨lowered, lowered', fun u lawful told => ?_⟩
        rw [fingerprintText lawful] at told
        obtain ⟨υ, _, text⟩ := Option.map_eq_some_iff.mp told
        exact loweredOther σ υ (lowered.trans text.symm)

def propertiesOf (names : List String) : Value :=
  .obj [("type", .str "object"), ("properties", .obj (names.map fun name => (name, .obj [])))]

def boxOf (left right : Value) : Value :=
  .obj [("components", .obj [("schemas", .obj [("Box", .obj [("properties", .obj [
    ("left", left), ("right", right)])])])])]

/- Two objects that differ in one name have fingerprints that tell them apart. -/
theorem titleTold : Identify [("Oidname", "Named")]
      (boxOf (propertiesOf ["id", "name"]) (propertiesOf ["title", "id"]))
      (propertiesOf ["id", "name"]) (propertiesOf ["title", "id"]) "Oidname" "Oidtitle" ∧
    ∃ σ τ, Told (propertiesOf ["id", "name"]) (propertiesOf ["title", "id"])
      "Oidname" "Oidtitle" σ τ ∧ Legible σ τ ∧ σ ≠ τ := by
  have identify : Identify [("Oidname", "Named")]
      (boxOf (propertiesOf ["id", "name"]) (propertiesOf ["title", "id"]))
      (propertiesOf ["id", "name"]) (propertiesOf ["title", "id"]) "Oidname" "Oidtitle" :=
    fingerprintsIdentify _ (by decide) (by decide) (by decide) (by decide +kernel)
      (by decide +kernel)
  obtain ⟨σ, τ, both⟩ := identify.schemas
  have first : structureOf (propertiesOf ["id", "name"]) =
      some (.object {"id", "name"} ∅ (Finset.empty_subset _) false) := by decide +kernel
  have second : structureOf (propertiesOf ["title", "id"]) =
      some (.object {"title", "id"} ∅ (Finset.empty_subset _) false) := by decide +kernel
  cases both.first.symm.trans first
  cases both.second.symm.trans second
  exact ⟨identify, _, _, both, ⟨by decide, by decide, by decide, by decide⟩, by decide⟩

def joinedDocument : Value := boxOf (propertiesOf ["a", "b"]) (propertiesOf ["ab"])

/- The two objects have one fingerprint, the report lists the first alone, and a name for the fingerprint
is for both. -/
theorem namesRunTogether :
    fingerprint (propertiesOf ["a", "b"]) = some "Oab" ∧ fingerprint (propertiesOf ["ab"]) = some "Oab" ∧
    structureOf (propertiesOf ["a", "b"]) ≠ structureOf (propertiesOf ["ab"]) ∧
    (hoist .report joinedDocument).2.suggestions.map Suggestion.location =
      [⟨["components", "schemas", "Box", "properties", "left"]⟩] ∧
    (hoist (.apply [("Oab", "Pair")]) joinedDocument).2.conflicts =
      [⟨⟨["components", "schemas", "Box", "properties", "right"]⟩, "Pair"⟩] := by
  decide +kernel

end ApiGraph.Fingerprint
