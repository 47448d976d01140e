import ApiGraph.Preference
import Mathlib.Data.List.Forall2
import Mathlib.Data.List.Induction
import Mathlib.Data.List.Lex
import Mathlib.Data.List.Pairwise
import Mathlib.Data.String.Basic
import Mathlib.Data.String.Lemmas

/-! What rankings list and in which order. A ranking keeps the first of what is declared twice, sorts it
by rank and leaves what ranks alike in the order of declaration. Codes that a verb prefers are moved to
the front of what is sorted, one for each of them. -/
namespace ApiGraph.Preference

section Distinct
variable {α : Type} [BEq α]

theorem distinctAppend (xs : List α) (x : α) : Entries.distinct (xs ++ [x]) =
    if (Entries.distinct xs).contains x then Entries.distinct xs else Entries.distinct xs ++ [x] := by
  rw [Entries.distinct, List.foldl_append]
  rfl

variable [LawfulBEq α] {xs : List α} {x : α}

theorem memDistinct : x ∈ Entries.distinct xs ↔ x ∈ xs := by
  induction xs using List.reverseRecOn with
  | nil => exact .rfl
  | append_singleton xs y ih =>
    rw [distinctAppend, List.mem_append, List.mem_singleton, ← ih]
    split
    · rename_i known
      rw [List.contains_iff_mem] at known
      refine ⟨.inl, fun mem => mem.elim id ?_⟩
      rintro rfl
      exact known
    · simp

theorem distinctOrdered (xs : List α) :
    (Entries.distinct xs).Pairwise fun a b => xs.idxOf a < xs.idxOf b := by
  induction xs using List.reverseRecOn with
  | nil => exact .nil
  | append_singleton xs x ih =>
    have still : ∀ {a}, a ∈ Entries.distinct xs → (xs ++ [x]).idxOf a = xs.idxOf a := fun mem =>
      List.idxOf_append_of_mem (memDistinct.mp mem)
    have kept : (Entries.distinct xs).Pairwise fun a b =>
        (xs ++ [x]).idxOf a < (xs ++ [x]).idxOf b := ih.imp_of_mem fun ha hb less => by
      rw [still ha, still hb]
      exact less
    rw [distinctAppend]
    split
    · exact kept
    · rename_i fresh
      rw [List.contains_iff_mem, memDistinct] at fresh
      refine List.pairwise_append.mpr ⟨kept, List.pairwise_singleton _ _, fun a mem b last => ?_⟩
      rw [List.mem_singleton.mp last, still mem, List.idxOf_append_of_notMem fresh]
      have := List.idxOf_lt_length_of_mem (memDistinct.mp mem)
      omega

theorem distinctOnce (xs : List α) : (Entries.distinct xs).Nodup :=
  (distinctOrdered xs).imp fun less same => by simp [same] at less

theorem findOrdered {p : α → Bool} {declared : List α} (members : ∀ x, p x = true → (x ∈ xs ↔ x ∈ declared))
    (came : (xs.filter p).Pairwise fun a b => declared.idxOf a < declared.idxOf b) :
    xs.find? p = declared.find? p := by
  cases found : declared.find? p with
  | none =>
    rw [List.find?_eq_none] at found ⊢
    exact fun x mem holds => found x ((members x holds).mp mem) holds
  | some x =>
    obtain ⟨holds, before, after, rfl, others⟩ := List.find?_eq_some_iff_append.mp found
    have inside : x ∈ xs.filter p := by
      rw [List.mem_filter, members x holds]
      exact ⟨by simp, holds⟩
    rw [← List.head?_filter]
    cases first : xs.filter p with
    | nil => simp [first] at inside
    | cons y r =>
      rw [first] at came inside
      rcases List.mem_cons.mp inside with rfl | later
      · rfl
      -- what comes before the first that is declared does not satisfy `p`
      · have less := (List.pairwise_cons.mp came).1 x later
        have absent : x ∉ before := fun mem => by simpa [holds] using others x mem
        rw [List.idxOf_append_of_notMem absent, List.idxOf_cons_self] at less
        have early : y ∈ before := by
          by_contra other
          rw [List.idxOf_append_of_notMem other] at less
          omega
        have holds' : p y = true := (List.mem_filter.mp (first ▸ List.mem_cons_self)).2
        simpa [holds'] using others y early

end Distinct

end ApiGraph.Preference

namespace ApiGraph.Entries
variable {α β : Type} [BEq α]

theorem keysPutNew (k : α) (v : β) (es : List (α × β)) : keys (putNew k v es) =
    if (keys es).contains k then keys es else keys es ++ [k] := by
  have bound : (es.lookup k).isSome = (keys es).contains k := by
    induction es with
    | nil => rfl
    | cons e r ih =>
      obtain ⟨k', w⟩ := e
      rw [keys, List.map_cons, List.contains_cons, List.lookup_cons]
      cases k == k' with
      | true => rfl
      | false => exact ih
  rw [← bound, putNew]
  cases es.lookup k <;> simp [keys]

theorem keysBound (es : List (α × β)) :
    keys (es.foldl (fun acc e => putNew e.1 e.2 acc) []) = distinct (keys es) := by
  induction es using List.reverseRecOn with
  | nil => rfl
  | append_singleton es e ih =>
    have last : keys (es ++ [e]) = keys es ++ [e.1] := by simp [keys]
    rw [List.foldl_append, last, Preference.distinctAppend, ← ih, List.foldl_cons, List.foldl_nil,
      keysPutNew]

theorem memBound {es : List (α × β)} {e : α × β}
    (mem : e ∈ es.foldl (fun acc e => putNew e.1 e.2 acc) []) : e ∈ es := by
  induction es using List.reverseRecOn with
  | nil => cases mem
  | append_singleton es e' ih =>
    rw [List.foldl_append, List.foldl_cons, List.foldl_nil, putNew] at mem
    split at mem
    · exact List.mem_append_left _ (ih mem)
    · rcases List.mem_append.mp mem with old | last
      · exact List.mem_append_left _ (ih old)
      · exact List.mem_append_right _ last

end ApiGraph.Entries

namespace ApiGraph.Preference

def Precedes {α κ : Type} [BEq α] [LT κ] (rank : α → κ) (declared : List α) (a b : α) : Prop :=
  rank a < rank b ∨ rank a = rank b ∧ declared.idxOf a < declared.idxOf b

section Sorting
variable {α κ : Type} [BEq α] [LinearOrder κ] {rank : α → κ} {declared : List α} {a b : α}

theorem Precedes.asymm (h : Precedes rank declared a b) : ¬ Precedes rank declared b a := by
  rintro (less | ⟨same, less⟩)
  · rcases h with less' | ⟨same', _⟩
    · exact lt_asymm less less'
    · exact less.ne' same'
  · rcases h with less' | ⟨_, less'⟩
    · exact less'.ne same.symm
    · exact lt_asymm less less'

theorem Precedes.apart (h : Precedes rank declared a b) : a ≠ b := by
  rintro rfl
  exact h.asymm h

theorem sortPrecedes {le : κ × α → κ × α → Bool} (ranks : ∀ x y, le x y = true ↔ x.1 ≤ y.1)
    {xs : List (κ × α)} (own : ∀ x ∈ xs, x.1 = rank x.2)
    (came : xs.Pairwise fun x y => declared.idxOf x.2 < declared.idxOf y.2) :
    (Stable.sort le xs).Pairwise fun x y => Precedes rank declared x.2 y.2 := by
  have total : ∀ x y, le x y = true ∨ le y x = true := fun x y => by
    rw [ranks, ranks]
    exact le_total _ _
  have trans : ∀ x y z, le x y = true → le y z = true → le x z = true := fun x y z => by
    rw [ranks, ranks, ranks]
    exact le_trans
  refine (Stable.sortSorted total trans came).imp_of_mem fun {x y} hx hy h => ?_
  have inside := fun {x} => (Stable.sortPerm le xs).mem_iff (a := x)
  rw [Precedes, ← own x (inside.mp hx), ← own y (inside.mp hy)]
  rcases ((ranks x y).mp h.1).lt_or_eq with less | same
  · exact .inl less
  · exact .inr ⟨same, h.2 ((ranks y x).mpr same.ge)⟩

theorem precedesInside {xs : List α} {R : α → α → Prop} (ordered : xs.Pairwise R)
    (sorted : xs.Pairwise (Precedes rank declared)) (ha : a ∈ xs) (hb : b ∈ xs)
    (h : Precedes rank declared a b) : R a b := by
  let both (a b : α) : Prop := (R a b ∧ Precedes rank declared a b) ∨
    (R b a ∧ Precedes rank declared b a)
  have : Std.Symm both := ⟨fun _ _ h => h.symm⟩
  have all : xs.Pairwise both := (ordered.and sorted).imp fun h => .inl h
  rcases all.forall ha hb h.apart with ⟨holds, _⟩ | ⟨_, back⟩
  · exact holds
  · exact absurd back h.asymm

end Sorting

def FirstMatch (patterns : List MediaPattern) (m : String) (i : Nat) : Prop :=
  ∃ p, patterns[i]? = some p ∧ p.accepts m = true ∧
    ∀ j < i, ∀ q, patterns[j]? = some q → q.accepts m = false

structure RankedMediaTypes (patterns : List MediaPattern) (declared out : List String) : Prop where
  once : out.Nodup
  members : ∀ m, m ∈ out ↔ m ∈ declared ∧ ∃ p ∈ patterns, p.accepts m = true
  ordered : out.Pairwise fun a b => ∀ i j, FirstMatch patterns a i → FirstMatch patterns b j →
    i < j ∨ i = j ∧ declared.idxOf a < declared.idxOf b

section MediaTypes
variable {patterns : List MediaPattern} {declared : List String} {m : String}

theorem rankIff {i : Nat} : rank? patterns m = some i ↔ FirstMatch patterns m i := by
  rw [rank?, List.findIdx?_eq_some_iff_getElem]
  constructor
  · rintro ⟨inside, accepted, others⟩
    refine ⟨patterns[i], List.getElem?_eq_getElem inside, accepted, fun j before q held => ?_⟩
    obtain ⟨_, rfl⟩ := List.getElem?_eq_some_iff.mp held
    simpa using others j before
  · rintro ⟨p, held, accepted, others⟩
    obtain ⟨inside, rfl⟩ := List.getElem?_eq_some_iff.mp held
    exact ⟨inside, accepted, fun j before =>
      Bool.eq_false_iff.mp (others j before _ (List.getElem?_eq_getElem _))⟩

theorem memMediaTypes :
    m ∈ mediaTypes patterns declared ↔ m ∈ declared ∧ ∃ p ∈ patterns, p.accepts m = true := by
  have ranked : (rank? patterns m).isSome ↔ ∃ p ∈ patterns, p.accepts m = true := by
    simp [rank?, List.findIdx?_isSome]
  rw [mediaTypes, List.mem_map, ← ranked, ← @memDistinct _ _ _ declared]
  constructor
  · rintro ⟨e, mem, rfl⟩
    obtain ⟨m, inside, made⟩ := List.mem_filterMap.mp ((Stable.sortPerm _ _).mem_iff.mp mem)
    obtain ⟨rank, found, rfl⟩ := Option.map_eq_some_iff.mp made
    exact ⟨inside, by simp [found]⟩
  · rintro ⟨inside, known⟩
    obtain ⟨rank, found⟩ := Option.isSome_iff_exists.mp known
    refine ⟨(rank, m), (Stable.sortPerm _ _).mem_iff.mpr ?_, rfl⟩
    exact List.mem_filterMap.mpr ⟨m, inside, by simp [found]⟩

theorem FirstMatch.one {i j : Nat} (h : FirstMatch patterns m i) (h' : FirstMatch patterns m j) :
    i = j :=
  Option.some.inj ((rankIff.mpr h).symm.trans (rankIff.mpr h'))

def rankOf (patterns : List MediaPattern) (m : String) : Nat := (rank? patterns m).getD 0

theorem mediaTypesOrdered (patterns : List MediaPattern) (declared : List String) :
    (mediaTypes patterns declared).Pairwise (Precedes (rankOf patterns) declared) := by
  refine List.pairwise_map.mpr (sortPrecedes (fun x y => by simp) (fun x mem => ?_) ?_)
  · obtain ⟨m, _, made⟩ := List.mem_filterMap.mp mem
    obtain ⟨rank, found, rfl⟩ := Option.map_eq_some_iff.mp made
    simp [rankOf, found]
  · refine List.pairwise_filterMap.mpr ((distinctOrdered declared).imp ?_)
    intro a b less x made y made'
    obtain ⟨_, _, rfl⟩ := Option.map_eq_some_iff.mp made
    obtain ⟨_, _, rfl⟩ := Option.map_eq_some_iff.mp made'
    exact less

theorem rankMatches (mem : m ∈ mediaTypes patterns declared) :
    FirstMatch patterns m (rankOf patterns m) := by
  obtain ⟨_, accepted⟩ := memMediaTypes.mp mem
  have known : (rank? patterns m).isSome := by simpa [rank?, List.findIdx?_isSome] using accepted
  obtain ⟨i, found⟩ := Option.isSome_iff_exists.mp known
  rw [rankOf, found]
  exact rankIff.mp found

theorem mediaTypesOnce (patterns : List MediaPattern) (declared : List String) :
    (mediaTypes patterns declared).Nodup :=
  (mediaTypesOrdered patterns declared).imp Precedes.apart

theorem mediaTypesRanks (patterns : List MediaPattern) (declared : List String) :
    ((mediaTypes patterns declared).map (rankOf patterns)).Pairwise (· ≤ ·) :=
  List.pairwise_map.mpr ((mediaTypesOrdered patterns declared).imp fun h =>
    h.elim le_of_lt fun h => h.1.le)

/- Media types are ranked by the first pattern that accepts them. In another order of declaration every
place is taken by a media type of the same pattern. -/
theorem mediaTypesRanked (patterns : List MediaPattern) (declared : List String) :
    RankedMediaTypes patterns declared (mediaTypes patterns declared) ∧
      ∀ declared', declared'.Perm declared →
        (mediaTypes patterns declared').Perm (mediaTypes patterns declared) ∧
        List.Forall₂ (fun m m' => ∃ i, FirstMatch patterns m i ∧ FirstMatch patterns m' i)
          (mediaTypes patterns declared') (mediaTypes patterns declared) := by
  refine ⟨⟨mediaTypesOnce _ _, fun m => memMediaTypes, ?_⟩, fun declared' perm => ?_⟩
  · refine (mediaTypesOrdered patterns declared).imp_of_mem fun {a b} ha hb h i j first first' => ?_
    rw [← (rankMatches ha).one first, ← (rankMatches hb).one first']
    exact h
  · have same : (mediaTypes patterns declared').Perm (mediaTypes patterns declared) := by
      rw [List.perm_ext_iff_of_nodup (mediaTypesOnce _ _) (mediaTypesOnce _ _)]
      intro m
      rw [memMediaTypes, memMediaTypes, perm.mem_iff]
    -- two sorted lists of the same ranks are equal
    have ranks := (same.map (rankOf patterns)).eq_of_pairwise (fun _ _ _ _ => le_antisymm)
      (mediaTypesRanks patterns declared') (mediaTypesRanks patterns declared)
    have pairs : List.Forall₂ (fun m m' => rankOf patterns m = rankOf patterns m')
        (mediaTypes patterns declared') (mediaTypes patterns declared) := by
      rw [← List.forall₂_map_right_iff, ← List.forall₂_map_left_iff (R := Eq), ranks,
        List.forall₂_eq_eq_eq]
    have left := (List.forall₂_and_left _ _).mpr ⟨fun _ mem => rankMatches mem, pairs⟩
    have both := (List.forall₂_and_left _ _).mpr ⟨fun _ mem => rankMatches mem, left.flip⟩
    exact ⟨same, both.flip.imp fun m m' ⟨first', first, eq⟩ => ⟨_, first, eq ▸ first'⟩⟩

/- Two spellings of one media type change places with their declarations. -/
theorem plainTextReordered :
    let patterns : List MediaPattern := [.exact "application/json", .exact "text/plain"]
    mediaTypes patterns ["text/plain", "Text/Plain", "image/png", "application/json"] =
        ["application/json", "text/plain", "Text/Plain"] ∧
      mediaTypes patterns ["image/png", "application/json", "Text/Plain", "text/plain"] =
        ["application/json", "Text/Plain", "text/plain"] ∧
      List.Forall₂ (fun m m' => ∃ i, FirstMatch patterns m i ∧ FirstMatch patterns m' i)
        (mediaTypes patterns ["image/png", "application/json", "Text/Plain", "text/plain"])
        (mediaTypes patterns ["text/plain", "Text/Plain", "image/png", "application/json"]) :=
  ⟨by decide +kernel, by decide +kernel, ((mediaTypesRanked _ _).2 _ (by decide)).2⟩

end MediaTypes

def leading (key : String → String) (verb : String) (declared : List String) : List String :=
  (promoted verb).filterMap fun p => declared.find? fun c => key c == p

structure RankedCodes (key : String → String) (verb : String) (declared out : List String) :
    Prop where
  once : out.Nodup
  members : ∀ c, c ∈ out ↔ c ∈ declared ∧ isSuccess (key c) = true
  ordered : ∃ rest, out = leading key verb declared ++ rest ∧ rest.Pairwise (Precedes key declared)

section Codes
variable {declared : List String} {verb : String} {c d : String}

theorem findErased {α : Type} {p q : α → Bool} (other : ∀ x, p x = true → q x = false) (xs : List α) :
    (xs.eraseP p).find? q = xs.find? q := by
  induction xs with
  | nil => rfl
  | cons x r ih =>
    cases here : p x with
    | true => simp [here, other x here]
    | false => simp [here, List.find?_cons, ih]

/- What is promoted comes first, each time the first with that key, and the others stay as they are. -/
theorem promoteSplit {keys : List String} (apart : keys.Nodup) (coded : List (String × String)) :
    ∃ rest : List (String × String), rest.Sublist coded ∧
      (promote keys coded).Perm (coded.map Prod.snd) ∧ promote keys coded =
        (keys.filterMap fun k => (coded.find? fun e => e.1 == k).map Prod.snd) ++ rest.map Prod.snd := by
  induction keys generalizing coded with
  | nil => exact ⟨coded, .refl _, .refl _, rfl⟩
  | cons k more ih =>
    obtain ⟨fresh, apart⟩ := List.nodup_cons.mp apart
    cases found : coded.find? fun e => e.1 == k with
    | none =>
      obtain ⟨rest, within, perm, split⟩ := ih apart coded
      exact ⟨rest, within, by simpa [promote, found] using perm, by simp [promote, found, split]⟩
    | some e =>
      obtain ⟨rest, within, perm, split⟩ := ih apart (coded.eraseP fun e => e.1 == k)
      obtain ⟨holds, before, after, same, others⟩ := List.find?_eq_some_iff_append.mp found
      have erased : coded.eraseP (fun e => e.1 == k) = before ++ after := by
        rw [same, List.eraseP_append_right _ fun x mem => by simpa using others x mem]
        simp [holds]
      have step : promote (k :: more) coded = e.2 :: promote more (coded.eraseP fun e => e.1 == k) := by
        simp [promote, found]
      refine ⟨rest, within.trans List.eraseP_sublist, ?_, ?_⟩
      · rw [step, erased, same, List.map_append, List.map_cons]
        rw [erased, List.map_append] at perm
        exact (perm.cons e.2).trans List.perm_middle.symm
      · have kept : ∀ k' ∈ more, (coded.eraseP fun e => e.1 == k).find? (fun e => e.1 == k') =
            coded.find? fun e => e.1 == k' := by
          refine fun k' mem => findErased (fun x here => ?_) coded
          rw [eq_of_beq here, beq_eq_false_iff_ne]
          rintro rfl
          exact fresh mem
        rw [step, split, List.filterMap_congr fun k' mem => by rw [kept k' mem]]
        simp [found]

theorem promotedPlain (verb : String) : (promoted verb).Nodup ∧ ∀ p ∈ promoted verb,
    isSuccess p = true ∧ p.length = 3 ∧ ∀ x ∈ p.toList, x.isDigit = true := by
  simp only [← List.all_eq_true (p := Char.isDigit)]
  unfold promoted
  split <;> decide

theorem textLeIff {a b : String} : textLe a b = true ↔ a ≤ b := by
  rw [textLe, decide_eq_true_iff, not_lt]

section Keyed
variable (key : String → String)

def sortedCodes (declared : List String) : List (String × String) :=
  Stable.sort (fun a b => textLe a.1 b.1)
    (((Entries.distinct declared).map fun c => (key c, c)).filter (isSuccess ·.1))

variable {key}

theorem memSorted {e : String × String} : e ∈ sortedCodes key declared ↔
    e.1 = key e.2 ∧ e.2 ∈ declared ∧ isSuccess (key e.2) = true := by
  rw [sortedCodes, (Stable.sortPerm _ _).mem_iff, List.mem_filter, List.mem_map]
  simp only [memDistinct]
  constructor
  · rintro ⟨⟨c, inside, rfl⟩, success⟩
    exact ⟨rfl, inside, success⟩
  · rintro ⟨own, inside, success⟩
    exact ⟨⟨e.2, inside, Prod.ext own.symm rfl⟩, own ▸ success⟩

theorem sortedPrecedes (k : String → String) (declared : List String) :
    (sortedCodes k declared).Pairwise fun x y => Precedes k declared x.2 y.2 := by
  refine sortPrecedes (fun x y => textLeIff) (fun x mem => ?_) ?_
  · exact (memSorted.mp ((Stable.sortPerm _ _).mem_iff.mpr mem)).1
  · exact List.Pairwise.filter _ (List.pairwise_map.mpr (distinctOrdered declared))

theorem sortedLeads {k : String} (success : isSuccess k = true) :
    ((sortedCodes key declared).find? fun e => e.1 == k).map Prod.snd =
      declared.find? fun c => key c == k := by
  have same : ∀ e ∈ sortedCodes key declared, (e.1 == k) = (key e.2 == k) := fun e mem => by
    rw [(memSorted.mp mem).1]
  have keyed : (sortedCodes key declared).find? (fun e => e.1 == k) =
      (sortedCodes key declared).find? ((fun c => key c == k) ∘ Prod.snd) := by
    rw [← List.head?_filter, ← List.head?_filter]
    exact congrArg _ (List.filter_congr same)
  rw [keyed, ← List.find?_map]
  refine findOrdered (fun c here => ?_) ?_
  · rw [List.mem_map]
    constructor
    · rintro ⟨e, mem, rfl⟩
      exact (memSorted.mp mem).2.1
    · intro inside
      exact ⟨(key c, c), memSorted.mpr ⟨rfl, inside, by rw [eq_of_beq here]; exact success⟩, rfl⟩
  · have ordered := List.pairwise_map.mpr (sortedPrecedes key declared)
    refine (ordered.filter _).imp_of_mem fun {a b} ha hb h => ?_
    have here : key a = k := eq_of_beq (List.mem_filter.mp ha).2
    have here' : key b = k := eq_of_beq (List.mem_filter.mp hb).2
    rcases h with less | ⟨_, less⟩
    · rw [here, here'] at less
      exact absurd less (lt_irrefl k)
    · exact less

theorem promotedRanked (verb : String) (declared : List String) :
    RankedCodes key verb declared (promote (promoted verb) (sortedCodes key declared)) := by
  obtain ⟨once, plain⟩ := promotedPlain verb
  have ordered := List.pairwise_map.mpr (sortedPrecedes key declared)
  obtain ⟨rest, within, perm, split⟩ := promoteSplit once (sortedCodes key declared)
  refine ⟨perm.nodup_iff.mpr (ordered.imp Precedes.apart), fun c => ?_, rest.map Prod.snd, ?_, ?_⟩
  · rw [perm.mem_iff, List.mem_map]
    constructor
    · rintro ⟨e, mem, rfl⟩
      exact (memSorted.mp mem).2
    · intro inside
      exact ⟨(key c, c), memSorted.mpr ⟨rfl, inside⟩, rfl⟩
  · rw [split, leading, List.filterMap_congr fun k mem => sortedLeads (plain k mem).1]
  · exact ordered.sublist (within.map Prod.snd)

end Keyed

theorem responseCodesKeyed (verb : String) (declared : List String) :
    RankedCodes codeKey verb declared (responseCodes verb declared) :=
  promotedRanked verb declared

theorem RankedCodes.reordered {key : String → String} {declared' out out' : List String}
    (h : RankedCodes key verb declared out) (h' : RankedCodes key verb declared' out')
    (perm : declared'.Perm declared)
    (apart : ∀ a ∈ declared, ∀ b ∈ declared, key a = key b → a = b) : out' = out := by
  have leads : leading key verb declared' = leading key verb declared := by
    refine List.filterMap_congr fun k _ => ?_
    cases found : declared.find? fun c => key c == k with
    | none =>
      rw [List.find?_eq_none] at found ⊢
      exact fun c mem => found c (perm.mem_iff.mp mem)
    | some c =>
      have here := List.find?_some found
      have mem := perm.mem_iff.mpr (List.mem_of_find?_eq_some found)
      have some : (declared'.find? fun c => key c == k).isSome := List.find?_isSome.mpr ⟨c, mem, here⟩
      obtain ⟨d, found'⟩ := Option.isSome_iff_exists.mp some
      have same : key d = key c := by
        have here' := List.find?_some found'
        rw [eq_of_beq here, eq_of_beq here']
      rw [found', apart d (perm.mem_iff.mp (List.mem_of_find?_eq_some found')) c
        (perm.mem_iff.mp mem) same]
  have same : out'.Perm out := by
    rw [List.perm_ext_iff_of_nodup h'.once h.once]
    intro c
    rw [h'.members, h.members, perm.mem_iff]
  obtain ⟨rest, split, ordered⟩ := h.ordered
  obtain ⟨rest', split', ordered'⟩ := h'.ordered
  have less : ∀ {xs : List String} {rest : List String}, (∀ c ∈ rest, c ∈ declared) →
      rest.Pairwise (Precedes key xs) → rest.Pairwise fun a b => key a < key b := by
    refine fun inside sorted => sorted.imp_of_mem fun {a b} ha hb before => ?_
    exact before.elim id fun tie => absurd (apart a (inside a ha) b (inside b hb) tie.1) before.apart
  have known : ∀ c ∈ rest, c ∈ declared := fun c mem =>
    ((h.members c).mp (split ▸ List.mem_append_right _ mem)).1
  have known' : ∀ c ∈ rest', c ∈ declared := fun c mem =>
    perm.mem_iff.mp ((h'.members c).mp (split' ▸ List.mem_append_right _ mem)).1
  rw [split, split', leads, List.perm_append_left_iff] at same
  rw [split, split', leads]
  exact congrArg _ (same.eq_of_pairwise (fun _ _ _ _ h h' => absurd h' (lt_asymm h))
    (less known' ordered') (less known ordered))

theorem memLeading {key : String → String} (mem : c ∈ leading key verb declared) :
    key c ∈ promoted verb := by
  obtain ⟨k, inside, found⟩ := List.mem_filterMap.mp mem
  have here := List.find?_some found
  rw [eq_of_beq here]
  exact inside

end Codes
end ApiGraph.Preference
