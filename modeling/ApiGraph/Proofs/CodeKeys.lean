import ApiGraph.Proofs.Rankings

/-! The keys that rank response codes. A key is filled up with wildcards to three bytes. Filled up to three
characters it would be another one for a code of two characters that needs more than two bytes, and a
longer code that begins like it would come before it and not after. -/
namespace ApiGraph.Preference
open Text

def wideKey (code : String) : String :=
  let key := uppercase (String.ofList (MediaPattern.trim code.toList))
  if key = "DEFAULT" then "2ZZ"
  else String.ofList (key.toList ++ List.replicate (3 - key.length) 'X')

/- A key of fewer than three characters and one that goes on from there, in an order that the missing
wildcard would reverse. -/
def Crossed (declared : List String) (c d : String) : Prop :=
  (codeKey c).length < 3 ∧ ∃ t, codeKey d = codeKey c ++ t ∧ t ≠ "" ∧
    (t < "X" ∨ t = "X" ∧ declared.idxOf d < declared.idxOf c)

def Numeric (key : String) : Prop :=
  ∃ r, key.toList = '2' :: r ∧ ∀ x ∈ r, x.isDigit = true ∨ x = 'X'

section Bytes
variable {c d : String}

theorem lengthBytes (xs : List Char) : xs.length ≤ String.utf8Len xs := by
  induction xs with
  | nil => simp
  | cons x r ih =>
    rw [List.length_cons, String.utf8Len_cons]
    have := x.utf8Size_pos
    omega

theorem digitBytes {xs : List Char} (digits : ∀ x ∈ xs, x.isDigit = true) :
    String.utf8Len xs = xs.length := by
  induction xs with
  | nil => rfl
  | cons x r ih =>
    have digit := digits x List.mem_cons_self
    have one : x.utf8Size = 1 := by
      simp only [Char.isDigit, Bool.and_eq_true, decide_eq_true_eq] at digit
      exact Char.utf8Size_eq_one_iff.mpr (UInt32.le_trans digit.2 (by decide))
    rw [String.utf8Len_cons, one, ih fun y mem => digits y (List.mem_cons_of_mem _ mem),
      List.length_cons]

theorem replicateBytes (n : Nat) : String.utf8Len (List.replicate n 'X') = n := by
  induction n with
  | zero => rfl
  | succ n ih =>
    rw [List.replicate_succ, String.utf8Len_cons, ih]
    rfl

theorem bytesOf (s : String) : s.utf8ByteSize = String.utf8Len s.toList := by
  rw [← String.utf8ByteSize_ofList, String.ofList_toList]

theorem wideKeyOf (c : String) : (wideKey c).toList =
    (codeKey c).toList ++ List.replicate (3 - (codeKey c).length) 'X' := by
  unfold wideKey codeKey
  generalize uppercase (String.ofList (MediaPattern.trim c.toList)) = key
  dsimp only
  split
  · rfl
  · have bytes := lengthBytes key.toList
    rw [← bytesOf, String.length_toList] at bytes
    simp only [String.toList_ofList, String.length_ofList, List.length_append, String.length_toList,
      List.length_replicate, List.append_assoc, List.replicate_append_replicate]
    congr 2
    omega

theorem keyBytes (c : String) : 3 ≤ (codeKey c).utf8ByteSize := by
  unfold codeKey
  generalize uppercase (String.ofList (MediaPattern.trim c.toList)) = key
  dsimp only
  split
  · decide
  · rw [String.utf8ByteSize_ofList, String.utf8Len_append, replicateBytes, ← bytesOf]
    omega

theorem shortKey (success : isSuccess (codeKey c) = true) (short : (codeKey c).length < 3) :
    ∃ x, (codeKey c).toList = ['2', x] ∧ x.isDigit = false := by
  have bytes := keyBytes c
  rw [bytesOf] at bytes
  rw [← String.length_toList] at short
  rw [isSuccess, beq_iff_eq] at success
  match held : (codeKey c).toList with
  | [] => simp [held] at success
  | [y] =>
    rw [held, List.head?_cons, Option.some.injEq] at success
    rw [held, success] at bytes
    exact absurd bytes (by decide)
  | [y, x] =>
    rw [held, List.head?_cons, Option.some.injEq] at success
    refine ⟨x, by rw [success], Bool.eq_false_iff.mpr fun digit => ?_⟩
    rw [held, success, digitBytes (by simp [digit])] at bytes
    simp at bytes
  | _ :: _ :: _ :: _ =>
    rw [held] at short
    simp only [List.length_cons] at short
    omega

end Bytes

section Filled
variable {a b : List Char}

theorem lessBeyond (less : a < b) (other : ¬ a <+: b) (s : List Char) : a ++ s < b := by
  induction less with
  | nil => exact absurd (List.nil_prefix) other
  | rel h => exact .rel h
  | cons _ ih => exact .cons (ih fun within => other (List.prefix_cons_inj _ |>.mpr within))

theorem lessAfter (s t : List Char) : a ++ s < a ++ t ↔ s < t := by
  induction a with
  | nil => exact .rfl
  | cons x r ih => simpa using ih

def fill (a : List Char) : List Char := a ++ List.replicate (3 - a.length) 'X'

theorem fillLess (less : a < b) (other : ¬ (a.length < 3 ∧ a <+: b)) : fill a < fill b := by
  suffices before : fill a < b from List.Lex.append_right _ _ before
  by_cases short : a.length < 3
  · exact lessBeyond less (fun within => other ⟨short, within⟩) _
  · have none : 3 - a.length = 0 := by omega
    simpa [fill, none] using less

end Filled

section Keys
variable {declared : List String} {verb : String} {c d : String}

theorem keyLess {s t : String} : s < t ↔ s.toList < t.toList := String.lt_iff_toList_lt

theorem wideKeyFill (c : String) : (wideKey c).toList = fill (codeKey c).toList := by
  rw [wideKeyOf, fill, String.length_toList]

theorem wideKeySame (same : codeKey c = codeKey d) : wideKey c = wideKey d := by
  rw [← String.toList_inj, wideKeyFill, wideKeyFill, same]

section Begins
variable {t : List Char} (short : (codeKey c).length < 3)
  (goes : (codeKey c).toList ++ t = (codeKey d).toList) (filled : t ≠ [])
include short goes filled

theorem wideBegins (success : isSuccess (codeKey c) = true) :
    (wideKey c).toList = (codeKey c).toList ++ ['X'] ∧
      (wideKey d).toList = (codeKey c).toList ++ t := by
  obtain ⟨x, two, _⟩ := shortKey success short
  have long : 0 < t.length := List.length_pos_iff.mpr filled
  have none : 3 - (codeKey d).toList.length = 0 := by
    rw [← goes, two, List.length_append]
    simp only [List.length_cons, List.length_nil]
    omega
  constructor
  · rw [wideKeyFill, fill, two]
    rfl
  · rw [wideKeyFill, fill, none, List.replicate_zero, List.append_nil, goes]

theorem crossedIff : Crossed declared c d ↔
    t < ['X'] ∨ t = ['X'] ∧ declared.idxOf d < declared.idxOf c := by
  constructor
  · rintro ⟨_, u, goes', _, ends⟩
    rw [← String.toList_inj, String.toList_append, ← goes, List.append_cancel_left_eq] at goes'
    subst goes'
    exact ends.imp keyLess.mp fun tie => ⟨by rw [tie.1]; rfl, tie.2⟩
  · intro ends
    refine ⟨short, String.ofList t, ?_, ?_, ?_⟩
    · rw [← String.toList_inj, String.toList_append, String.toList_ofList, goes]
    · rw [ne_eq, ← String.toList_inj, String.toList_ofList]
      exact filled
    · have wild : (['X'] : List Char) = "X".toList := rfl
      rw [wild] at ends
      rw [keyLess, ← String.toList_inj, String.toList_ofList]
      exact ends

end Begins

/- The order of the keys is the one of the filled keys, but where a filled key is put after what it
begins. -/
theorem wideIff (success : isSuccess (codeKey c) = true) (apart : declared.idxOf c ≠ declared.idxOf d)
    (before : Precedes codeKey declared c d) :
    Precedes wideKey declared c d ↔ ¬ Crossed declared c d := by
  rcases before with less | ⟨same, less⟩
  · rw [keyLess] at less
    by_cases begins : (codeKey c).toList.length < 3 ∧ (codeKey c).toList <+: (codeKey d).toList
    · obtain ⟨short, t, goes⟩ := begins
      have filled : t ≠ [] := by
        rintro rfl
        rw [← goes, List.append_nil] at less
        exact lt_irrefl _ less
      rw [String.length_toList] at short
      obtain ⟨left, right⟩ := wideBegins short goes filled success
      have ordered : wideKey c < wideKey d ↔ ['X'] < t := by rw [keyLess, left, right, lessAfter]
      have tied : wideKey c = wideKey d ↔ ['X'] = t := by
        rw [← String.toList_inj, left, right, List.append_cancel_left_eq]
      rw [Precedes, ordered, tied, crossedIff short goes filled]
      rcases lt_trichotomy ['X'] t with more | tie | fewer
      · simp [more, more.ne', lt_asymm more]
      · subst tie
        simp only [lt_irrefl, true_and, false_or]
        omega
      · simp [fewer, fewer.ne', lt_asymm fewer]
    · refine iff_of_true (.inl ?_) ?_
      · rw [keyLess, wideKeyFill, wideKeyFill]
        exact fillLess less begins
      · rintro ⟨short, t, goes, _⟩
        exact begins ⟨by rwa [String.length_toList], t.toList, by rw [goes, String.toList_append]⟩
  · refine iff_of_true (.inr ⟨wideKeySame same, less⟩) ?_
    rintro ⟨_, t, goes, filled, _⟩
    have none : (codeKey c).toList ++ t.toList = (codeKey c).toList := by
      rw [← String.toList_append, ← goes, same]
    exact filled (String.toList_inj.mp (List.append_right_eq_self.mp none))

theorem wideSuccess (c : String) : isSuccess (wideKey c) = isSuccess (codeKey c) := by
  rw [isSuccess, isSuccess, wideKeyFill, fill]
  cases (codeKey c).toList with
  | nil => decide
  | cons x r => rfl

theorem widePromoted {k : String} (mem : k ∈ promoted verb) (c : String) :
    (wideKey c == k) = (codeKey c == k) := by
  obtain ⟨_, three, digits⟩ := (promotedPlain verb).2 k mem
  rw [Bool.eq_iff_iff, beq_iff_eq, beq_iff_eq, ← String.toList_inj, wideKeyFill,
    ← String.toList_inj, fill]
  cases missing : 3 - (codeKey c).toList.length with
  | zero => rw [List.replicate_zero, List.append_nil]
  | succ n =>
    refine iff_of_false (fun same => ?_) (fun same => ?_)
    · exact absurd (digits 'X' (same ▸ by simp)) (by decide)
    · rw [same, String.length_toList] at missing
      omega

theorem leadingWide (verb : String) (declared : List String) :
    leading wideKey verb declared = leading codeKey verb declared :=
  List.filterMap_congr fun _ mem => congrArg (declared.find? ·) (funext (widePromoted mem))

theorem crossedBehind {rest : List String} (ranked : RankedCodes codeKey verb declared
      (leading codeKey verb declared ++ rest)) (hc : c ∈ declared) (hd : d ∈ declared)
    (success : isSuccess (codeKey c) = true) (crossed : Crossed declared c d) :
    c ∈ rest ∧ d ∈ rest := by
  obtain ⟨short, t, goes, _⟩ := crossed
  obtain ⟨x, two, odd⟩ := shortKey success short
  have behind : ∀ e ∈ declared, x ∈ (codeKey e).toList → isSuccess (codeKey e) = true → e ∈ rest := by
    intro e inside within success'
    refine (List.mem_append.mp ((ranked.members e).mpr ⟨inside, success'⟩)).resolve_left fun led => ?_
    have digit := ((promotedPlain verb).2 _ (memLeading led)).2.2 x within
    exact Bool.false_ne_true (odd.symm.trans digit)
  have longer : (codeKey d).toList = '2' :: x :: t.toList := by
    rw [goes, String.toList_append, two]
    rfl
  exact ⟨behind c hc (by simp [two]) success, behind d hd (by simp [longer]) (by simp [isSuccess, longer])⟩

theorem widelyRanked (verb : String) (declared : List String) :
    RankedCodes wideKey verb declared (responseCodes verb declared) ↔
      ∀ c ∈ declared, ∀ d ∈ declared, isSuccess (codeKey c) = true → ¬ Crossed declared c d := by
  have ranked := responseCodesKeyed verb declared
  obtain ⟨rest, split, ordered⟩ := ranked.ordered
  have known : ∀ c ∈ rest, c ∈ declared ∧ isSuccess (codeKey c) = true := fun c mem =>
    (ranked.members c).mp (split ▸ List.mem_append_right _ mem)
  constructor
  · intro wide c hc d hd success crossed
    obtain ⟨rest', split', ordered'⟩ := wide.ordered
    rw [split, leadingWide, List.append_cancel_left_eq] at split'
    subst split'
    obtain ⟨inside, inside'⟩ := crossedBehind (split ▸ ranked) hc hd success crossed
    have before : Precedes codeKey declared c d := by
      obtain ⟨_, t, goes, filled, _⟩ := crossed
      refine .inl ?_
      have more : [] < t.toList := by
        cases held : t.toList with
        | nil => exact absurd (String.toList_inj.mp held) filled
        | cons => exact .nil
      rw [keyLess, goes, String.toList_append]
      simpa using (lessAfter [] t.toList).mpr more
    have apart : declared.idxOf c ≠ declared.idxOf d := fun same =>
      before.apart ((List.idxOf_inj hc).mp same)
    exact (wideIff success apart before).mp (precedesInside ordered' ordered inside inside' before) crossed
  · intro straight
    refine ⟨ranked.once, fun c => ?_, rest, by rw [leadingWide, split], ?_⟩
    · rw [ranked.members, wideSuccess]
    · refine ordered.imp_of_mem fun {c d} hc hd before => ?_
      have apart : declared.idxOf c ≠ declared.idxOf d := fun same =>
        before.apart ((List.idxOf_inj (known c hc).1).mp same)
      exact (wideIff (known c hc).2 apart before).mpr
        (straight c (known c hc).1 d (known d hd).1 (known c hc).2)

theorem numericLess (numeric : Numeric (codeKey c)) : codeKey c < "2ZZ" := by
  obtain ⟨r, held, digits⟩ := numeric
  rw [keyLess, held]
  cases r with
  | nil => decide
  | cons x r =>
    have small : x < 'Z' := by
      rcases digits x List.mem_cons_self with digit | rfl
      · simp only [Char.isDigit, Bool.and_eq_true, decide_eq_true_eq] at digit
        exact lt_of_le_of_lt digit.2 (by decide)
      · decide
    exact .cons (.rel small)

theorem defaultLast {out : List String} (ranked : RankedCodes codeKey verb declared out)
    (hc : c ∈ declared) (hd : d ∈ declared) (numeric : Numeric (codeKey c))
    (default : codeKey d = "2ZZ") : ∃ before after, out = before ++ d :: after ∧ c ∈ before := by
  have less : codeKey c < codeKey d := by
    rw [default]
    exact numericLess numeric
  have success : c ∈ out := by
    obtain ⟨r, held, _⟩ := numeric
    exact (ranked.members c).mpr ⟨hc, by simp [isSuccess, held]⟩
  have success' : d ∈ out := (ranked.members d).mpr ⟨hd, by rw [default]; decide⟩
  obtain ⟨rest, rfl, ordered⟩ := ranked.ordered
  have held : d ∈ rest := by
    refine (List.mem_append.mp success').resolve_left fun led => ?_
    have plain := ((promotedPlain verb).2 _ (memLeading led)).2.2
    rw [default] at plain
    exact absurd (plain 'Z' (by decide)) (by decide)
  obtain ⟨before, after, rfl⟩ := List.append_of_mem held
  refine ⟨leading codeKey verb declared ++ before, after, by simp, ?_⟩
  rcases List.mem_append.mp success with led | mem
  · exact List.mem_append_left _ led
  · rcases List.mem_append.mp mem with early | late
    · exact List.mem_append_right _ early
    · rcases List.mem_cons.mp late with rfl | late
      · exact absurd less (lt_irrefl _)
      · have back := (List.pairwise_cons.mp (List.pairwise_append.mp ordered).2.1).1 c late
        exact absurd (.inl less) back.asymm

end Keys

theorem defaultKey : codeKey "default" = "2ZZ" := by decide +kernel

/- Success codes are ranked by their keys, and by the keys filled up to three characters exactly if no
two are crossed. -/
theorem responseCodesRanked (verb : String) (declared : List String) :
    RankedCodes codeKey verb declared (responseCodes verb declared) ∧
      (RankedCodes wideKey verb declared (responseCodes verb declared) ↔
        ∀ c ∈ declared, ∀ d ∈ declared, isSuccess (codeKey c) = true → ¬ Crossed declared c d) ∧
      (∀ declared', declared'.Perm declared →
        (∀ a ∈ declared, ∀ b ∈ declared, codeKey a = codeKey b → a = b) →
        responseCodes verb declared' = responseCodes verb declared) ∧
      ∀ c ∈ declared, ∀ d ∈ declared, Numeric (codeKey c) → codeKey d = codeKey "default" →
        ∃ before after, responseCodes verb declared = before ++ d :: after ∧ c ∈ before := by
  have ranked := responseCodesKeyed verb declared
  refine ⟨ranked, widelyRanked verb declared, fun declared' perm apart => ?_,
    fun c hc d hd numeric default => ?_⟩
  · exact ranked.reordered (responseCodesKeyed verb declared') perm apart
  · exact defaultLast ranked hc hd numeric (default.trans defaultKey)

def patchCodes : List String := ["default", "2XX", "206", "500"]

theorem patchCodesRanked : ["500", "206", "default", "2XX"].Perm patchCodes ∧
    (∀ a ∈ patchCodes, ∀ b ∈ patchCodes, codeKey a = codeKey b → a = b) ∧
    responseCodes "patch" ["500", "206", "default", "2XX"] = responseCodes "patch" patchCodes ∧
    Numeric (codeKey "2XX") ∧
    ∃ before after, responseCodes "patch" patchCodes = before ++ "default" :: after ∧ "2XX" ∈ before := by
  have perm : ["500", "206", "default", "2XX"].Perm patchCodes := by decide
  have apart : ∀ a ∈ patchCodes, ∀ b ∈ patchCodes, codeKey a = codeKey b → a = b := by decide +kernel
  have numeric : Numeric (codeKey "2XX") := ⟨['X', 'X'], by decide +kernel, by simp⟩
  obtain ⟨_, _, reordered, last⟩ := responseCodesRanked "patch" patchCodes
  exact ⟨perm, apart, reordered _ perm apart, numeric,
    last "2XX" (by decide) "default" (by decide) numeric rfl⟩

theorem accentUpper : upperChar 'é' = ['É'] := by
  -- the texts of the tables are read as lists of characters before they are computed with
  have none : upperExpansions.lookup 'é'.toNat = none := by
    unfold upperExpansions expansionsOfText
    simp only [String.toList_append]
    repeat rw [String.toList_ofList]
    decide +kernel
  have moved : upperRuns.findSome? (·.target? 'é'.toNat) = some 'É'.toNat := by
    unfold upperRuns runsOfText
    simp only [Run.ofText, String.toList_append, String.toList_ofList]
    repeat rw [String.toList_ofList]
    decide +kernel
  rw [upperChar, if_neg (by decide), none, move, moved]
  rfl

theorem accentedKey : codeKey "2é" = "2É" ∧ codeKey "2éx" = "2ÉX" := by
  have short : MediaPattern.trim "2é".toList = ['2', 'é'] := by decide +kernel
  have long : MediaPattern.trim "2éx".toList = ['2', 'é', 'x'] := by decide +kernel
  have two : upperChar '2' = ['2'] := by decide
  have wild : upperChar 'x' = ['X'] := by decide
  constructor <;> simp only [codeKey, uppercase, short, long, String.toList_ofList, List.flatMap_cons,
    List.flatMap_nil, accentUpper, two, wild] <;> decide +kernel

/- Two codes that have one key when both are filled up to three characters; the shorter one comes first
though it is declared last. -/
theorem shortCodeFirst : responseCodes "patch" ["2éx", "2é"] = ["2é", "2éx"] ∧
    wideKey "2éx" = wideKey "2é" ∧
    ¬ RankedCodes wideKey "patch" ["2éx", "2é"] (responseCodes "patch" ["2éx", "2é"]) := by
  obtain ⟨short, long⟩ := accentedKey
  have crossed : Crossed ["2éx", "2é"] "2é" "2éx" := by
    rw [Crossed, short, long]
    exact ⟨by decide, "X", by decide, by decide, .inr ⟨rfl, by decide⟩⟩
  have success : isSuccess (codeKey "2é") = true := by rw [short]; decide
  refine ⟨?_, ?_, fun ranked => ?_⟩
  · have both : Entries.distinct ["2éx", "2é"] = ["2éx", "2é"] := by decide
    rw [responseCodes, both, List.map_cons, List.map_cons, List.map_nil, short, long]
    decide
  · rw [← String.toList_inj, wideKeyFill, wideKeyFill, short, long]
    decide
  · exact (widelyRanked _ _).mp ranked "2é" (by decide) "2éx" (by decide) success crossed

end ApiGraph.Preference
