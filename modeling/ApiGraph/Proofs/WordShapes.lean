import ApiGraph.Words
import Mathlib.Data.List.Chain

/-! The words of a plain name: small letters and then digits. Written one after the other with capitals at
their beginnings they are cut again where a capital is, so what becomes of them the second time can be
told character by character. -/
namespace ApiGraph.Words
open Text

def Ascii (cs : List Char) : Prop := ∀ c ∈ cs, isAscii c = true

instance (cs : List Char) : Decidable (Ascii cs) :=
  decidable_of_iff (cs.all isAscii = true) List.all_eq_true

theorem asciiEach {P : Char → Prop} (each : ∀ n < 128, P (Char.ofNat n)) {c : Char}
    (ascii : isAscii c = true) : P c := by
  have here := each c.toNat (of_decide_eq_true ascii)
  rwa [Char.ofNat_toNat] at here

section Characters
variable {c : Char}

theorem asciiBelow {top : Char} (low : top.toNat < 128) (below : c ≤ top) : isAscii c = true :=
  decide_eq_true (Nat.lt_of_le_of_lt (UInt32.le_iff_toNat_le.mp below) low)

structure Small (c : Char) : Prop where
  ascii : isAscii c = true
  lowercase : isLowercase c = true
  lower : asciiLower c = c
  digit : isAsciiDigit c = false

theorem small (letter : isAsciiLower c = true) : Small c := by
  have ascii : isAscii c = true :=
    asciiBelow (by decide) (of_decide_eq_true (Bool.and_eq_true_iff.mp letter).2)
  obtain ⟨h₁, h₂, h₃⟩ := asciiEach (P := fun c => isAsciiLower c = true →
    isLowercase c = true ∧ asciiLower c = c ∧ isAsciiDigit c = false) (by decide) ascii letter
  exact ⟨ascii, h₁, h₂, h₃⟩

structure Capital (c : Char) : Prop where
  lowercase : isLowercase c = false
  uppercase : isUppercase c = true
  alphabetic : isAlphabetic c = true
  changed : asciiLower c ≠ c
  upper : asciiUpper c = c
  digit : isAsciiDigit c = false

theorem capital (letter : isAsciiLower c = true) : Capital (asciiUpper c) := by
  obtain ⟨h₁, h₂, h₃, h₄, h₅, h₆⟩ := asciiEach (P := fun c => isAsciiLower c = true →
    isLowercase (asciiUpper c) = false ∧ isUppercase (asciiUpper c) = true ∧
      isAlphabetic (asciiUpper c) = true ∧ asciiLower (asciiUpper c) ≠ asciiUpper c ∧
      asciiUpper (asciiUpper c) = asciiUpper c ∧ isAsciiDigit (asciiUpper c) = false) (by decide)
    (small letter).ascii letter
  exact ⟨h₁, h₂, h₃, h₄, h₅, h₆⟩

structure Digit (c : Char) : Prop where
  ascii : isAscii c = true
  small : isAsciiLower c = false
  lowercase : isLowercase c = false
  uppercase : isUppercase c = false
  alphabetic : isAlphabetic c = false
  lower : asciiLower c = c
  upper : asciiUpper c = c

theorem digit (numeral : isAsciiDigit c = true) : Digit c := by
  have ascii : isAscii c = true :=
    asciiBelow (by decide) (of_decide_eq_true (Bool.and_eq_true_iff.mp numeral).2)
  obtain ⟨h₁, h₂, h₃, h₄, h₅, h₆⟩ := asciiEach (P := fun c => isAsciiDigit c = true →
    isAsciiLower c = false ∧ isLowercase c = false ∧ isUppercase c = false ∧
      isAlphabetic c = false ∧ asciiLower c = c ∧ asciiUpper c = c) (by decide) ascii numeral
  exact ⟨ascii, h₁, h₂, h₃, h₄, h₅, h₆⟩

variable (ascii : isAscii c = true)
include ascii

theorem lowerPlain : (isAsciiLower (asciiLower c) || isAsciiDigit (asciiLower c)) = isAlphanumeric c :=
  asciiEach (P := fun c => (isAsciiLower (asciiLower c) || isAsciiDigit (asciiLower c)) = isAlphanumeric c)
    (by decide) ascii

theorem letterOrDigit : isAlphanumeric c = (isAlphabetic c || isAsciiDigit c) :=
  asciiEach (P := fun c => isAlphanumeric c = (isAlphabetic c || isAsciiDigit c)) (by decide) ascii

theorem lowerDigit : isAsciiDigit (asciiLower c) = isAsciiDigit c :=
  asciiEach (P := fun c => isAsciiDigit (asciiLower c) = isAsciiDigit c) (by decide) ascii

theorem upperLower : asciiUpper (asciiLower c) = asciiUpper c :=
  asciiEach (P := fun c => asciiUpper (asciiLower c) = asciiUpper c) (by decide) ascii

theorem lowerAscii : isAscii (asciiLower c) = true :=
  asciiEach (P := fun c => isAscii (asciiLower c) = true) (by decide) ascii

end Characters

def wordChar (c : Char) : Bool := isAsciiLower c || isAsciiDigit c

structure Word (w : List Char) : Prop where
  filled : w ≠ []
  plain : ∀ c ∈ w, wordChar c = true
  ordered : w.IsChain fun a b => isAsciiDigit a = true → isAsciiDigit b = true

theorem wordCharIff {c : Char} : wordChar c = true ↔ isAsciiLower c = true ∨ isAsciiDigit c = true :=
  Bool.or_eq_true_iff

theorem Word.begins {x : Char} {t : List Char} (h : Word (x :: t)) :
    isAsciiLower x = true ∨ isAsciiDigit x = true :=
  wordCharIff.mp (h.plain x List.mem_cons_self)

structure Unfinished (prev : Char) (word : List Char) : Prop where
  shaped : Word word
  ascii : isAscii prev = true
  last : word.getLast? = some (asciiLower prev)

section Splitting
variable {prev c : Char} {word cs : List Char}

theorem lowerSingle (ascii : isAscii c = true) : lowerChar c = [asciiLower c] := if_pos ascii
theorem upperSingle (ascii : isAscii c = true) : upperChar c = [asciiUpper c] := if_pos ascii

theorem wordBegins (ascii : isAscii c = true) (plain : isAlphanumeric c = true) :
    Unfinished c [asciiLower c] := by
  have here : wordChar (asciiLower c) = true := by rw [wordChar, lowerPlain ascii, plain]
  exact ⟨⟨List.cons_ne_nil _ _, by simpa using here, List.isChain_singleton _⟩, ascii, rfl⟩

theorem wordGoesOn (h : Unfinished prev word) (ascii : isAscii c = true)
    (plain : isAlphanumeric c = true) (within : boundary prev c cs = false) :
    Unfinished c (word ++ [asciiLower c]) := by
  have next : wordChar (asciiLower c) = true := by rw [wordChar, lowerPlain ascii, plain]
  have ordered : isAsciiDigit (asciiLower prev) = true → isAsciiDigit (asciiLower c) = true := by
    intro number
    rw [lowerDigit h.ascii] at number
    have unlettered : isAlphabetic c = false := by
      simp only [boundary, Bool.or_eq_false_iff, number, Bool.true_and] at within
      exact within.2
    rwa [lowerDigit ascii, ← Bool.false_or (isAsciiDigit c), ← unlettered, ← letterOrDigit ascii]
  have plains : ∀ x ∈ word ++ [asciiLower c], wordChar x = true := by
    intro x mem
    rcases List.mem_append.mp mem with old | new
    · exact h.shaped.plain x old
    · rw [List.mem_singleton.mp new]
      exact next
  have chain : (word ++ [asciiLower c]).IsChain
      fun a b => isAsciiDigit a = true → isAsciiDigit b = true := by
    refine List.isChain_append.mpr ⟨h.shaped.ordered, List.isChain_singleton _, ?_⟩
    intro a last b first
    rw [h.last] at last
    cases last
    cases first
    exact ordered
  exact ⟨⟨by simp, plains, chain⟩, ascii, by simp⟩

theorem wordsFromShaped (ascii : Ascii cs) (unfinished : word = [] ∨ Unfinished prev word) :
    ∀ w ∈ wordsFrom prev word cs, Word w := by
  induction cs generalizing prev word with
  | nil =>
    rcases unfinished with rfl | open_
    · simp [wordsFrom]
    · simpa [wordsFrom, open_.shaped.filled] using open_.shaped
  | cons c r ih =>
    obtain ⟨here, later⟩ := List.forall_mem_cons.mp ascii
    have closed : ∀ w ∈ wordsFrom c [] r, Word w := ih later (.inl rfl)
    rw [wordsFrom]
    cases plain : isAlphanumeric c with
    | false =>
      rw [Bool.not_false, if_pos rfl]
      rcases unfinished with rfl | open_
      · exact closed
      · rw [if_neg (by simpa using open_.shaped.filled)]
        exact List.forall_mem_cons.mpr ⟨open_.shaped, closed⟩
    | true =>
      have begins := ih later (.inr (wordBegins here plain))
      rw [if_neg (by simp), lowerSingle here]
      rcases unfinished with rfl | open_
      · exact begins
      · cases within : boundary prev c r with
        | true =>
          rw [if_pos (by simpa using open_.shaped.filled)]
          exact List.forall_mem_cons.mpr ⟨open_.shaped, begins⟩
        | false =>
          rw [if_neg (by simp)]
          exact ih later (.inr (wordGoesOn open_ here plain within))

theorem wordsFromFlatten (prev : Char) (word cs : List Char) : (wordsFrom prev word cs).flatten =
    word ++ (cs.filter isAlphanumeric).flatMap lowerChar := by
  induction cs generalizing prev word with
  | nil => cases word <;> simp [wordsFrom]
  | cons c r ih =>
    rw [wordsFrom]
    cases plain : isAlphanumeric c with
    | false =>
      rw [Bool.not_false, if_pos rfl, List.filter_cons_of_neg (by simp [plain])]
      split
      · rename_i empty
        rw [ih, List.isEmpty_iff.mp empty]
      · rw [List.flatten_cons, ih, List.nil_append]
    | true =>
      rw [if_neg (by simp), List.filter_cons_of_pos plain, List.flatMap_cons]
      split
      · rw [List.flatten_cons, ih]
      · rw [ih, List.append_assoc]

end Splitting

section Whole
variable {cs : List Char}

theorem wordsShaped (ascii : Ascii cs) : ∀ w ∈ wordsOf cs, Word w := wordsFromShaped ascii (.inl rfl)

theorem wordsFlatten (cs : List Char) :
    (wordsOf cs).flatten = (cs.filter isAlphanumeric).flatMap lowerChar := wordsFromFlatten ' ' [] cs

end Whole

def recased (prev : Char) : List Char → List Char
  | [] => []
  | c :: r => (if boundary prev c r then asciiUpper c else asciiLower c) :: recased c r

section Recasing
variable {prev c : Char} {word cs : List Char}

theorem capitalizeSingle (ascii : isAscii c = true) (r : List Char) :
    capitalize (asciiLower c :: r) = asciiUpper c :: r := by
  rw [capitalize, upperSingle (lowerAscii ascii), upperLower ascii]
  rfl

/- Words that are not parted by other characters are the name itself in another case. -/
theorem wordsFromJoined (ascii : Ascii cs) (plain : ∀ c ∈ cs, isAlphanumeric c = true)
    (filled : word ≠ []) : ∃ t ws, wordsFrom prev word cs = (word ++ t) :: ws ∧
      t ++ ws.flatMap capitalize = recased prev cs := by
  induction cs generalizing prev word with
  | nil => exact ⟨[], [], by simp [wordsFrom, filled], rfl⟩
  | cons c r ih =>
    obtain ⟨here, later⟩ := List.forall_mem_cons.mp ascii
    obtain ⟨letter, letters⟩ := List.forall_mem_cons.mp plain
    have unfinished : word.isEmpty = false := by simpa using filled
    rw [wordsFrom, letter, unfinished, lowerSingle here, recased]
    cases begins : boundary prev c r with
    | true =>
      obtain ⟨t, ws, split, joined⟩ := @ih c [asciiLower c] later letters (List.cons_ne_nil _ _)
      exact ⟨[], wordsFrom c [asciiLower c] r, by simp, by
        simp [split, capitalizeSingle here, ← joined]⟩
    | false =>
      obtain ⟨t, ws, split, joined⟩ := @ih c (word ++ [asciiLower c]) later letters (by simp)
      exact ⟨asciiLower c :: t, ws, by simp [split], by simp [joined]⟩

end Recasing
end ApiGraph.Words
