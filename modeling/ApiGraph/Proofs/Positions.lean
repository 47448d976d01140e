import ApiGraph.Text.Lines
import Mathlib.Data.List.Basic

/-! Bytes of a text, the lines they stand on, and what an offset makes of a line and a column. A place
counts bytes and an offset characters, so the two agree on the lines whose characters have one byte
each. -/
namespace ApiGraph.Text

section Bytes
variable {cs ds : List Char}

theorem byteCountFrom (n : Nat) : cs.foldl (fun n c => n + c.utf8Size) n = n + byteCount cs := by
  induction cs generalizing n with
  | nil => rfl
  | cons c r ih =>
    have first : byteCount (c :: r) = c.utf8Size + byteCount r := by
      rw [byteCount, List.foldl_cons, ih, Nat.zero_add]
    rw [List.foldl_cons, ih, first, Nat.add_assoc]

@[simp] theorem byteCountNil : byteCount [] = 0 := rfl

@[simp] theorem byteCountCons (c : Char) : byteCount (c :: cs) = c.utf8Size + byteCount cs := by
  rw [byteCount, List.foldl_cons, byteCountFrom, Nat.zero_add]

@[simp] theorem byteCountAppend : byteCount (cs ++ ds) = byteCount cs + byteCount ds := by
  induction cs with
  | nil => simp
  | cons c r ih => simp [ih, Nat.add_assoc]

theorem byteCountSuffix (h : ds <:+ cs) : byteCount ds ≤ byteCount cs := by
  obtain ⟨first, rfl⟩ := h
  rw [byteCountAppend]
  exact Nat.le_add_left _ _

theorem lengthLeBytes (cs : List Char) : cs.length ≤ byteCount cs := by
  induction cs with
  | nil => exact Nat.le_refl _
  | cons c r ih =>
    have := c.utf8Size_pos
    rw [byteCountCons, List.length_cons]
    omega

def Narrow (cs : List Char) : Prop := ∀ c ∈ cs, c.utf8Size = 1

instance (cs : List Char) : Decidable (Narrow cs) :=
  decidable_of_iff (cs.all (fun c => c.utf8Size == 1) = true) (by simp [Narrow])

theorem narrowIff (cs : List Char) : Narrow cs ↔ byteCount cs = cs.length := by
  induction cs with
  | nil => simp [Narrow]
  | cons c r ih =>
    have positive := c.utf8Size_pos
    have longer := lengthLeBytes r
    rw [Narrow, List.forall_mem_cons, byteCountCons, List.length_cons, ← Narrow, ih]
    omega

end Bytes

inductive WholeLines : List Char → Prop
  | nil : WholeLines []
  | cons {line rest} (whole : '\n' ∉ line) (more : WholeLines rest) : WholeLines (line ++ '\n' :: rest)

section Line
variable {line done rest : List Char} {c : Char}

theorem WholeLines.push (h : WholeLines done) (some_ : done ≠ []) (c : Char) :
    WholeLines (c :: done) := by
  by_cases feed : c = '\n'
  · subst feed
    exact @WholeLines.cons [] _ List.not_mem_nil h
  · cases h with
    | nil => exact absurd rfl some_
    | @cons line rest whole more =>
      have longer : '\n' ∉ c :: line := by simpa [whole] using fun same => feed same.symm
      exact .cons longer more

theorem WholeLines.append (h : WholeLines done) (h' : WholeLines rest) : WholeLines (done ++ rest) := by
  induction h with
  | nil => exact h'
  | cons whole _ ih =>
    rw [List.append_assoc]
    exact .cons whole ih

theorem splitLine (cs : List Char) :
    ∃ done line, cs = done ++ line ∧ WholeLines done ∧ '\n' ∉ line := by
  induction cs with
  | nil => exact ⟨[], [], rfl, .nil, List.not_mem_nil⟩
  | cons c r ih =>
    obtain ⟨done, line, rfl, lines, whole⟩ := ih
    by_cases feed : c = '\n'
    · subst feed
      exact ⟨'\n' :: done, line, rfl, @WholeLines.cons [] _ List.not_mem_nil lines, whole⟩
    · by_cases first : done = []
      · subst first
        exact ⟨[], c :: line, rfl, .nil, by simpa [whole] using fun same => feed same.symm⟩
      · exact ⟨c :: done, line, rfl, lines.push first c, whole⟩

theorem splitByte {cs : List Char} {k : Nat} (inside : k < byteCount cs) : ∃ before c rest,
    cs = before ++ c :: rest ∧ byteCount before ≤ k ∧ k < byteCount before + c.utf8Size := by
  induction cs generalizing k with
  | nil => simp at inside
  | cons c r ih =>
    by_cases here : k < c.utf8Size
    · exact ⟨[], c, r, rfl, Nat.zero_le k, by simpa using here⟩
    · rw [byteCountCons] at inside
      obtain ⟨before, d, rest, rfl, low, high⟩ := @ih (k - c.utf8Size) (by omega)
      have longer : byteCount (c :: before) = c.utf8Size + byteCount before := byteCountCons c
      exact ⟨c :: before, d, rest, rfl, by omega, by omega⟩

/- The byte `k` of a text is in the character `c`, which comes after `line` on its line and after the
lines `done`. -/
structure Stands (cs : List Char) (k : Nat) (done line : List Char) (c : Char) (rest : List Char) :
    Prop where
  text : cs = done ++ (line ++ c :: rest)
  lines : WholeLines done
  whole : '\n' ∉ line
  low : byteCount (done ++ line) ≤ k
  high : k < byteCount (done ++ line) + c.utf8Size

theorem byteStands {cs : List Char} {k : Nat} (inside : k < byteCount cs) :
    ∃ done line c rest, Stands cs k done line c rest := by
  obtain ⟨before, c, rest, rfl, low, high⟩ := splitByte inside
  obtain ⟨done, line, rfl, lines, whole⟩ := splitLine before
  exact ⟨done, line, c, rest, by simp, lines, whole, low, high⟩

def Place.past (place : Place) : List Char → Place
  | [] => place
  | c :: r => (if c = '\n' then (⟨place.line + 1, 0⟩ : Place)
      else ⟨place.line, place.column + c.utf8Size⟩).past r

theorem advanceNone (place : Place) (cs : List Char) : place.advance cs 0 = place := by
  cases cs with
  | nil => rfl
  | cons => simp [Place.advance]

theorem advanceOver (place : Place) (cs rest : List Char) (n : Nat) :
    place.advance (cs ++ rest) (byteCount cs + n) = (place.past cs).advance rest n := by
  induction cs generalizing place with
  | nil => simp [Place.past]
  | cons c r ih =>
    have positive := c.utf8Size_pos
    have count : byteCount (c :: r) = c.utf8Size + byteCount r := byteCountCons c
    have left : byteCount (c :: r) + n - c.utf8Size = byteCount r + n := by omega
    rw [List.cons_append, Place.advance, if_neg (by omega), if_neg (by omega), left, Place.past]
    split
    · exact ih _
    · exact ih _

theorem pastAppend (place : Place) (cs rest : List Char) :
    place.past (cs ++ rest) = (place.past cs).past rest := by
  induction cs generalizing place with
  | nil => rfl
  | cons c r ih => exact ih _

theorem pastLine (place : Place) (whole : '\n' ∉ line) :
    place.past line = ⟨place.line, place.column + byteCount line⟩ := by
  induction line generalizing place with
  | nil => rfl
  | cons c r ih =>
    obtain ⟨other, later⟩ := List.ne_and_not_mem_of_not_mem_cons whole
    rw [Place.past, if_neg (Ne.symm other), ih _ later, byteCountCons, Nat.add_assoc]

theorem pastLines (n : Nat) (lines : WholeLines done) :
    (⟨n, 0⟩ : Place).past done = ⟨n + done.count '\n', 0⟩ := by
  induction lines generalizing n with
  | nil => rfl
  | @cons line rest whole _ ih =>
    have none : line.count '\n' = 0 := List.count_eq_zero.mpr whole
    rw [pastAppend, pastLine _ whole, Place.past, if_pos rfl, ih, List.count_append, none,
      List.count_cons_self]
    simp [Nat.add_comm, Nat.add_left_comm]

theorem placeOfByte {cs : List Char} {k : Nat} (stands : Stands cs k done line c rest) :
    placeOf cs (k + 1) = if c = '\n' then ⟨done.count '\n' + 2, 0⟩
      else ⟨done.count '\n' + 1, k + 1 - byteCount done⟩ := by
  obtain ⟨text, ended, whole, low, high⟩ := stands
  rw [byteCountAppend] at low high
  obtain ⟨i, column⟩ : ∃ i, k + 1 - byteCount done = byteCount line + (i + 1) :=
    ⟨k - byteCount done - byteCount line, by omega⟩
  have reached : k + 1 = byteCount done + (byteCount line + (i + 1)) := by omega
  rw [text, placeOf, column, reached, advanceOver, advanceOver, pastLines 1 ended, pastLine _ whole,
    Place.advance, if_neg (Nat.succ_ne_zero i)]
  by_cases feed : c = '\n'
  · have one : c.utf8Size = 1 := by
      rw [feed]
      rfl
    have first : i + 1 = 1 := by omega
    rw [if_neg (by omega), if_pos feed, if_pos feed, one, first, advanceNone]
    simp only [Place.mk.injEq, and_true]
    omega
  · rw [if_neg feed, if_neg feed]
    by_cases last : i + 1 < c.utf8Size
    · rw [if_pos last, Nat.zero_add, Nat.add_comm 1]
    · have all : c.utf8Size = i + 1 := by omega
      rw [if_neg last, all, Nat.sub_self, advanceNone, Nat.zero_add, Nat.add_comm 1]

theorem linesOver (whole : '\n' ∉ line) (rest : List Char) :
    lines (line ++ '\n' :: rest) = (line ++ ['\n']) :: lines rest := by
  induction line with
  | nil => rfl
  | cons c r ih =>
    obtain ⟨other, later⟩ := List.ne_and_not_mem_of_not_mem_cons whole
    rw [List.cons_append, lines, if_neg (Ne.symm other), ih later]
    rfl

theorem linesFirst (whole : '\n' ∉ line) (c : Char) (rest : List Char) :
    ∃ after more, lines (line ++ c :: rest) = (line ++ c :: after) :: more := by
  induction line with
  | nil =>
    rw [List.nil_append, lines]
    split
    · rename_i feed
      exact ⟨[], lines rest, by rw [feed]; rfl⟩
    · split
      · exact ⟨[], [], rfl⟩
      · exact ⟨_, _, rfl⟩
  | cons d r ih =>
    obtain ⟨other, later⟩ := List.ne_and_not_mem_of_not_mem_cons whole
    obtain ⟨after, more, same⟩ := ih later
    exact ⟨after, more, by rw [List.cons_append, lines, if_neg (Ne.symm other), same]; rfl⟩

theorem offsetOver (column : Nat) (ended : WholeLines done) (rest : List Char) (n : Nat) :
    offsetIn column (lines (done ++ rest)) (done.count '\n' + (n + 1)) =
      byteCount done + offsetIn column (lines rest) (n + 1) := by
  induction ended with
  | nil => simp
  | @cons line more whole _ ih =>
    have none : line.count '\n' = 0 := List.count_eq_zero.mpr whole
    have count : (line ++ '\n' :: more).count '\n' + (n + 1) = more.count '\n' + (n + 1) + 1 := by
      rw [List.count_append, none, List.count_cons_self]
      omega
    rw [count, List.append_assoc, List.cons_append, linesOver whole, offsetIn, if_neg (by omega),
      Nat.add_sub_cancel, ih]
    simp [Nat.add_assoc]

theorem takeBytes {j : Nat} (after : List Char) (low : byteCount line ≤ j)
    (high : j < byteCount line + c.utf8Size) :
    j ≤ byteCount ((line ++ c :: after).take j) ∧
      (byteCount ((line ++ c :: after).take j) = j ↔ Narrow line ∧ byteCount line = j) := by
  have shorter := lengthLeBytes line
  rw [narrowIff, List.take_append, List.take_of_length_le (by omega), byteCountAppend]
  cases beyond : j - line.length with
  | zero =>
    rw [List.take_zero, byteCountNil]
    omega
  | succ n =>
    rw [List.take_succ_cons, byteCountCons]
    omega

theorem offsetStart (pieces : List (List Char)) : offsetIn 0 pieces 1 = 0 := by
  cases pieces <;> rfl

theorem offsetOfFeed {text : String} {k : Nat} (stands : Stands text.toList k done line '\n' rest) :
    offsetOf text (done.count '\n' + 2) 0 = k + 1 := by
  obtain ⟨same, ended, whole, low, high⟩ := stands
  have next : WholeLines (done ++ (line ++ ['\n'])) := ended.append (.cons whole .nil)
  have all : text.toList = done ++ (line ++ ['\n']) ++ rest := by simp [same]
  have none : line.count '\n' = 0 := List.count_eq_zero.mpr whole
  have count : (done ++ (line ++ ['\n'])).count '\n' = done.count '\n' + 1 := by simp [none]
  have one : ('\n' : Char).utf8Size = 1 := rfl
  have reached := offsetOver 0 next rest 0
  rw [← all, count, offsetStart] at reached
  rw [offsetOf, if_neg (Nat.succ_ne_zero _), reached]
  simp only [byteCountAppend, byteCountCons, byteCountNil] at low high ⊢
  omega

/- The offset that is made of the place of a byte is the byte, if it is the first one of a character that
is no line feed and has only characters of one byte before it on its line. Else it comes after it. -/
theorem offsetOfByte {text : String} {k : Nat} (stands : Stands text.toList k done line c rest) :
    k ≤ offsetOf text (placeOf text.toList (k + 1)).line (placeOf text.toList (k + 1)).column ∧
      (offsetOf text (placeOf text.toList (k + 1)).line (placeOf text.toList (k + 1)).column = k ↔
        c ≠ '\n' ∧ Narrow line ∧ byteCount (done ++ line) = k) := by
  rw [placeOfByte stands]
  by_cases feed : c = '\n'
  · subst feed
    rw [if_pos rfl, offsetOfFeed stands]
    simp
  · obtain ⟨same, ended, whole, low, high⟩ := stands
    rw [byteCountAppend] at low high ⊢
    have back : k + 1 - byteCount done - 1 = k - byteCount done := by omega
    obtain ⟨after, more, first⟩ := linesFirst whole c rest
    obtain ⟨least, exactly⟩ := @takeBytes line c (k - byteCount done) after
      (by omega) (by omega)
    rw [if_neg feed, offsetOf, if_neg (Nat.succ_ne_zero _), same, offsetOver _ ended _ 0, first, offsetIn,
      if_pos rfl, back]
    constructor
    · omega
    · constructor
      · intro reached
        obtain ⟨narrow, here⟩ := exactly.mp (by omega)
        exact ⟨feed, narrow, by omega⟩
      · intro ⟨_, narrow, here⟩
        have reached := exactly.mpr ⟨narrow, by omega⟩
        omega

end Line
end ApiGraph.Text
