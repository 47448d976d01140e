import ApiGraph.Proofs.Positions

/-! What a line and a column, both counted in characters, say of a text: how much of it comes before.
That is never less for a later line or column, and of the line and column of a position it is all
that the position has before it. -/
namespace ApiGraph.Text

section Position
variable {text : String} {done line before : List Char}

def passed (k : text.Pos) : List Char := (text.sliceTo k).copy.toList

def lineAt (k : text.Pos) : Nat := 1 + (passed k).count '\n'

def columnAt (k : text.Pos) : Nat := 1 + ((passed k).reverse.takeWhile (· != '\n')).length

theorem bytesOfText (cs : List Char) : (String.ofList cs).utf8ByteSize = byteCount cs := by
  induction cs with
  | nil => rfl
  | cons c r ih => rw [String.ofList_cons, String.utf8ByteSize_append, String.utf8ByteSize_singleton, ih,
      byteCountCons]

theorem passedSplits (k : text.Pos) :
    byteCount (passed k) = k.offset.byteIdx ∧ ∃ rest, text.toList = passed k ++ rest := by
  constructor
  · rw [← bytesOfText, passed, String.ofList_toList, k.splits.offset_eq_rawEndPos]
    rfl
  · exact ⟨(text.sliceFrom k).copy.toList, by rw [passed, ← String.toList_append, ← k.splits.eq_append]⟩

theorem boundaryOfPrefix (h : before <+: text.toList) :
    String.Pos.Raw.IsValid text ⟨byteCount before⟩ := by
  obtain ⟨rest, whole⟩ := h
  refine String.Pos.Raw.isValid_iff_exists_append.mpr ⟨String.ofList before, String.ofList rest, ?_, ?_⟩
  · rw [← String.ofList_append, whole, String.ofList_toList]
  · rw [String.Pos.Raw.ext_iff, String.byteIdx_rawEndPos, bytesOfText]

theorem unfinishedNone (ended : WholeLines done) : done.reverse.takeWhile (· != '\n') = [] := by
  induction ended with
  | nil => rfl
  | @cons line rest _ _ ih =>
    rw [List.reverse_append, List.reverse_cons, List.append_assoc, List.takeWhile_append, ih]
    split
    · rename_i none
      simp [List.eq_nil_of_length_eq_zero (List.length_reverse.symm.trans none.symm)]
    · rfl

theorem unfinishedLine (ended : WholeLines done) (whole : '\n' ∉ line) :
    ((done ++ line).reverse.takeWhile (· != '\n')).length = line.length := by
  have plain : ∀ c ∈ line.reverse, (c != '\n') = true := by
    intro c mem
    exact bne_iff_ne.mpr fun feed => whole (feed ▸ List.mem_reverse.mp mem)
  rw [List.reverse_append, List.takeWhile_append_of_pos plain, unfinishedNone ended, List.append_nil,
    List.length_reverse]

end Position

def upTo (column : Nat) : List (List Char) → Nat → List Char
  | [], _ => []
  | text :: more, line =>
    if line = 1 then text.take (column - 1) else text ++ upTo column more (line - 1)

section Before
variable {line line' column column' : Nat} {pieces : List (List Char)} {cs rest : List Char}

theorem offsetUpTo : offsetIn column pieces line = byteCount (upTo column pieces line) := by
  induction pieces generalizing line with
  | nil => rfl
  | cons text more ih =>
    rw [offsetIn, upTo]
    split
    · rfl
    · rw [ih, byteCountAppend]

theorem upToPrefix : upTo column pieces line <+: pieces.flatten := by
  induction pieces generalizing line with
  | nil => exact List.prefix_rfl
  | cons text more ih =>
    rw [upTo, List.flatten_cons]
    split
    · exact (List.take_prefix _ _).trans (List.prefix_append _ _)
    · exact (List.prefix_append_right_inj _).mpr ih

theorem upToGrows (first : 1 ≤ line) (order : line < line' ∨ line = line' ∧ column ≤ column') :
    upTo column pieces line <+: upTo column' pieces line' := by
  induction pieces generalizing line line' with
  | nil => exact List.prefix_rfl
  | cons text more ih =>
    rw [upTo, upTo]
    by_cases here : line = 1
    · by_cases same : line' = 1
      · rw [if_pos here, if_pos same]
        exact List.take_prefix_take_left (by omega)
      · rw [if_pos here, if_neg same]
        exact (List.take_prefix _ _).trans (List.prefix_append _ _)
    · rw [if_neg here, if_neg (by omega)]
      exact (List.prefix_append_right_inj _).mpr (ih (by omega) (by omega))

theorem linesFlatten (cs : List Char) : (lines cs).flatten = cs := by
  induction cs with
  | nil => rfl
  | cons c r ih =>
    rw [lines]
    split
    · rename_i feed
      rw [List.flatten_cons, ih, feed]
      rfl
    · split
      · rename_i none
        rw [← ih, none]
        rfl
      · rename_i first more same
        rw [← ih, same]
        rfl

theorem linesAlone (whole : '\n' ∉ cs) (some_ : cs ≠ []) : lines cs = [cs] := by
  induction cs with
  | nil => exact absurd rfl some_
  | cons c r ih =>
    obtain ⟨other, later⟩ := List.ne_and_not_mem_of_not_mem_cons whole
    rw [lines, if_neg (Ne.symm other)]
    cases r with
    | nil => rfl
    | cons d r => rw [ih later (List.cons_ne_nil d r)]

theorem upToLine (whole : '\n' ∉ cs) (rest : List Char) :
    upTo (1 + cs.length) (lines (cs ++ rest)) 1 = cs := by
  cases rest with
  | cons c rest =>
    obtain ⟨after, more, first⟩ := linesFirst whole c rest
    rw [first, upTo, if_pos rfl, Nat.add_sub_cancel_left, List.take_left]
  | nil =>
    rw [List.append_nil]
    by_cases none : cs = []
    · rw [none]
      rfl
    · rw [linesAlone whole none, upTo, if_pos rfl, Nat.add_sub_cancel_left, List.take_length]

end Before

section Offset
variable {text : String} {line column line' column' : Nat}

theorem offsetBefore (first : 1 ≤ line) :
    offsetOf text line column = byteCount (upTo column (lines text.toList) line) := by
  rw [offsetOf, if_neg (by omega), offsetUpTo]

theorem offsetOfPosition (k : text.Pos) : offsetOf text (lineAt k) (columnAt k) = k.offset.byteIdx := by
  obtain ⟨bytes, rest, all⟩ := passedSplits k
  obtain ⟨done, line, same, ended, whole⟩ := splitLine (passed k)
  have feeds : (passed k).count '\n' = done.count '\n' := by
    rw [same, List.count_append, List.count_eq_zero.mpr whole, Nat.add_zero]
  have column : columnAt k = 1 + line.length := by rw [columnAt, same, unfinishedLine ended whole]
  rw [← bytes, offsetOf, if_neg (by simp [lineAt]), column, lineAt, feeds, Nat.add_comm 1 (done.count _), all,
    same, List.append_assoc, offsetOver _ ended _ 0, offsetUpTo, upToLine whole, byteCountAppend]

theorem offsetBoundary (first : 1 ≤ line) :
    String.Pos.Raw.IsValid text ⟨offsetOf text line column⟩ := by
  rw [offsetBefore first]
  exact boundaryOfPrefix (by simpa [linesFlatten] using @upToPrefix line column (lines text.toList))

theorem offsetGrows (first : 1 ≤ line) (order : line < line' ∨ line = line' ∧ column ≤ column') :
    offsetOf text line column ≤ offsetOf text line' column' := by
  obtain ⟨more, longer⟩ := @upToGrows _ _ _ _ (lines text.toList) first order
  rw [offsetBefore first, offsetBefore (by omega), ← longer, byteCountAppend]
  exact Nat.le_add_right _ _

/- The line and column of a position give its offset back. Any line and column at all give an offset at
the boundary of a character, and the offset does not go back where they go on. -/
theorem offsetsInvert (text : String) :
    (∀ k : text.Pos, offsetOf text (lineAt k) (columnAt k) = k.offset.byteIdx) ∧
    ∀ line column, 1 ≤ line → String.Pos.Raw.IsValid text ⟨offsetOf text line column⟩ ∧
      offsetOf text line column ≤ text.utf8ByteSize ∧
      ∀ line' column', line < line' ∨ line = line' ∧ column ≤ column' →
        offsetOf text line column ≤ offsetOf text line' column' := by
  refine ⟨offsetOfPosition, fun line column first => ?_⟩
  have boundary : String.Pos.Raw.IsValid text ⟨offsetOf text line column⟩ := offsetBoundary first
  exact ⟨boundary, boundary.le_utf8ByteSize, fun line' column' order => offsetGrows first order⟩

/- Letters of two bytes on two lines, and a column that its line does not have. -/
theorem accentsInverted : let text := "\x7b\"é\": 1,\n \"ñ\" x\x7d"
    (∃ k : text.Pos, lineAt k = 2 ∧ columnAt k = 6 ∧ k.offset.byteIdx = 16 ∧
      offsetOf text 2 6 = k.offset.byteIdx) ∧
    String.Pos.Raw.IsValid text ⟨offsetOf text 1 40⟩ ∧ offsetOf text 1 40 = 10 ∧
    offsetOf text 1 40 ≤ offsetOf text 2 1 ∧ offsetOf text 2 1 = 10 := by
  intro text
  let k : text.Pos := ⟨⟨16⟩, by decide⟩
  have line : lineAt k = 2 := by decide
  have column : columnAt k = 6 := by decide
  have inverted := (offsetsInvert text).1 k
  rw [line, column] at inverted
  obtain ⟨boundary, _, onwards⟩ := (offsetsInvert text).2 1 40 (by decide)
  exact ⟨⟨k, line, column, rfl, inverted⟩, boundary, by decide, onwards 2 1 (by decide), by decide⟩

end Offset
end ApiGraph.Text
