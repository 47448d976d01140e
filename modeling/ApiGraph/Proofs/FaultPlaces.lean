import ApiGraph.Fragment
import ApiGraph.Proofs.Positions

/-! Where a fault of JSON text is reported. The offending byte stands in the text unless the text ends too
early. Its place is told in bytes and turned into an offset in characters, so that the offset points
further than the byte if a character before it on its line has more than one. -/
namespace ApiGraph.Json
open Text

def Cause.isEnd : Cause → Bool
  | .endInValue | .endInString | .endInList | .endInObject => true
  | _ => false

def Fault.byte (f : Fault) (text : String) : Nat := byteCount text.toList - (f.bytesAfter + 1)

/- Unless the text ended, the offending byte is one of its last `n`. -/
def Fault.Within (f : Fault) (n : Nat) : Prop := f.cause.isEnd = true ∨ f.bytesAfter < n

def Confined {β : Type} (n : Nat) (good : β → Prop) : Except Fault β → Prop
  | .ok b => good b
  | .error f => f.Within n

def Leaves {α : Type} (n : Nat) (p : α × List Char) : Prop := byteCount p.2 ≤ n

namespace Confined
variable {α β γ : Type} {n : Nat} {good : β → Prop} {good' : γ → Prop} {c : Char} {r : List Char}

theorem bind {x : Except Fault β} {f : β → Except Fault γ} (first : Confined n good x)
    (next : ∀ b, good b → Confined n good' (f b)) : Confined n good' (x >>= f) := by
  cases x with
  | error e => exact first
  | ok b => exact next b first

theorem result {x : Except Fault β} {b : β} (h : Confined n good x) (held : x = .ok b) : good b := by
  subst held
  exact h

theorem fault {x : Except Fault β} {f : Fault} (h : Confined n good x) (held : x = .error f) :
    f.Within n := by
  subst held
  exact h

theorem at_ (cause : Cause) (fits : byteCount (c :: r) ≤ n) :
    Confined n good (.error (.at cause (c :: r))) := by
  have positive := c.utf8Size_pos
  rw [byteCountCons] at fits
  have after : byteCount (c :: r) - 1 < n := by
    rw [byteCountCons]
    omega
  exact .inr after

theorem before (cause : Cause) (fits : byteCount r < n) : Confined n good (.error (.before cause r)) :=
  .inr fits

theorem ended {cause : Cause} (ends : cause.isEnd = true) : Confined n good (.error (.at cause r)) :=
  .inl ends

end Confined

section Scanners
variable {n : Nat} {c : Char} {s r : List Char}

theorem tailFits (fits : byteCount (c :: r) ≤ n) : byteCount r < n := by
  have positive := c.utf8Size_pos
  rw [byteCountCons] at fits
  omega

theorem dropFits (p : Char → Bool) (fits : byteCount s ≤ n) : byteCount (s.dropWhile p) ≤ n :=
  Nat.le_trans (byteCountSuffix (List.dropWhile_suffix p)) fits

theorem wordConfined (word : List Char) (fits : byteCount s ≤ n) :
    Confined n (Leaves n) (scanWord word s) := by
  induction word generalizing s with
  | nil => exact fits
  | cons w ws ih =>
    cases s with
    | nil => exact .ended rfl
    | cons c r =>
      rw [scanWord]
      split
      · exact ih (Nat.le_of_lt (tailFits fits))
      · exact .at_ _ fits

section Numbers
variable {negative : Bool} {significand : Nat}

theorem scaledConfined (power : Int) (fits : byteCount s < n) :
    Confined n (Leaves n) (scaledDouble negative significand power s) := by
  rw [scaledDouble]
  split
  · exact Nat.le_of_lt fits
  · exact .before _ fits

theorem powerConfined (start : Int) (down : Bool) (power : Nat) (fits : byteCount s < n) :
    Confined n (Leaves n) (scanPower negative significand start down power s) := by
  induction s generalizing power with
  | nil => exact scaledConfined _ fits
  | cons c r ih =>
    have shorter := tailFits (Nat.le_of_lt fits)
    rw [scanPower]
    split
    · exact scaledConfined _ fits
    · split
      · split
        · exact .before _ shorter
        · exact dropFits isDigit (Nat.le_of_lt shorter)
      · exact ih _ shorter

theorem exponentConfined (start : Int) (fits : byteCount s < n) :
    Confined n (Leaves n) (scanExponent negative significand start s) := by
  unfold scanExponent
  split
  rename_i down body signed
  have shorter : byteCount body < n := by
    split at signed
    · cases signed
      exact tailFits (Nat.le_of_lt fits)
    · cases signed
      exact tailFits (Nat.le_of_lt fits)
    · cases signed
      exact fits
  cases body with
  | nil => exact .ended rfl
  | cons c r =>
    dsimp only
    split
    · exact .at_ _ (Nat.le_of_lt shorter)
    · exact powerConfined start down _ (tailFits (Nat.le_of_lt shorter))

theorem decimalConfined (power : Int) (fits : byteCount s < n) :
    Confined n (Leaves n) (finishDecimal negative significand power s) := by
  cases s with
  | nil => exact scaledConfined power fits
  | cons c r =>
    rw [finishDecimal]
    split
    · exact exponentConfined power (tailFits (Nat.le_of_lt fits))
    · exact scaledConfined power fits

theorem fractionConfined (power : Int) (empty : Bool) (fits : byteCount s < n) :
    Confined n (Leaves n) (scanFraction negative significand power empty s) := by
  induction s generalizing significand power empty with
  | nil =>
    rw [scanFraction]
    split
    · exact .ended rfl
    · exact decimalConfined power fits
  | cons c r ih =>
    have shorter := tailFits (Nat.le_of_lt fits)
    rw [scanFraction]
    split
    · split
      · exact decimalConfined power (Nat.lt_of_le_of_lt (dropFits isDigit (Nat.le_refl _)) shorter)
      · exact ih _ _ shorter
    · split
      · exact .at_ _ (Nat.le_of_lt fits)
      · exact decimalConfined power fits

theorem wholeConfined (dropped : Nat) (fits : byteCount s < n) :
    Confined n (Leaves n) (scanWhole negative significand dropped s) := by
  induction s generalizing significand dropped with
  | nil =>
    rw [scanWhole]
    split
    · exact Nat.le_of_lt fits
    · exact scaledConfined _ fits
  | cons c r ih =>
    have shorter := tailFits (Nat.le_of_lt fits)
    rw [scanWhole]
    split
    · split
      · exact ih _ shorter
      · exact ih _ shorter
    · split
      · exact fractionConfined _ _ shorter
      · split
        · exact exponentConfined _ shorter
        · split
          · exact Nat.le_of_lt fits
          · exact scaledConfined _ fits

theorem numberConfined (fits : byteCount s ≤ n) : Confined n (Leaves n) (scanNumber negative s) := by
  unfold scanNumber
  split
  · exact .ended rfl
  · have shorter := tailFits fits
    split
    · split
      · exact .at_ _ (Nat.le_of_lt shorter)
      · exact wholeConfined 0 shorter
    · exact wholeConfined 0 shorter
  · split
    · exact wholeConfined 0 (tailFits fits)
    · exact .at_ _ fits

end Numbers

theorem fourTaken {k : Nat} {cs : List Char} {cut : Nat} {rest : List Char}
    (taken : takeFour s k = some (cs, cut, rest)) : byteCount s = k + cut + byteCount rest := by
  induction s generalizing k cs with
  | nil =>
    cases k with
    | zero =>
      simp only [takeFour, Option.some.injEq, Prod.mk.injEq] at taken
      obtain ⟨_, rfl, rfl⟩ := taken
      rfl
    | succ k => simp [takeFour] at taken
  | cons c r ih =>
    cases k with
    | zero =>
      simp only [takeFour, Option.some.injEq, Prod.mk.injEq] at taken
      obtain ⟨_, rfl, rfl⟩ := taken
      rw [Nat.add_zero, Nat.zero_add]
    | succ k =>
      rw [takeFour] at taken
      rw [byteCountCons]
      split at taken
      · obtain ⟨⟨cs', cut', rest'⟩, later, same⟩ := Option.map_eq_some_iff.mp taken
        cases same
        have bytes := ih later
        omega
      · cases taken
        omega

theorem hexConfined (fits : byteCount s ≤ n) :
    Confined n (fun p : Nat × List Char => byteCount p.2 < n) (scanHex s) := by
  unfold scanHex
  split
  · exact .ended rfl
  · rename_i cs cut rest taken
    have four := fourTaken taken
    split
    · change byteCount rest < n
      omega
    · exact .inr (show byteCount rest + cut < n by omega)

theorem unicodeConfined (fits : byteCount s ≤ n) : Confined n (Leaves n) (scanUnicode s) := by
  refine (hexConfined fits).bind fun (code, r) shorter => ?_
  dsimp only at shorter ⊢
  have left := Nat.le_of_lt shorter
  split
  · exact .before _ shorter
  · split
    · split
      · exact .ended rfl
      · exact .ended rfl
      · have inner := Nat.le_of_lt (tailFits (Nat.le_of_lt (tailFits left)))
        refine (hexConfined inner).bind fun (code', rest) shorter' => ?_
        dsimp only at shorter' ⊢
        split
        · exact Nat.le_of_lt shorter'
        · exact .before _ shorter'
      · rename_i t some_ _
        cases t with
        | nil => exact absurd rfl some_
        | cons c t => exact .at_ _ (Nat.le_of_lt (tailFits left))
      · rename_i some_ _ _ _
        cases r with
        | nil => exact absurd rfl some_
        | cons c t => exact .at_ _ left
    · exact left

theorem charsConfined (fuel : Nat) (taken : List Char) (fits : byteCount s ≤ n) :
    Confined n (Leaves n) (scanChars scanUnicode fuel taken s) := by
  induction fuel generalizing taken s with
  | zero => exact .ended rfl
  | succ fuel ih =>
    unfold scanChars
    split
    · exact .ended rfl
    · exact Nat.le_of_lt (tailFits fits)
    · exact .ended rfl
    · have inner := Nat.le_of_lt (tailFits (Nat.le_of_lt (tailFits fits)))
      exact (unicodeConfined inner).bind fun (c, r) left => ih _ left
    · have inner := Nat.le_of_lt (tailFits fits)
      split
      · exact ih _ (Nat.le_of_lt (tailFits inner))
      · exact .at_ _ inner
    · split
      · exact .at_ _ fits
      · exact ih _ (Nat.le_of_lt (tailFits fits))

theorem stringConfined (fits : byteCount s ≤ n) : Confined n (Leaves n) (scanString s) :=
  (charsConfined _ _ fits).bind fun _ left => left

theorem spaceFits (fits : byteCount s ≤ n) (held : skipSpace s = c :: r) : byteCount (c :: r) ≤ n := by
  rw [← held]
  exact dropFits isSpace fits

theorem elementConfined (first : Bool) (fits : byteCount s ≤ n) :
    Confined n (Leaves n) (nextElement first s) := by
  unfold nextElement
  split
  · exact .ended rfl
  · rename_i held
    exact Nat.le_of_lt (tailFits (spaceFits fits held))
  · rename_i held
    have here := spaceFits fits held
    split
    · exact here
    · split
      · have inner := Nat.le_of_lt (tailFits here)
        split
        · exact .ended rfl
        · rename_i held'
          exact .at_ _ (spaceFits inner held')
        · rename_i held'
          exact spaceFits inner held'
      · exact .at_ _ here

theorem keyConfined (first : Bool) (fits : byteCount s ≤ n) :
    Confined n (Leaves n) (nextKey first s) := by
  unfold nextKey
  split
  · exact .ended rfl
  · rename_i held
    exact Nat.le_of_lt (tailFits (spaceFits fits held))
  · rename_i held
    have here := spaceFits fits held
    have inner := Nat.le_of_lt (tailFits here)
    split
    · split
      · exact inner
      · exact .at_ _ here
    · split
      · split
        · exact .ended rfl
        · rename_i held'
          exact Nat.le_of_lt (tailFits (spaceFits inner held'))
        · rename_i held'
          exact .at_ _ (spaceFits inner held')
        · rename_i held'
          exact .at_ _ (spaceFits inner held')
      · exact .at_ _ here

theorem colonConfined (fits : byteCount s ≤ n) :
    Confined n (fun r => byteCount r ≤ n) (scanColon s) := by
  unfold scanColon
  split
  · exact .ended rfl
  · rename_i held
    exact Nat.le_of_lt (tailFits (spaceFits fits held))
  · rename_i held
    exact .at_ _ (spaceFits fits held)

section Folds
variable {σ : Type}

theorem elementsConfined {step : σ → List Char → Except Fault (σ × List Char)}
    (each : ∀ state r, byteCount r ≤ n → Confined n (Leaves n) (step state r)) (fuel : Nat) (first : Bool)
    (state : σ) (fits : byteCount s ≤ n) :
    Confined n (Leaves n) (foldElements id step fuel first state s) := by
  induction fuel generalizing first state s with
  | zero => exact .ended rfl
  | succ fuel ih =>
    have next := elementConfined first fits
    unfold foldElements
    split
    · rename_i held
      exact next.fault held
    · rename_i held
      exact next.result held
    · rename_i held
      have stepped := each state _ (next.result held)
      split
      · rename_i held'
        exact stepped.fault held'
      · rename_i held'
        exact ih _ _ (stepped.result held')

theorem membersConfined {step : σ → String → List Char → Except Fault (σ × List Char)}
    (each : ∀ state key r, byteCount r ≤ n → Confined n (Leaves n) (step state key r)) (fuel : Nat)
    (first : Bool) (state : σ) (fits : byteCount s ≤ n) :
    Confined n (Leaves n) (foldMembers id step fuel first state s) := by
  induction fuel generalizing first state s with
  | zero => exact .ended rfl
  | succ fuel ih =>
    have next := keyConfined first fits
    unfold foldMembers
    split
    · rename_i held
      exact next.fault held
    · rename_i held
      exact next.result held
    · rename_i held
      have named := stringConfined (next.result held)
      split
      · rename_i held'
        exact named.fault held'
      · rename_i key _ held'
        have stepped := each state key _ (named.result held')
        split
        · rename_i held''
          exact stepped.fault held''
        · rename_i held''
          exact ih _ _ (stepped.result held'')

end Folds

theorem valueWithConfined {inner : Option (Scan Value)}
    (each : ∀ item, inner = some item → ∀ r, byteCount r ≤ n → Confined n (Leaves n) (item r))
    (fits : byteCount s ≤ n) : Confined n (Leaves n) (scanValueWith inner s) := by
  have word : ∀ {c : Char} {r : List Char} {w : List Char} {v : Value}, skipSpace s = c :: r →
      Confined n (Leaves n) (scanWord w r >>= fun t => .ok (v, t.2)) := by
    intro c r w v held
    exact (wordConfined w (Nat.le_of_lt (tailFits (spaceFits fits held)))).bind fun _ left => left
  unfold scanValueWith
  split
  · exact .ended rfl
  · exact word ‹_›
  · exact word ‹_›
  · exact word ‹_›
  · rename_i held
    have left := Nat.le_of_lt (tailFits (spaceFits fits held))
    exact (stringConfined left).bind fun _ left => left
  · rename_i held
    have left := Nat.le_of_lt (tailFits (spaceFits fits held))
    exact (numberConfined left).bind fun _ left => left
  · rename_i held
    have here := spaceFits fits held
    cases inner with
    | none => exact .at_ _ here
    | some item =>
      refine .bind (elementsConfined ?_ _ _ _ (Nat.le_of_lt (tailFits here))) fun _ left => left
      intro _ t left
      exact (each item rfl t left).bind fun _ left => left
  · rename_i held
    have here := spaceFits fits held
    cases inner with
    | none => exact .at_ _ here
    | some item =>
      refine .bind (membersConfined ?_ _ _ _ (Nat.le_of_lt (tailFits here))) fun _ left => left
      intro _ _ t left
      refine (colonConfined left).bind fun t' left => ?_
      exact (each item rfl t' left).bind fun _ left => left
  · rename_i held
    have here := spaceFits fits held
    split
    · exact (numberConfined here).bind fun _ left => left
    · exact .at_ _ here

theorem valueConfined (depth : Nat) (fits : byteCount s ≤ n) :
    Confined n (Leaves n) (scanValue depth s) := by
  induction depth generalizing s with
  | zero => exact valueWithConfined (fun _ none => nomatch none) fits
  | succ depth ih =>
    refine valueWithConfined (fun item same r left => ?_) fits
    cases same
    exact ih left

end Scanners

theorem readWithin {text : String} {f : Fault} (failed : read text = .error f) :
    f.Within (byteCount text.toList) := by
  have confined : Confined (byteCount text.toList) (fun _ : Value => True) (read text) := by
    refine (valueConfined maxDepth (Nat.le_refl _)).bind fun (v, r) left => ?_
    dsimp only
    split
    · trivial
    · rename_i held
      exact .at_ _ (spaceFits left held)
  exact confined.fault failed

end ApiGraph.Json

namespace ApiGraph.Fragment
open Json Text

theorem faultRejected {name text : String} {f : Fault} (json : isJson name text = true)
    (failed : Json.read text = .error f) : parse name text =
      .error (.json (offsetOf text (f.place text).line (f.place text).column) (f.describe text)) := by
  simp [parse, value, json, failed, malformed, Except.mapError, bind, Except.bind]

theorem faultPlace {text : String} {f : Fault} (here : f.bytesAfter < byteCount text.toList) :
    f.place text = placeOf text.toList (f.byte text + 1) := by
  have last : byteCount text.toList - f.bytesAfter = f.byte text + 1 := by
    rw [Fault.byte]
    omega
  rw [Fault.place, last]

/- The offset of a fault is the offending byte if that is the first one of a character that is no line
feed and has only characters of one byte before it on its line, and else comes after it. -/
theorem faultsPointed {name text : String} {f : Fault} (json : isJson name text = true)
    (failed : Json.read text = .error f) (inside : f.cause.isEnd = false) :
    ∃ done line c rest, Stands text.toList (f.byte text) done line c rest ∧
      (c ≠ '\n' → f.place text = ⟨done.count '\n' + 1, f.byte text + 1 - byteCount done⟩) ∧
      ∃ offset, parse name text = .error (.json offset (f.describe text)) ∧ f.byte text ≤ offset ∧
        (offset = f.byte text ↔
          c ≠ '\n' ∧ Narrow line ∧ byteCount (done ++ line) = f.byte text) := by
  have here : f.bytesAfter < byteCount text.toList := by
    rcases readWithin failed with ends | here
    · rw [inside] at ends
      contradiction
    · exact here
  have place := faultPlace here
  have stops : f.byte text < byteCount text.toList := by
    rw [Fault.byte]
    omega
  obtain ⟨done, line, c, rest, stands⟩ := byteStands stops
  obtain ⟨least, exactly⟩ := offsetOfByte stands
  rw [← place] at least exactly
  refine ⟨done, line, c, rest, stands, fun other => ?_, _, faultRejected json failed, least, exactly⟩
  rw [place, placeOfByte stands, if_neg other]

theorem faultRead {text : String} {f : Fault} (found : (match Json.read text with
    | .error e => decide (e = f)
    | .ok _ => false) = true) : Json.read text = .error f := by
  cases held : Json.read text with
  | error e =>
    rw [held] at found
    rw [of_decide_eq_true found]
  | ok v =>
    rw [held] at found
    contradiction

def brokenText : String := "\x7b\n  \"a\": [1, 2,\n\x7d"

def brokenFault : Fault := ⟨.expectedValue, 0⟩

theorem brokenPointed : isJson "broken.json" brokenText = true ∧
    Json.read brokenText = .error brokenFault ∧ brokenFault.cause.isEnd = false ∧
    parse "broken.json" brokenText = .error (.json 16 (brokenFault.describe brokenText)) := by
  have json : isJson "broken.json" brokenText = true := by decide +kernel
  have failed : Json.read brokenText = .error brokenFault := faultRead (by decide +kernel)
  have last : brokenFault.byte brokenText = 16 := by decide +kernel
  have narrow : Narrow brokenText.toList := by decide +kernel
  obtain ⟨done, line, c, rest, stands, _, offset, rejected, _, exactly⟩ := faultsPointed json failed rfl
  rw [last] at stands exactly
  have text : brokenText.toList = (done ++ line) ++ c :: rest := by rw [stands.text, List.append_assoc]
  rw [text] at narrow
  have before : Narrow (done ++ line) := fun x mem => narrow x (List.mem_append_left _ mem)
  have one : c.utf8Size = 1 := narrow c (List.mem_append_right _ List.mem_cons_self)
  have low := stands.low
  have high := stands.high
  have index : (done ++ line).length = 16 := by
    rw [← (narrowIff _).mp before]
    omega
  have brace : c = '\x7d' := by
    have held : brokenText.toList[16]? = some '\x7d' := by decide +kernel
    rw [text, List.getElem?_append_right (by omega), index] at held
    exact Option.some.inj held
  have other : c ≠ '\n' := by
    rw [brace]
    decide
  have reached : offset = 16 :=
    exactly.mpr ⟨other, fun x mem => before x (List.mem_append_right _ mem), by omega⟩
  rw [reached] at rejected
  exact ⟨json, failed, rfl, rejected⟩

def accentText : String := "\x7b\"é\": x\x7d"

theorem accentPointedPast : Json.read accentText = .error ⟨.expectedValue, 1⟩ ∧
    (⟨.expectedValue, 1⟩ : Fault).byte accentText = 7 ∧
    parse "accent.json" accentText = .error (.json 8 "expected value at line 1 column 8") := by
  have json : isJson "accent.json" accentText = true := by decide +kernel
  have failed : Json.read accentText = .error ⟨.expectedValue, 1⟩ := faultRead (by decide +kernel)
  have last : (⟨.expectedValue, 1⟩ : Fault).byte accentText = 7 := by decide +kernel
  have place : (⟨.expectedValue, 1⟩ : Fault).place accentText = ⟨1, 8⟩ := by decide +kernel
  have offset : offsetOf accentText 1 8 = 8 := by decide +kernel
  have told : (⟨.expectedValue, 1⟩ : Fault).describe accentText = "expected value at line 1 column 8" := by
    decide +kernel
  refine ⟨failed, last, ?_⟩
  rw [faultRejected json failed, place, offset, told]

end ApiGraph.Fragment
