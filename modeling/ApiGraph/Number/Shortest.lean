import ApiGraph.Number.Double

/-! Decimal text of a double: the fewest digits that read back as the same value, of those the
nearest, a tie to the even digit. Values from 1e-5 up to 1e16 are written positionally with at
least one fraction digit, all others with one digit before the point and a signed exponent. -/
namespace ApiGraph.Number

/- Decimal places kept below the point, more than any grid of 17 digits needs. -/
def places : Nat := 350

structure Digits where
  digits : List Char
  exponent : Int
  deriving DecidableEq, Repr

def decimalDigits (n : Nat) : List Char := Nat.toDigits 10 n

def roundsTo (code d step : Nat) : Bool :=
  let low := (magnitude (code - 1) + magnitude code) * Nat.pow 10 places
  let high := (magnitude code + magnitude (code + 1)) * Nat.pow 10 places
  let x := 2 * d * step
  if code % 2 = 0 then decide (low ≤ x) && decide (x ≤ high)
  else decide (low < x) && decide (x < high)

def onGrid (code step : Nat) : Option Nat :=
  let x := magnitude code * Nat.pow 10 places
  let below := x / step
  let rest := x % step
  match roundsTo code below step, roundsTo code (below + 1) step with
  | true, false => some below
  | false, true => some (below + 1)
  | true, true =>
    if 2 * rest < step then some below
    else if 2 * rest = step then some (below + below % 2)
    else some (below + 1)
  | false, false => none

def stripZeros (cs : List Char) : List Char := (cs.reverse.dropWhile (· == '0')).reverse

def shortestFrom (code top : Nat) : Nat → Nat → Digits
  | 0, _ => ⟨['0'], 0⟩
  | fuel + 1, count =>
    let step := Nat.pow 10 (top - count) * unit
    match onGrid code step with
    | none => shortestFrom code top fuel (count + 1)
    | some d =>
      let written := decimalDigits d
      ⟨stripZeros written, (top + written.length : Int) - count - 1 - places⟩

def shortest (code : Nat) : Digits :=
  let whole := magnitude code * Nat.pow 10 places / unit
  shortestFrom code (decimalDigits whole).length 18 1

def zeros (n : Nat) : List Char := List.replicate n '0'

def positional (d : Digits) : List Char :=
  if d.exponent < 0 then
    '0' :: '.' :: zeros (-d.exponent - 1).toNat ++ d.digits
  else
    let lead := d.exponent.toNat + 1
    let front := d.digits.take lead ++ zeros (lead - d.digits.length)
    let back := d.digits.drop lead
    front ++ '.' :: (if back.isEmpty then ['0'] else back)

def scientific (d : Digits) : List Char :=
  let tail := d.digits.drop 1
  d.digits.take 1 ++ (if tail.isEmpty then [] else '.' :: tail) ++
    'e' :: (if d.exponent < 0 then '-' else '+') :: decimalDigits d.exponent.natAbs

def magnitudeText (code : Nat) : List Char :=
  if code = 0 then ['0', '.', '0']
  else
    let d := shortest code
    if -5 ≤ d.exponent ∧ d.exponent ≤ 15 then positional d else scientific d

def Double.text (d : Double) : List Char :=
  if d.negative then '-' :: magnitudeText d.code else magnitudeText d.code

end ApiGraph.Number
