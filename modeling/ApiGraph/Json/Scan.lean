import ApiGraph.Json.Fault
import ApiGraph.Json.Value
import ApiGraph.Text.Ranges

/-! Tokens of JSON text. A scanner takes the rest of the text and gives a result with what is left.
A whole number beyond 64 bits, a negative zero and every number with a point or an exponent become
doubles: the digits are gathered into a 64 bit significand and the power of ten is applied to that,
one rounding for the significand and one for the power. -/
namespace ApiGraph.Json
open Number Text

abbrev Scan (α : Type) := List Char → Except Fault (α × List Char)

def isSpace (c : Char) : Bool := c == ' ' || c == '\n' || c == '\t' || c == '\r'
def skipSpace (s : List Char) : List Char := s.dropWhile isSpace

def digit? (c : Char) : Option Nat := if '0' ≤ c ∧ c ≤ '9' then some (c.toNat - 48) else none
def isDigit (c : Char) : Bool := (digit? c).isSome

def scanWord : List Char → Scan Unit
  | [], s => .ok ((), s)
  | w :: ws, s => match s with
    | [] => .error (.at .endInValue [])
    | c :: r => if c = w then scanWord ws r else .error (.at .expectedIdent s)

def maxSignificand : Nat := Nat.pow 2 64 - 1
def maxPower : Nat := Nat.pow 2 31 - 1

def divideByTenTo (code k : Nat) : Nat :=
  if k ≤ 308 then dividedBy code (tenTo k)
  else if code = 0 then 0
  else divideByTenTo (dividedBy code (tenTo 308)) (k - 308)
termination_by k

def scaled? (significand : Nat) (power : Int) : Option Nat :=
  let code := nearest significand 1
  match power with
  | .negSucc k => some (divideByTenTo code (k + 1))
  | .ofNat k =>
    if k ≤ 308 then
      let product := times code (tenTo k)
      if product < overflowCode then some product else none
    else if code = 0 then some 0 else none

def scaledDouble (negative : Bool) (significand : Nat) (power : Int) : Scan Numeral := fun rest =>
  match scaled? significand power with
  | some code => .ok (.double ⟨negative, code⟩, rest)
  | none => .error (.before .numberOutOfRange rest)

/- The digits of an exponent after its first one. An exponent past `maxPower` makes a positive
power of a positive significand overflow, and anything else zero. -/
def scanPower (negative : Bool) (significand : Nat) (start : Int) (down : Bool) (power : Nat) :
    Scan Numeral
  | [] => scaledDouble negative significand (if down then start - power else start + power) []
  | c :: r => match digit? c with
    | none => scaledDouble negative significand (if down then start - power else start + power) (c :: r)
    | some d =>
      if maxPower < 10 * power + d then
        if significand ≠ 0 && !down then .error (.before .numberOutOfRange r)
        else .ok (.double ⟨negative, 0⟩, r.dropWhile isDigit)
      else scanPower negative significand start down (10 * power + d) r

def scanExponent (negative : Bool) (significand : Nat) (start : Int) (s : List Char) :
    Except Fault (Numeral × List Char) :=
  let (down, body) := match s with
    | '+' :: r => (false, r)
    | '-' :: r => (true, r)
    | _ => (false, s)
  match body with
  | [] => .error (.at .endInValue [])
  | c :: r => match digit? c with
    | none => .error (.at .invalidNumber body)
    | some d => scanPower negative significand start down d r

def finishDecimal (negative : Bool) (significand : Nat) (power : Int) : Scan Numeral
  | [] => scaledDouble negative significand power []
  | c :: r =>
    if c = 'e' || c = 'E' then scanExponent negative significand power r
    else scaledDouble negative significand power (c :: r)

def scanFraction (negative : Bool) (significand : Nat) (power : Int) (empty : Bool) : Scan Numeral
  | [] => if empty then .error (.at .endInValue []) else finishDecimal negative significand power []
  | c :: r => match digit? c with
    | some d =>
      if maxSignificand < 10 * significand + d then
        finishDecimal negative significand power (r.dropWhile isDigit)
      else scanFraction negative (10 * significand + d) (power - 1) false r
    | none =>
      if empty then .error (.at .invalidNumber (c :: r))
      else finishDecimal negative significand power (c :: r)

def wholeNumeral (negative : Bool) (n : Nat) : Numeral :=
  if negative then
    if n = 0 || Nat.pow 2 63 < n then .double ⟨true, nearest n 1⟩ else .whole (-(n : Int))
  else .whole n

def scanWhole (negative : Bool) (significand dropped : Nat) : Scan Numeral
  | [] =>
    if dropped = 0 then .ok (wholeNumeral negative significand, [])
    else scaledDouble negative significand dropped []
  | c :: r => match digit? c with
    | some d =>
      if dropped ≠ 0 || maxSignificand < 10 * significand + d then
        scanWhole negative significand (dropped + 1) r
      else scanWhole negative (10 * significand + d) 0 r
    | none =>
      if c = '.' then scanFraction negative significand dropped true r
      else if c = 'e' || c = 'E' then scanExponent negative significand dropped r
      else if dropped = 0 then .ok (wholeNumeral negative significand, c :: r)
      else scaledDouble negative significand dropped (c :: r)

def scanNumber (negative : Bool) (s : List Char) : Except Fault (Numeral × List Char) :=
  match s with
  | [] => .error (.at .endInValue [])
  | '0' :: r => match r with
    | c :: _ => if isDigit c then .error (.at .invalidNumber r) else scanWhole negative 0 0 r
    | [] => scanWhole negative 0 0 []
  | c :: r => match digit? c with
    | some d => scanWhole negative d 0 r
    | none => .error (.at .invalidNumber s)

def takeFour (s : List Char) : Nat → Option (List Char × Nat × List Char)
  | 0 => some ([], 0, s)
  | n + 1 => match s with
    | [] => none
    | c :: r =>
      if c.utf8Size ≤ n + 1 then
        (takeFour r (n + 1 - c.utf8Size)).map fun (cs, cut, rest) => (c :: cs, cut, rest)
      else some ([c], c.utf8Size - (n + 1), r)
termination_by s.length

def scanHex (s : List Char) : Except Fault (Nat × List Char) :=
  match takeFour s 4 with
  | none => .error (.at .endInString [])
  | some (cs, cut, rest) =>
    if cs.all (fun c => (hexDigit? c).isSome) then .ok (hexNumber cs, rest)
    else .error ⟨.invalidEscape, byteCount rest + cut⟩

def scanUnicode (s : List Char) : Except Fault (Char × List Char) := do
  let (n, r) ← scanHex s
  if 0xdc00 ≤ n ∧ n ≤ 0xdfff then .error (.before .loneSurrogate r)
  else if 0xd800 ≤ n ∧ n ≤ 0xdbff then
    match r with
    | [] => .error (.at .endInString [])
    | '\\' :: [] => .error (.at .endInString [])
    | '\\' :: 'u' :: r' =>
      let (m, rest) ← scanHex r'
      if 0xdc00 ≤ m ∧ m ≤ 0xdfff then
        .ok (Char.ofNat (0x10000 + 1024 * (n - 0xd800) + (m - 0xdc00)), rest)
      else .error (.before .loneSurrogate rest)
    | '\\' :: r' => .error (.at .unexpectedEndOfHexEscape r')
    | _ => .error (.at .unexpectedEndOfHexEscape r)
  else .ok (Char.ofNat n, r)

def plainEscape? : Char → Option Char
  | '"' => some '"'
  | '\\' => some '\\'
  | '/' => some '/'
  | 'b' => some (Char.ofNat 8)
  | 'f' => some (Char.ofNat 12)
  | 'n' => some '\n'
  | 'r' => some '\r'
  | 't' => some '\t'
  | _ => none

def scanChars (unicode : Scan Char) : Nat → List Char → Scan (List Char)
  | 0, _, _ => .error (.at .endInString [])
  | fuel + 1, taken, s => match s with
    | [] => .error (.at .endInString [])
    | '"' :: r => .ok (taken.reverse, r)
    | '\\' :: [] => .error (.at .endInString [])
    | '\\' :: 'u' :: r => do
      let (c, r') ← unicode r
      scanChars unicode fuel (c :: taken) r'
    | '\\' :: e :: r => match plainEscape? e with
      | some c => scanChars unicode fuel (c :: taken) r
      | none => .error (.at .invalidEscape (e :: r))
    | c :: r =>
      if c.toNat < 32 then .error (.at .controlCharacter (c :: r))
      else scanChars unicode fuel (c :: taken) r

def scanString (s : List Char) : Except Fault (String × List Char) := do
  let (cs, r) ← scanChars scanUnicode (s.length + 1) [] s
  .ok (String.ofList cs, r)

end ApiGraph.Json
