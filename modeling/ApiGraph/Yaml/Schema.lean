import ApiGraph.Json.Value
import ApiGraph.Json.Scan
import ApiGraph.Yaml.Node

/-! What a scalar without quotes means: nothing, a truth value, a whole number, a real number, or
else a text. Whole numbers have a sign and a base; one of several digits that starts with zero is a
text, and so is a real number that is too great. -/
namespace ApiGraph.Yaml
open Number Text

inductive Meaning where
  | null
  | bool (b : Bool)
  | whole (n : Int)
  | real (d : Double)
  | unbounded
  | text
  deriving DecidableEq, Repr

def meansNull (s : String) : Bool := ["null", "Null", "NULL", "~"].contains s

def bool? (s : String) : Option Bool :=
  if ["true", "True", "TRUE"].contains s then some true
  else if ["false", "False", "FALSE"].contains s then some false
  else none

def isPadded (cs : List Char) : Bool :=
  let digits := match cs with
    | '+' :: r => r
    | '-' :: r => r
    | _ => cs
  1 < digits.length && digits.head? == some '0' && digits.all Char.isDigit

def digitsIn? (base : Nat) (cs : List Char) : Option Nat :=
  if cs.isEmpty then none
  else cs.foldlM (fun n c => do
    let d ← hexDigit? c
    if d < base then some (base * n + d) else none) 0

def magnitude? : List Char → Option Nat
  | '0' :: 'x' :: r => digitsIn? 16 r
  | '0' :: 'o' :: r => digitsIn? 8 r
  | '0' :: 'b' :: r => digitsIn? 2 r
  | cs => digitsIn? 10 cs

def whole? (cs : List Char) : Option Int :=
  if isPadded cs then none
  else match cs with
    | '-' :: r => do
      let n ← magnitude? r
      if n ≤ Nat.pow 2 127 then some (-(n : Int)) else none
    | _ => do
      let n ← magnitude? (if cs.head? == some '+' then cs.drop 1 else cs)
      if n < Nat.pow 2 128 then some n else none

def power? : List Char → Option Int
  | [] => some 0
  | e :: r =>
    if e == 'e' || e == 'E' then match r with
      | '-' :: ds => (digitsIn? 10 ds).map fun n => -(n : Int)
      | '+' :: ds => (digitsIn? 10 ds).map fun n => (n : Int)
      | ds => (digitsIn? 10 ds).map fun n => (n : Int)
    else none

def decimal? (cs : List Char) : Option (List Char × Int) :=
  let whole := cs.takeWhile Char.isDigit
  let (part, rest) := match cs.dropWhile Char.isDigit with
    | '.' :: r => (r.takeWhile Char.isDigit, r.dropWhile Char.isDigit)
    | r => ([], r)
  if (whole ++ part).isEmpty then none
  else (power? rest).map fun power => (whole ++ part, power - part.length)

def nearest? (digits : List Char) (power : Int) : Option Nat :=
  let digits := digits.dropWhile (· == '0')
  let n := (digitsIn? 10 digits).getD 0
  let size := power + digits.length
  if n = 0 || size < -400 then some 0
  else if 400 < size then none
  else
    let code := match power with
      | .ofNat k => nearest (n * Nat.pow 10 k) 1
      | .negSucc k => nearest n (Nat.pow 10 (k + 1))
    if code < overflowCode then some code else none

def real? (s : String) : Option Meaning :=
  if [".inf", ".Inf", ".INF", "+.inf", "+.Inf", "+.INF", "-.inf", "-.Inf", "-.INF", ".nan", ".NaN",
      ".NAN"].contains s then some .unbounded
  else
    let (negative, cs) := match s.toList with
      | '+' :: r => (false, r)
      | '-' :: r => (true, r)
      | cs => (false, cs)
    do
      let (digits, power) ← decimal? cs
      let code ← nearest? digits power
      pure (.real ⟨negative, code⟩)

def meaning (s : String) : Meaning :=
  if s.isEmpty || meansNull s then .null
  else match bool? s, whole? s.toList with
    | some b, _ => .bool b
    | none, some n => .whole n
    | none, none =>
      if isPadded s.toList then .text else (real? s).getD .text

def Meaning.value? (text : String) : Meaning → Option Json.Value
  | .null => some .null
  | .bool b => some (.bool b)
  | .whole n =>
    if -(Nat.pow 2 63 : Nat) ≤ n ∧ n < (Nat.pow 2 64 : Nat) then some (.num (.whole n)) else none
  | .real d => some (.num (.double d))
  | .unbounded => some .null
  | .text => some (.str text)

def isOwnTag (tag : Option String) : Bool := tag.any fun t => t.toList.head? == some '!'

def coreTag (name : String) : String := "tag:yaml.org,2002:" ++ name

/- The value of a scalar. A tag of the core schema asks for one meaning, and any other standard tag
makes a text. -/
def scalarValue? (tag : Option String) (style : Style) (text : String) : Option Json.Value :=
  match tag with
  | none => if style = .plain then (meaning text).value? text else some (.str text)
  | some t =>
    if isOwnTag tag then none
    else if t = coreTag "bool" then (bool? text).map .bool
    else if t = coreTag "int" then (whole? text.toList).bind fun n => (Meaning.whole n).value? text
    else if t = coreTag "float" then (real? text).bind (·.value? text)
    else if t = coreTag "null" then if meansNull text then some .null else none
    else some (.str text)

end ApiGraph.Yaml
