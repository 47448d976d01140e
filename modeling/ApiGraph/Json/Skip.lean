import ApiGraph.Json.Reader

/-! Passing over a value without reading it. Nesting has no limit here, numbers no range, and escaped
surrogates need no partner; a comma must still be followed by a value or a key. -/
namespace ApiGraph.Json
open Text

def skipDigits (s : List Char) : List Char := s.dropWhile isDigit

def skipPower (s : List Char) : Except Fault (List Char) :=
  let body := match s with
    | '+' :: r => r
    | '-' :: r => r
    | _ => s
  match body with
  | c :: r => if isDigit c then .ok (skipDigits r) else .error (.at .invalidNumber body)
  | [] => .error (.at .invalidNumber [])

def skipAfterFraction (s : List Char) : Except Fault (List Char) :=
  match s with
  | c :: r => if c = 'e' || c = 'E' then skipPower r else .ok s
  | [] => .ok []

def skipAfterWhole (s : List Char) : Except Fault (List Char) :=
  match s with
  | '.' :: c :: r =>
    if isDigit c then skipAfterFraction (skipDigits r) else .error (.at .invalidNumber (c :: r))
  | '.' :: [] => .error (.at .invalidNumber [])
  | _ => skipAfterFraction s

def skipNumber (s : List Char) : Except Fault (List Char) :=
  match s with
  | '0' :: c :: r => if isDigit c then .error (.at .invalidNumber (c :: r)) else skipAfterWhole (c :: r)
  | c :: r => if isDigit c then skipAfterWhole (skipDigits r) else .error (.at .invalidNumber s)
  | [] => .error (.at .invalidNumber [])

def anyUnicode (s : List Char) : Except Fault (Char × List Char) :=
  (scanHex s).map fun (_, r) => (' ', r)

def skipString (s : List Char) : Except Fault (List Char) :=
  (scanChars anyUnicode (s.length + 1) [] s).map Prod.snd

inductive Bracket where
  | list
  | object
  deriving DecidableEq, Repr

def skipKey (s : List Char) : Except Fault (List Char) :=
  match skipSpace s with
  | '"' :: r => do scanColon (← skipString r)
  | [] => .error (.at .endInObject [])
  | t => .error (.at .keyNotString t)

def skipEntry (b : Bracket) (s : List Char) : Except Fault (List Char) :=
  match b with
  | .list => .ok s
  | .object => skipKey s

def closes (b : Bracket) (c : Char) : Bool :=
  match b with
  | .list => c == ']'
  | .object => c == '}'

def Bracket.endCause : Bracket → Cause
  | .list => .endInList
  | .object => .endInObject

def Bracket.separatorCause : Bracket → Cause
  | .list => .expectedListSeparator
  | .object => .expectedObjectSeparator

def skipToken (s : List Char) : Except Fault (Option Bracket × List Char) :=
  match s with
  | [] => .error (.at .endInValue [])
  | 'n' :: r => (scanWord ['u', 'l', 'l'] r).map fun e => (none, e.2)
  | 't' :: r => (scanWord ['r', 'u', 'e'] r).map fun e => (none, e.2)
  | 'f' :: r => (scanWord ['a', 'l', 's', 'e'] r).map fun e => (none, e.2)
  | '"' :: r => (skipString r).map fun r' => (none, r')
  | '-' :: r => (skipNumber r).map fun r' => (none, r')
  | '[' :: r => .ok (some .list, r)
  | '{' :: r => .ok (some .object, r)
  | c :: r =>
    if isDigit c then (skipNumber (c :: r)).map fun r' => (none, r')
    else .error (.at .expectedValue (c :: r))

/- `atValue` tells whether a value is due; else a value has ended, or the innermost of the brackets
`open_` is new when `fresh`. `fuel` exceeds twice the length of the text. -/
def skipFrom : Nat → (atValue fresh : Bool) → List Bracket → List Char → Except Fault (List Char)
  | 0, _, _, _, _ => .error (.at .endInValue [])
  | fuel + 1, true, _, outer, s => do
    let (opened, r) ← skipToken (skipSpace s)
    match opened with
    | none => skipFrom fuel false false outer r
    | some b => skipFrom fuel false true (b :: outer) r
  | _ + 1, false, _, [], s => .ok s
  | fuel + 1, false, fresh, b :: outer, s =>
    match skipSpace s with
    | [] => .error (.at b.endCause [])
    | c :: r =>
      if c = ',' && !fresh then do
        skipFrom fuel true false (b :: outer) (← skipEntry b r)
      else if closes b c then skipFrom fuel false false outer r
      else if fresh then do
        skipFrom fuel true false (b :: outer) (← skipEntry b (c :: r))
      else .error (.at b.separatorCause (c :: r))

def skipValue (s : List Char) : Except Fault (List Char) :=
  skipFrom (2 * s.length + 2) true false [] s

end ApiGraph.Json
