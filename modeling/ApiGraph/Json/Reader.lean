import ApiGraph.Json.Scan

/-! Reading a value from JSON text. A list or an object is read by folding a step over its elements
or members, so that the same walk serves values and typed records. A repeated key keeps its first
place and its last value. -/
namespace ApiGraph.Json

def maxDepth : Nat := 127

def nextElement (first : Bool) (s : List Char) : Except Fault (Bool × List Char) :=
  match skipSpace s with
  | [] => .error (.at .endInList [])
  | ']' :: r => .ok (false, r)
  | c :: r =>
    if first then .ok (true, c :: r)
    else if c = ',' then match skipSpace r with
      | [] => .error (.at .endInValue [])
      | ']' :: r' => .error (.at .trailingComma (']' :: r'))
      | c' :: r' => .ok (true, c' :: r')
    else .error (.at .expectedListSeparator (c :: r))

def nextKey (first : Bool) (s : List Char) : Except Fault (Bool × List Char) :=
  match skipSpace s with
  | [] => .error (.at .endInObject [])
  | '}' :: r => .ok (false, r)
  | c :: r =>
    if first then if c = '"' then .ok (true, r) else .error (.at .keyNotString (c :: r))
    else if c = ',' then match skipSpace r with
      | [] => .error (.at .endInValue [])
      | '"' :: r' => .ok (true, r')
      | '}' :: r' => .error (.at .trailingComma ('}' :: r'))
      | c' :: r' => .error (.at .keyNotString (c' :: r'))
    else .error (.at .expectedObjectSeparator (c :: r))

def scanColon (s : List Char) : Except Fault (List Char) :=
  match skipSpace s with
  | [] => .error (.at .endInObject [])
  | ':' :: r => .ok r
  | c :: r => .error (.at .expectedColon (c :: r))

variable {ε σ : Type}

def foldElements (lift : Fault → ε) (step : σ → List Char → Except ε (σ × List Char)) :
    Nat → Bool → σ → List Char → Except ε (σ × List Char)
  | 0, _, _, _ => .error (lift (.at .endInList []))
  | fuel + 1, first, state, s =>
    match nextElement first s with
    | .error f => .error (lift f)
    | .ok (false, r) => .ok (state, r)
    | .ok (true, r) => match step state r with
      | .error e => .error e
      | .ok (state', r') => foldElements lift step fuel false state' r'

def foldMembers (lift : Fault → ε) (step : σ → String → List Char → Except ε (σ × List Char)) :
    Nat → Bool → σ → List Char → Except ε (σ × List Char)
  | 0, _, _, _ => .error (lift (.at .endInObject []))
  | fuel + 1, first, state, s =>
    match nextKey first s with
    | .error f => .error (lift f)
    | .ok (false, r) => .ok (state, r)
    | .ok (true, r) => match scanString r with
      | .error f => .error (lift f)
      | .ok (key, r') => match step state key r' with
        | .error e => .error e
        | .ok (state', r'') => foldMembers lift step fuel false state' r''

def scanValueWith (inner : Option (Scan Value)) (s : List Char) : Except Fault (Value × List Char) :=
  match skipSpace s with
  | [] => .error (.at .endInValue [])
  | 'n' :: r => do let (_, r') ← scanWord ['u', 'l', 'l'] r; .ok (.null, r')
  | 't' :: r => do let (_, r') ← scanWord ['r', 'u', 'e'] r; .ok (.bool true, r')
  | 'f' :: r => do let (_, r') ← scanWord ['a', 'l', 's', 'e'] r; .ok (.bool false, r')
  | '"' :: r => do let (text, r') ← scanString r; .ok (.str text, r')
  | '-' :: r => do let (n, r') ← scanNumber true r; .ok (.num n, r')
  | '[' :: r => match inner with
    | none => .error (.at .recursionLimit ('[' :: r))
    | some item => do
      let step := fun (acc : List Value) (t : List Char) => do
        let (v, t') ← item t
        .ok (v :: acc, t')
      let (items, r') ← foldElements id step (r.length + 1) true [] r
      .ok (.arr items.reverse, r')
  | '{' :: r => match inner with
    | none => .error (.at .recursionLimit ('{' :: r))
    | some item => do
      let step := fun (acc : Members) (key : String) (t : List Char) => do
        let t' ← scanColon t
        let (v, t'') ← item t'
        .ok (Entries.put key v acc, t'')
      let (members, r') ← foldMembers id step (r.length + 1) true [] r
      .ok (.obj members, r')
  | c :: r =>
    if isDigit c then do let (n, r') ← scanNumber false (c :: r); .ok (.num n, r')
    else .error (.at .expectedValue (c :: r))

def scanValue : Nat → Scan Value
  | 0 => scanValueWith none
  | depth + 1 => scanValueWith (some (scanValue depth))

def read (text : String) : Except Fault Value := do
  let (v, r) ← scanValue maxDepth text.toList
  match skipSpace r with
  | [] => .ok v
  | c :: r' => .error (.at .trailingCharacters (c :: r'))

end ApiGraph.Json
