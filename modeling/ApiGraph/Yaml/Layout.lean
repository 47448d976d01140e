import ApiGraph.Yaml.BlockText
import ApiGraph.Yaml.Plain
import ApiGraph.Yaml.Property
import ApiGraph.Yaml.Quoted

/-! From text to tokens. Outside of flow collections the column of a token opens and closes block
collections. What stands before a colon is a key without a sign: it is known as one only when the
colon comes, on the same line and at most 1024 characters on, and the tokens that say so are put in
where it started. -/
namespace ApiGraph.Yaml

structure Candidate where
  required : Bool
  token : Nat
  mark : Mark
  deriving Repr

def maxKeyLength : Nat := 1024

structure Layout where
  cursor : Cursor
  tokens : List Token
  count : Nat
  columns : List Nat
  candidates : List (Option Candidate)
  keyAllowed : Bool

namespace Layout

def inFlow (s : Layout) : Bool := decide (1 < s.candidates.length)

def push (s : Layout) (t : Token) : Layout :=
  { s with tokens := t :: s.tokens, count := s.count + 1 }

def insert (s : Layout) (number : Nat) (t : Token) : Layout :=
  let later := s.count - number
  { s with tokens := s.tokens.take later ++ t :: s.tokens.drop later, count := s.count + 1 }

def move (s : Layout) (c : Cursor) : Layout := { s with cursor := c }

def pushSign (s : Layout) (t : Token) : Layout := (s.push t).move s.cursor.skip

def allowKey (s : Layout) (allowed : Bool) : Layout := { s with keyAllowed := allowed }

def dropCandidate (s : Layout) : Option Layout :=
  match s.candidates with
  | [] => some s
  | k :: more => if k.any (·.required) then none else some { s with candidates := none :: more }

def saveCandidate (s : Layout) : Option Layout :=
  if s.keyAllowed then do
    let s ← s.dropCandidate
    let required := !s.inFlow && s.columns.head? == some s.cursor.column
    some { s with candidates := some ⟨required, s.count, s.cursor.mark⟩ :: s.candidates.drop 1 }
  else some s

def dropStale (s : Layout) : Option Layout := do
  let m := s.cursor.mark
  let isStale (k : Candidate) := k.mark.line < m.line || k.mark.index + maxKeyLength < m.index
  if s.candidates.any (fun k => k.any (fun k => isStale k && k.required)) then none
  else some { s with candidates := s.candidates.map (·.filter (fun k => !isStale k)) }

def closeColumns (keep : Nat → Bool) (s : Layout) : List Nat → Layout
  | [] => { s with columns := [] }
  | n :: more => if keep n then { s with columns := n :: more }
    else closeColumns keep (s.push .blockEnd) more

def closeRight (s : Layout) (column : Nat) : Layout :=
  if s.inFlow then s else closeColumns (fun n => decide (n ≤ column)) s s.columns

def closeAll (s : Layout) : Layout :=
  if s.inFlow then s else closeColumns (fun _ => false) s s.columns

def openAt (s : Layout) (column number : Nat) (t : Token) : Layout :=
  if !s.inFlow && s.columns.all (fun n => decide (n < column)) then
    { s with columns := column :: s.columns }.insert number t
  else s

def openHere (s : Layout) (t : Token) : Option Layout :=
  if s.inFlow then some s
  else if s.keyAllowed then some (s.openAt s.cursor.column s.count t)
  else none

def skipFrom (flow allowed : Bool) (comment : Bool) (m : Mark) : List Char → Bool × Cursor
  | [] => (allowed, ⟨m, []⟩)
  | c :: r =>
    if isBreak c then skipFrom flow (allowed || !flow) false (m.after c) r
    else if comment || c == ' ' || (c == '\t' && (flow || !allowed)) then
      skipFrom flow allowed comment (m.after c) r
    else if c == '#' then skipFrom flow allowed true (m.after c) r
    else (allowed, ⟨m, c :: r⟩)

def skipSpace (s : Layout) : Layout :=
  let (allowed, c) := skipFrom s.inFlow s.keyAllowed false s.cursor.mark s.cursor.rest
  (s.allowKey allowed).move c

def boundary (s : Layout) : Option Layout := do
  some ((← s.closeAll.dropCandidate).allowKey false)

def marker (s : Layout) (t : Token) : Option Layout := do
  let s ← s.boundary
  some ((s.push t).move s.cursor.skip.skip.skip)

def directive (s : Layout) : Option Layout := do
  let s ← s.boundary
  let (t, c) ← directive? s.cursor
  some ((s.push t).move c)

def openFlow (s : Layout) (t : Token) : Option Layout := do
  let s ← s.saveCandidate
  some ({ s with candidates := none :: s.candidates, keyAllowed := true }.pushSign t)

def closeFlow (s : Layout) (t : Token) : Option Layout := do
  let s ← s.dropCandidate
  let outer := if s.inFlow then s.candidates.drop 1 else s.candidates
  some ({ s with candidates := outer, keyAllowed := false }.pushSign t)

def flowEntry (s : Layout) : Option Layout := do
  some (((← s.dropCandidate).allowKey true).pushSign .flowEntry)

def blockEntry (s : Layout) : Option Layout := do
  let s ← (← s.openHere .blockList).dropCandidate
  some ((s.allowKey true).pushSign .blockEntry)

def key (s : Layout) : Option Layout := do
  let s ← (← s.openHere .blockMap).dropCandidate
  some ((s.allowKey (!s.inFlow)).pushSign .key)

def value (s : Layout) : Option Layout :=
  match s.candidates with
  | some k :: more =>
    let s := ({ s with candidates := none :: more }.insert k.token .key).openAt
      k.mark.column k.token .blockMap
    some ((s.allowKey false).pushSign .value)
  | _ => do
    let s ← s.openHere .blockMap
    some ((s.allowKey (!s.inFlow)).pushSign .value)

def keyed (s : Layout) (scan : Cursor → Option (Token × Cursor)) : Option Layout := do
  let s ← s.saveCandidate
  let (t, c) ← scan s.cursor
  some (((s.allowKey false).push t).move c)

def plain (s : Layout) : Option Layout := do
  let s ← s.saveCandidate
  let (text, broken, c) ← plain? s.inFlow ((s.columns.head?.map (· + 1)).getD 0) s.cursor
  some (((s.allowKey broken).push (.scalar .plain text)).move c)

def blockText (s : Layout) (style : Style) : Option Layout := do
  let s ← s.dropCandidate
  let (text, c) ← blockText? (style == .folded) s.columns.head? s.cursor
  some (((s.allowKey true).push (.scalar style text)).move c)

def quotedToken (style : Style) (quote : Char) (c : Cursor) : Option (Token × Cursor) :=
  (quoted? quote c).map fun (text, c) => (.scalar style text, c)

def takeToken (s : Layout) (c : Char) : Option Layout :=
  let wordBefore := s.inFlow || endsWord (s.cursor.rest.drop 1)
  if s.cursor.column == 0 && c == '%' then s.directive
  else if s.cursor.atMarker ['-', '-', '-'] then s.marker .documentStart
  else if s.cursor.atMarker ['.', '.', '.'] then s.marker .documentEnd
  else if c == '[' then s.openFlow .flowList
  else if c == '\x7b' then s.openFlow .flowMap
  else if c == ']' then s.closeFlow .flowListEnd
  else if c == '\x7d' then s.closeFlow .flowMapEnd
  else if c == ',' then s.flowEntry
  else if c == '-' && endsWord (s.cursor.rest.drop 1) then s.blockEntry
  else if c == '?' && wordBefore then s.key
  else if c == ':' && wordBefore then s.value
  else if c == '*' then s.keyed fun c => (anchorName? c).map fun (name, c) => (.alias name, c)
  else if c == '&' then s.keyed fun c => (anchorName? c).map fun (name, c) => (.anchor name, c)
  else if c == '!' then s.keyed (tag? s.inFlow)
  else if c == '|' && !s.inFlow then s.blockText .literal
  else if c == '>' && !s.inFlow then s.blockText .folded
  else if c == apostrophe then s.keyed (quotedToken .single apostrophe)
  else if c == '"' then s.keyed (quotedToken .double '"')
  else if startsPlain s.inFlow s.cursor.rest then s.plain
  else none

/- All tokens from here on; `fuel` is the length of the text, of which every token takes some. -/
def run : Nat → Layout → Option Layout
  | 0, _ => none
  | fuel + 1, s => do
    let s ← s.skipSpace.dropStale
    match s.cursor.next? with
    | none => s.boundary
    | some c =>
      let s := s.closeRight s.cursor.column
      run fuel (← s.takeToken c)

end Layout

def tokens? (text : String) : Option (List Token) := do
  let c ← Cursor.ofText? text
  let s ← Layout.run (c.rest.length + 1) ⟨c, [], 0, [], [none], true⟩
  some s.tokens.reverse

end ApiGraph.Yaml
