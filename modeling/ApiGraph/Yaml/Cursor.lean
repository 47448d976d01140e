/-! Places in a YAML text. Every end of a line is first made one character, so that a cursor moves
one character at a time; a text with a character that YAML does not admit has no such form. -/
namespace ApiGraph.Yaml

def apostrophe : Char := Char.ofNat 0x27

def isBreak (c : Char) : Bool := c == '\n' || c.toNat == 0x2028 || c.toNat == 0x2029

def isGap (c : Char) : Bool := c == ' ' || c == '\t'

def isAdmitted (c : Char) : Bool :=
  let n := c.toNat
  n == 9 || n == 10 || n == 13 || n == 0x85 || (0x20 ≤ n && n ≤ 0x7e) ||
    (0xa0 ≤ n && n ≤ 0xfffd && n != 0xfeff) || 0x10000 ≤ n

def unifyBreaks : List Char → List Char
  | [] => []
  | '\r' :: '\n' :: r => '\n' :: unifyBreaks r
  | c :: r => (if c == '\r' || c.toNat == 0x85 then '\n' else c) :: unifyBreaks r

def endsWord : List Char → Bool
  | [] => true
  | c :: _ => isGap c || isBreak c

def startsWith : List Char → List Char → Bool
  | [], _ => true
  | w :: ws, c :: r => w == c && startsWith ws r
  | _ :: _, [] => false

structure Mark where
  line : Nat
  column : Nat
  index : Nat
  deriving DecidableEq, Repr

def Mark.after (m : Mark) (c : Char) : Mark :=
  if isBreak c then ⟨m.line + 1, 0, m.index + 1⟩ else ⟨m.line, m.column + 1, m.index + 1⟩

structure Cursor where
  mark : Mark
  rest : List Char
  deriving Repr

namespace Cursor

def ofText? (text : String) : Option Cursor :=
  let cs := match text.toList with
    | c :: r => if c.toNat == 0xfeff then r else c :: r
    | [] => []
  if cs.all isAdmitted then some ⟨⟨0, 0, 0⟩, unifyBreaks cs⟩ else none

def column (c : Cursor) : Nat := c.mark.column

def skip : Cursor → Cursor
  | ⟨m, []⟩ => ⟨m, []⟩
  | ⟨m, c :: r⟩ => ⟨m.after c, r⟩

def spanFrom (p : Char → Bool) (m : Mark) : List Char → List Char × Cursor
  | [] => ([], ⟨m, []⟩)
  | c :: r =>
    if p c then let (cs, e) := spanFrom p (m.after c) r; (c :: cs, e)
    else ([], ⟨m, c :: r⟩)

def span (c : Cursor) (p : Char → Bool) : List Char × Cursor := spanFrom p c.mark c.rest

def skipWhile (c : Cursor) (p : Char → Bool) : Cursor := (c.span p).2

def next? (c : Cursor) : Option Char := c.rest.head?

def sees (c : Cursor) (ch : Char) : Bool := c.next? == some ch

def atWordEnd (c : Cursor) : Bool := endsWord c.rest

def atLineEnd (c : Cursor) : Bool := c.rest.head?.all isBreak

def atMarker (c : Cursor) (word : List Char) : Bool :=
  c.column == 0 && startsWith word c.rest && endsWord (c.rest.drop word.length)

def atDocumentMarker (c : Cursor) : Bool :=
  c.atMarker ['-', '-', '-'] || c.atMarker ['.', '.', '.']

def finishLine? (c : Cursor) : Option Cursor :=
  let c := c.skipWhile isGap
  let c := if c.sees '#' then c.skipWhile (fun ch => !isBreak ch) else c
  if c.atLineEnd then some c.skip else none

end Cursor
end ApiGraph.Yaml
