import ApiGraph.Yaml.Plain
import ApiGraph.Yaml.Schema

/-! How a text is written as a scalar of a block collection: as it is when it then reads as that
text, a text of several lines as a literal block, and otherwise between quotes, of which the double
ones can hold everything. -/
namespace ApiGraph.Yaml

def isPrintable (c : Char) : Bool :=
  let n := c.toNat
  n == 10 || (0x20 ≤ n && n ≤ 0x7e) || (0xa0 ≤ n && n ≤ 0xfffd && n != 0xfeff) || 0x10000 ≤ n

def hasPair (p q : Char → Bool) : List Char → Bool
  | a :: b :: r => p a && q b || hasPair p q (b :: r)
  | _ => false

def isSpace (c : Char) : Bool := c == ' '

def isPaddedText (cs : List Char) : Bool :=
  let blank (c : Char) := isSpace c || isBreak c
  cs.head?.any blank || cs.getLast?.any blank

def leadIndicators : List Char := "#,[]\x7b\x7d&*!|>'\"%@`".toList

def hasMark : List Char → Bool
  | [] => false
  | c :: r => (c == ':' && endsWord r) || (isSpace c && r.head? == some '#') || hasMark r

def allowsPlain (cs : List Char) : Bool :=
  cs.all isPrintable && !cs.any isBreak && !isPaddedText cs &&
    !startsWith ['-', '-', '-'] cs && !startsWith ['.', '.', '.'] cs &&
    !cs.head?.any leadIndicators.contains &&
    !(cs.head?.any "-?".toList.contains && endsWord (cs.drop 1)) && !hasMark cs

def allowsSingle (cs : List Char) : Bool :=
  cs.all isPrintable && !hasPair isSpace isBreak cs && !hasPair isBreak isSpace cs

def allowsLiteral (cs : List Char) : Bool :=
  cs.all isPrintable && !hasPair isSpace isBreak cs && !cs.getLast?.any isSpace

def isAmbiguous (s : String) : Bool := meaning s != .text || isPadded s.toList

def writtenStyle (s : String) : Style :=
  let cs := s.toList
  if cs.contains '\n' then if allowsLiteral cs then .literal else .double
  else if !isAmbiguous s && allowsPlain cs then .plain
  else if allowsSingle cs then .single
  else .double

def spaces (n : Nat) : List Char := List.replicate n ' '

def indented (indent : Nat) (atStart : Bool) : List Char → List Char
  | [] => []
  | c :: r =>
    (if atStart && !isBreak c then spaces indent else []) ++ c :: indented indent (isBreak c) r

def singleQuoted (indent : Nat) (cs : List Char) : List Char :=
  apostrophe ::
    indented indent false (cs.flatMap fun c => if c == apostrophe then [c, c] else [c]) ++
    (if cs.getLast?.any isBreak then spaces indent else []) ++ [apostrophe]

def hexChars (digits n : Nat) : List Char :=
  let cs := (Nat.toDigits 16 n).map Char.toUpper
  List.replicate (digits - cs.length) '0' ++ cs

def writtenEscapes : List (Nat × Char) :=
  [(0, '0'), (7, 'a'), (8, 'b'), (9, 't'), (10, 'n'), (11, 'v'), (12, 'f'), (13, 'r'), (27, 'e'),
    (34, '"'), (92, '\\'), (0x85, 'N'), (0xa0, '_'), (0x2028, 'L'), (0x2029, 'P')]

def doubleChar (c : Char) : List Char :=
  if isPrintable c && !isBreak c && c != '"' && c != '\\' then [c]
  else '\\' :: match writtenEscapes.lookup c.toNat with
    | some name => [name]
    | none => if c.toNat < 0x100 then 'x' :: hexChars 2 c.toNat else 'u' :: hexChars 4 c.toNat

def doubleQuoted (cs : List Char) : List Char := '"' :: cs.flatMap doubleChar ++ ['"']

def chompSign (cs : List Char) : List Char :=
  match cs.reverse with
  | a :: b :: _ => if !isBreak a then ['-'] else if isBreak b then ['+'] else []
  | [a] => if isBreak a then ['+'] else ['-']
  | [] => ['-']

def literal (indent : Nat) (cs : List Char) : List Char :=
  '|' :: (if cs.head?.any (fun c => isSpace c || isBreak c) then ['2'] else []) ++ chompSign cs ++
    '\n' :: indented indent true (if cs.getLast? == some '\n' then cs.dropLast else cs)

def written (indent : Nat) (s : String) : List Char :=
  match writtenStyle s with
  | .plain => s.toList
  | .single => singleQuoted indent s.toList
  | .double => doubleQuoted s.toList
  | .literal | .folded => literal indent s.toList

end ApiGraph.Yaml
