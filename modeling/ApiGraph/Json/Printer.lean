import ApiGraph.Json.Value
import ApiGraph.Number.Shortest

/-! JSON text of a value: `compact` on one line without blanks, `pretty` with one member or element
a line, indented by two. Control characters are escaped; everything else but `"` and `\` is raw. -/
namespace ApiGraph.Json
open Number

def hexChar (n : Nat) : Char := if n < 10 then Char.ofNat (48 + n) else Char.ofNat (87 + n)

def escapeChar (c : Char) : List Char :=
  match c with
  | '"' => ['\\', '"']
  | '\\' => ['\\', '\\']
  | '\n' => ['\\', 'n']
  | '\r' => ['\\', 'r']
  | '\t' => ['\\', 't']
  | c =>
    if c.toNat = 8 then ['\\', 'b']
    else if c.toNat = 12 then ['\\', 'f']
    else if c.toNat < 32 then ['\\', 'u', '0', '0', hexChar (c.toNat / 16), hexChar (c.toNat % 16)]
    else [c]

def quoted (s : String) : String :=
  String.ofList ('"' :: (s.toList.flatMap escapeChar ++ ['"']))

def Numeral.text : Numeral → String
  | .whole n => match n with
    | .ofNat k => String.ofList (decimalDigits k)
    | .negSucc k => String.ofList ('-' :: decimalDigits (k + 1))
  | .double d => String.ofList d.text

def joined (sep : String) : List String → String
  | [] => ""
  | s :: r => r.foldl (fun acc t => acc ++ sep ++ t) s

namespace Value

mutual
def compact : Value → String
  | .null => "null"
  | .bool b => if b then "true" else "false"
  | .num n => n.text
  | .str s => quoted s
  | .arr items => "[" ++ joined "," (compactItems items) ++ "]"
  | .obj members => "\x7b" ++ joined "," (compactMembers members) ++ "\x7d"
termination_by structural v => v
def compactItems : List Value → List String
  | [] => []
  | x :: r => compact x :: compactItems r
termination_by structural xs => xs
def compactMembers : List (String × Value) → List String
  | [] => []
  | (k, x) :: r => (quoted k ++ ":" ++ compact x) :: compactMembers r
termination_by structural xs => xs
end

def newline (depth : Nat) : String := String.ofList ('\n' :: List.replicate (2 * depth) ' ')

mutual
def prettyAt (depth : Nat) : Value → String
  | .null => "null"
  | .bool b => if b then "true" else "false"
  | .num n => n.text
  | .str s => quoted s
  | .arr [] => "[]"
  | .arr (x :: xs) =>
    "[" ++ newline (depth + 1) ++
      joined ("," ++ newline (depth + 1)) (prettyAt (depth + 1) x :: prettyItems (depth + 1) xs) ++
      newline depth ++ "]"
  | .obj [] => "\x7b\x7d"
  | .obj ((k, x) :: ms) =>
    "\x7b" ++ newline (depth + 1) ++
      joined ("," ++ newline (depth + 1))
        ((quoted k ++ ": " ++ prettyAt (depth + 1) x) :: prettyMembers (depth + 1) ms) ++
      newline depth ++ "\x7d"
termination_by structural v => v
def prettyItems (depth : Nat) : List Value → List String
  | [] => []
  | x :: r => prettyAt depth x :: prettyItems depth r
termination_by structural xs => xs
def prettyMembers (depth : Nat) : List (String × Value) → List String
  | [] => []
  | (k, x) :: r => (quoted k ++ ": " ++ prettyAt depth x) :: prettyMembers depth r
termination_by structural xs => xs
end

def pretty (v : Value) : String := prettyAt 0 v

end Value
end ApiGraph.Json
