import ApiGraph.Text.CaseMap

/-! Identifier cases. A name is cut into lower case words at every character that is neither letter
nor digit, between a lower and an upper case letter, before the last capital of an acronym that a
lower case letter follows, and after a digit that a letter follows. -/
namespace ApiGraph.Words
open Text

inductive NameCase where
  | kebab
  | pascal
  | snake
  | camel
  | preserve
  deriving DecidableEq, Repr

def boundary (prev c : Char) (rest : List Char) : Bool :=
  (isLowercase prev && isUppercase c) ||
  (isUppercase prev && isUppercase c && (match rest with
    | next :: _ => isLowercase next
    | [] => false)) ||
  (isAsciiDigit prev && isAlphabetic c)

def wordsFrom (prev : Char) (word : List Char) : List Char → List (List Char)
  | [] => if word.isEmpty then [] else [word]
  | c :: r =>
    if !isAlphanumeric c then
      if word.isEmpty then wordsFrom c [] r else word :: wordsFrom c [] r
    else if !word.isEmpty && boundary prev c r then word :: wordsFrom c (lowerChar c) r
    else wordsFrom c (word ++ lowerChar c) r

def wordsOf (cs : List Char) : List (List Char) := wordsFrom ' ' [] cs

def words (s : String) : List String := (wordsOf s.toList).map String.ofList

def capitalize : List Char → List Char
  | [] => []
  | c :: r => upperChar c ++ r

def snake (s : String) : String := String.ofList (List.intercalate ['_'] (wordsOf s.toList))
def kebab (s : String) : String := String.ofList (List.intercalate ['-'] (wordsOf s.toList))

def camel (s : String) : String :=
  match wordsOf s.toList with
  | [] => ""
  | w :: r => String.ofList (w ++ r.flatMap capitalize)

def pascal (s : String) : String := String.ofList ((wordsOf s.toList).flatMap capitalize)

def conforms (kind : NameCase) (cs : List Char) : Bool :=
  match kind with
  | .snake => !cs.any (fun c => isUppercase c || c == '-' || isBlank c)
  | .kebab => !cs.any (fun c => isUppercase c || c == '_' || isBlank c)
  | .camel => (match cs with
      | c :: _ => isLowercase c
      | [] => false) && !cs.any (fun c => c == '-' || c == '_' || isBlank c)
  | .pascal => (match cs with
      | c :: _ => isUppercase c
      | [] => false) && !cs.any (fun c => c == '-' || c == '_' || isBlank c)
  | .preserve => true

def setCase (s : String) (kind : NameCase) : String :=
  if conforms kind s.toList then s
  else match kind with
    | .kebab => kebab s
    | .pascal => pascal s
    | .snake => snake s
    | .camel => camel s
    | .preserve => s

end ApiGraph.Words
