/-! Lines and columns of a text. Lines count from one. A column counts bytes in a `Place`, where it
includes the byte in question, and characters in `offsetOf`. -/
namespace ApiGraph.Text

def byteCount (cs : List Char) : Nat := cs.foldl (fun n c => n + c.utf8Size) 0

structure Place where
  line : Nat
  column : Nat
  deriving DecidableEq, Repr

def Place.advance (place : Place) : List Char → Nat → Place
  | [], _ => place
  | c :: r, count =>
    if count = 0 then place
    else if count < c.utf8Size then ⟨place.line, place.column + count⟩
    else if c = '\n' then (⟨place.line + 1, 0⟩ : Place).advance r (count - c.utf8Size)
    else (⟨place.line, place.column + c.utf8Size⟩ : Place).advance r (count - c.utf8Size)

def placeOf (cs : List Char) (count : Nat) : Place := (⟨1, 0⟩ : Place).advance cs count

def lines : List Char → List (List Char)
  | [] => []
  | c :: r =>
    if c = '\n' then ['\n'] :: lines r
    else match lines r with
      | [] => [[c]]
      | first :: more => (c :: first) :: more

/- Skips whole lines before `line`, then `column - 1` characters; past the end of the line the
answer is its end, past the last line the end of the text. -/
def offsetIn (column : Nat) : List (List Char) → Nat → Nat
  | [], _ => 0
  | text :: more, line =>
    if line = 1 then byteCount (text.take (column - 1))
    else byteCount text + offsetIn column more (line - 1)

def offsetOf (text : String) (line column : Nat) : Nat :=
  if line = 0 then byteCount text.toList else offsetIn column (lines text.toList) line

end ApiGraph.Text
