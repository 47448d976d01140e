/-! What searches for expressions. The program has an engine of its own, and whatever rests on patterns
is the same with any other. -/
namespace ApiGraph.Pattern

/- `fold` ignores case, `lines` lets anchors match at line ends, `dotAll` lets a dot match a line
feed, `spaced` allows blanks and comments, `wide` has classes beyond ASCII. -/
structure Flags where
  fold : Bool := false
  lines : Bool := false
  dotAll : Bool := false
  spaced : Bool := false
  wide : Bool := true
  returns : Bool := false
  deriving DecidableEq, Repr

/- Reads an expression and tells in which texts it is found; `none` when it is malformed. -/
structure Engine where
  read : Flags → List Char → Option (String → Bool)

end ApiGraph.Pattern
