import ApiGraph.Text.Ranges
import ApiGraph.Yaml.Folding

/-! Quoted scalars. Between apostrophes a pair of them is one; between double quotes a backslash
writes a character by name or number, or hides the end of a line. -/
namespace ApiGraph.Yaml
open Text

def namedEscapes : List (Char × Nat) :=
  [('0', 0), ('a', 7), ('b', 8), ('t', 9), ('\t', 9), ('n', 10), ('v', 11), ('f', 12), ('r', 13),
    ('e', 27), (' ', 32), ('"', 34), ('/', 47), ('\\', 92), ('N', 0x85), ('_', 0xa0),
    ('L', 0x2028), ('P', 0x2029)]

def numberedEscapes : List (Char × Nat) := [('x', 2), ('u', 4), ('U', 8)]

def numbered? (digits : Nat) (c : Cursor) : Option (Char × Cursor) :=
  let cs := c.rest.take digits
  let n := hexNumber cs
  if cs.length == digits && cs.all (fun d => (hexDigit? d).isSome) && n.isValidChar then
    some (Char.ofNat n, ⟨⟨c.mark.line, c.column + digits, c.mark.index + digits⟩, c.rest.drop digits⟩)
  else none

def escape? (c : Cursor) : Option (Char × Cursor) := do
  let name ← c.next?
  match namedEscapes.lookup name with
  | some n => some (Char.ofNat n, c.skip)
  | none => numbered? (← numberedEscapes.lookup name) c.skip

def quotedFrom (quote : Char) : Nat → List Char → Cursor → Option (String × Cursor)
  | 0, _, _ => none
  | fuel + 1, taken, c =>
    if c.atDocumentMarker then none
    else match c.rest with
      | [] => none
      | ch :: r =>
        if ch == quote then
          if quote == apostrophe && startsWith [quote] r then
            quotedFrom quote fuel (quote :: taken) c.skip.skip
          else some (String.ofList taken.reverse, c.skip)
        else if ch == '\\' && quote == '"' then
          if r.head?.any isBreak then do
            let (g, c') ← gapFrom (fun _ => false) .escaped c.skip.skip.mark c.skip.skip.rest
            quotedFrom quote fuel (g.folded ++ taken) c'
          else do
            let (e, c') ← escape? c.skip
            quotedFrom quote fuel (e :: taken) c'
        else if isGap ch || isBreak ch then do
          let (g, c') ← gapFrom (fun _ => false) .none c.mark c.rest
          quotedFrom quote fuel (g.folded ++ taken) c'
        else quotedFrom quote fuel (ch :: taken) c.skip

def quoted? (quote : Char) (c : Cursor) : Option (String × Cursor) :=
  quotedFrom quote (c.rest.length + 1) [] c.skip

end ApiGraph.Yaml
