import ApiGraph.Text.Ranges
import ApiGraph.Yaml.Cursor
import ApiGraph.Yaml.Token

/-! What stands before a node or a document: anchors and aliases, tags, and directives. -/
namespace ApiGraph.Yaml
open Text

def isNameChar (c : Char) : Bool := c.isAlphanum || c == '_' || c == '-'

def anchorName? (c : Cursor) : Option (String × Cursor) :=
  let (name, c) := c.skip.span isNameChar
  if !name.isEmpty && (c.atWordEnd || c.next?.any "?:,]\x7d%@`".toList.contains) then
    some (String.ofList name, c)
  else none

def isTagChar (listed : Bool) (c : Char) : Bool :=
  isNameChar c || ";/?:@&=+$.!~*'()".toList.contains c || (listed && ",[]".toList.contains c)

def escapedByte? : List Char → Option (Nat × List Char)
  | '%' :: a :: b :: r => do
    let high ← hexDigit? a
    let low ← hexDigit? b
    some (16 * high + low, r)
  | _ => none

def continued? : Nat → Nat → List Char → Option (Nat × List Char)
  | 0, n, cs => some (n, cs)
  | k + 1, n, cs => do
    let (b, r) ← escapedByte? cs
    if b / 64 == 2 then continued? k (64 * n + b % 64) r else none

def escapedChar? (cs : List Char) : Option (Char × List Char) := do
  let (b, r) ← escapedByte? cs
  let (n, r) ←
    if b < 0x80 then some (b, r)
    else if b / 32 == 6 then continued? 1 (b % 32) r
    else if b / 16 == 14 then continued? 2 (b % 16) r
    else if b / 8 == 30 then continued? 3 (b % 8) r
    else none
  some (Char.ofNat n, r)

def tagChars (listed : Bool) : Nat → List Char → List Char → Option (List Char × List Char)
  | 0, _, _ => none
  | fuel + 1, taken, cs => match cs with
    | [] => some (taken.reverse, [])
    | c :: r =>
      if isTagChar listed c then tagChars listed fuel (c :: taken) r
      else if c == '%' then do
        let (e, r) ← escapedChar? cs
        tagChars listed fuel (e :: taken) r
      else some (taken.reverse, cs)

def tagText? (listed : Bool) (c : Cursor) : Option (String × Cursor) := do
  let (cs, rest) ← tagChars listed (c.rest.length + 1) [] c.rest
  let width := c.rest.length - rest.length
  some (String.ofList cs, ⟨⟨c.mark.line, c.column + width, c.mark.index + width⟩, rest⟩)

def handle? (c : Cursor) : Option (String × Bool × Cursor) :=
  if c.sees '!' then
    let (name, c) := c.skip.span isNameChar
    if c.sees '!' then some (String.ofList ('!' :: name ++ ['!']), true, c.skip)
    else some (String.ofList ('!' :: name), false, c)
  else none

def tagParts? (c : Cursor) : Option (Token × Cursor) := do
  if startsWith ['!', '<'] c.rest then
    let (suffix, c) ← tagText? true c.skip.skip
    if suffix.isEmpty || !c.sees '>' then none else some (.tag "" suffix, c.skip)
  else
    let (handle, closed, c) ← handle? c
    let (suffix, c) ← tagText? false c
    if closed then if suffix.isEmpty then none else some (.tag handle suffix, c)
    else
      let suffix := String.ofList (handle.toList.drop 1) ++ suffix
      some (if suffix.isEmpty then (.tag "" "!", c) else (.tag "!" suffix, c))

def tag? (flow : Bool) (c : Cursor) : Option (Token × Cursor) := do
  let (token, c) ← tagParts? c
  if c.atWordEnd || (flow && c.sees ',') then some (token, c) else none

def versionNumber? (c : Cursor) : Option (Nat × Cursor) :=
  let (ds, c) := c.span Char.isDigit
  if ds.isEmpty || 9 < ds.length then none
  else some (ds.foldl (fun n d => 10 * n + (d.toNat - 48)) 0, c)

def versionDirective? (c : Cursor) : Option (Token × Cursor) := do
  let (major, c) ← versionNumber? (c.skipWhile isGap)
  if c.sees '.' then
    let (minor, c) ← versionNumber? c.skip
    some (.version major minor, c)
  else none

def tagDirective? (c : Cursor) : Option (Token × Cursor) := do
  let (handle, closed, c) ← handle? (c.skipWhile isGap)
  if (closed || handle == "!") && c.next?.any isGap then
    let (uri, c) ← tagText? true (c.skipWhile isGap)
    if !uri.isEmpty && c.atWordEnd then some (.tagHandle handle uri, c) else none
  else none

def directive? (c : Cursor) : Option (Token × Cursor) := do
  let (name, c) := c.skip.span isNameChar
  if c.atWordEnd then
    let (token, c) ← match String.ofList name with
      | "YAML" => versionDirective? c
      | "TAG" => tagDirective? c
      | _ => none
    some (token, ← c.finishLine?)
  else none

end ApiGraph.Yaml
