import ApiGraph.Yaml.Folding

/-! Scalars without quotes. Such a scalar ends at a colon before a gap, at a comment, in a flow
collection at its punctuation, and elsewhere at a line that is indented too little. -/
namespace ApiGraph.Yaml

def indicators : List Char := "-?:,[]\x7b\x7d#&*!|>'\"%@`".toList

def flowPunctuation : List Char := ",[]\x7b\x7d".toList

def startsPlain (flow : Bool) : List Char → Bool
  | [] => false
  | c :: r =>
    (!endsWord [c] && !indicators.contains c) || (c == '-' && !r.head?.any isGap) ||
      (!flow && (c == '?' || c == ':') && !endsWord r)

def plainWord (flow : Bool) (taken : List Char) (m : Mark) : List Char → Option (List Char × Cursor)
  | [] => some (taken, ⟨m, []⟩)
  | c :: r =>
    if endsWord (c :: r) then some (taken, ⟨m, c :: r⟩)
    else if flow && c == ':' && r.head?.any (fun d => d == '?' || flowPunctuation.contains d) then none
    else if (c == ':' && endsWord r) || (flow && flowPunctuation.contains c) then
      some (taken, ⟨m, c :: r⟩)
    else plainWord flow (c :: taken) (m.after c) r

def plainFrom (flow : Bool) (indent : Nat) :
    Nat → List Char → Gap → Cursor → Option (String × Bool × Cursor)
  | 0, _, _, _ => none
  | fuel + 1, taken, gap, c =>
    let ended (taken : List Char) (g : Gap) (c : Cursor) :=
      some (String.ofList taken.reverse, g.hasBreak, c)
    if c.atDocumentMarker || c.sees '#' then ended taken gap c
    else do
      let (word, c') ← plainWord flow [] c.mark c.rest
      let (taken, gap) := if word.isEmpty then (taken, gap) else (word ++ gap.folded ++ taken, Gap.none)
      if c'.atWordEnd && !c'.rest.isEmpty then
        let (gap', c'') ← gapFrom (fun column => decide (column < indent)) .none c'.mark c'.rest
        if !flow && decide (c''.column < indent) then ended taken gap' c''
        else plainFrom flow indent fuel taken gap' c''
      else ended taken gap c'

def plain? (flow : Bool) (indent : Nat) (c : Cursor) : Option (String × Bool × Cursor) :=
  plainFrom flow indent (c.rest.length + 1) [] .none c

end ApiGraph.Yaml
