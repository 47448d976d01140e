import ApiGraph.Yaml.Cursor

/-! Line folding inside a scalar. Of the space between two words nothing counts but its breaks: one
break is a space, of several the first is dropped. Without a break the space stays as it is. -/
namespace ApiGraph.Yaml

/- Space between two words. `first` is the first break, empty when it is escaped; both other fields
are in reverse. -/
structure Gap where
  spaces : List Char
  first : Option (List Char)
  more : List Char
  deriving Repr

namespace Gap

def none : Gap := ⟨[], .none, []⟩

def escaped : Gap := ⟨[], some [], []⟩

def hasBreak (g : Gap) : Bool := g.first.isSome

def push (g : Gap) (c : Char) : Gap :=
  match isBreak c, g.first with
  | true, .none => { g with first := some [c] }
  | true, some _ => { g with more := c :: g.more }
  | false, .none => { g with spaces := c :: g.spaces }
  | false, some _ => g

def folded (g : Gap) : List Char :=
  match g.first with
  | .none => g.spaces
  | some ['\n'] => if g.more.isEmpty then [' '] else g.more
  | some first => g.more ++ first

end Gap

def gapFrom (refuse : Nat → Bool) (g : Gap) (m : Mark) : List Char → Option (Gap × Cursor)
  | [] => some (g, ⟨m, []⟩)
  | c :: r =>
    if isGap c || isBreak c then
      if c == '\t' && g.hasBreak && refuse m.column then none
      else gapFrom refuse (g.push c) (m.after c) r
    else some (g, ⟨m, c :: r⟩)

end ApiGraph.Yaml
