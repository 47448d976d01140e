import ApiGraph.Yaml.Cursor

/-! Block scalars: lines below a header, each indented alike. The header tells how far, when the
first line does not, and what becomes of the breaks at the end. A folded scalar joins two lines that
start with no gap. -/
namespace ApiGraph.Yaml

inductive Chomp where
  | clip
  | strip
  | keep
  deriving DecidableEq, Repr

structure BlockHeader where
  chomp : Chomp
  indent : Option Nat

def chompOf? : Char → Option Chomp
  | '+' => some .keep
  | '-' => some .strip
  | _ => none

def indentOf? (c : Char) : Option Nat :=
  if '1' ≤ c ∧ c ≤ '9' then some (c.toNat - 48) else none

def blockHeader (c : Cursor) : BlockHeader × Cursor :=
  match c.next?.bind chompOf?, c.next?.bind indentOf? with
  | some chomp, _ => match c.skip.next?.bind indentOf? with
    | some n => (⟨chomp, some n⟩, c.skip.skip)
    | none => (⟨chomp, none⟩, c.skip)
  | none, some n => match c.skip.next?.bind chompOf? with
    | some chomp => (⟨chomp, some n⟩, c.skip.skip)
    | none => (⟨.clip, some n⟩, c.skip)
  | none, none => (⟨.clip, none⟩, c)

def blockLead (indent : Option Nat) (widest : Nat) (breaks : List Char) (m : Mark) :
    List Char → Option (List Char × Nat × Cursor)
  | [] => some (breaks, max widest m.column, ⟨m, []⟩)
  | c :: r =>
    let before := indent.all (fun n => decide (m.column < n))
    if before && c == ' ' then blockLead indent widest breaks (m.after c) r
    else if before && c == '\t' then none
    else if isBreak c then blockLead indent (max widest m.column) (c :: breaks) (m.after c) r
    else some (breaks, max widest m.column, ⟨m, c :: r⟩)

structure BlockState where
  taken : List Char
  last : List Char
  breaks : List Char
  afterGap : Bool

def BlockState.join (s : BlockState) (folded startsGap : Bool) : List Char :=
  if folded && s.last == ['\n'] && !s.afterGap && !startsGap then
    if s.breaks.isEmpty then ' ' :: s.taken else s.breaks ++ s.taken
  else s.breaks ++ (s.last ++ s.taken)

def blockLines (folded : Bool) (indent : Nat) : Nat → BlockState → Cursor → Option (BlockState × Cursor)
  | 0, _, _ => none
  | fuel + 1, s, c =>
    if c.column == indent && !c.rest.isEmpty then do
      let startsGap := c.next?.any isGap
      let (line, c') := c.span (fun ch => !isBreak ch)
      let last := (c'.rest.take 1)
      let (breaks, _, c'') ← blockLead (some indent) 0 [] c'.skip.mark c'.skip.rest
      blockLines folded indent fuel
        ⟨line.reverse ++ s.join folded startsGap, last, breaks, startsGap⟩ c''
    else some (s, c)

def BlockState.finish (s : BlockState) : Chomp → List Char
  | .strip => s.taken
  | .clip => s.last ++ s.taken
  | .keep => s.breaks ++ (s.last ++ s.taken)

def blockText? (folded : Bool) (outer : Option Nat) (c : Cursor) : Option (String × Cursor) := do
  let (header, c) := blockHeader c.skip
  let c ← c.finishLine?
  let least := (outer.map (· + 1)).getD 0
  let given := header.indent.map (fun n => outer.getD 0 + n)
  let (breaks, widest, c) ← blockLead given 0 [] c.mark c.rest
  let indent := given.getD (max (max widest least) 1)
  let (s, c) ← blockLines folded indent (c.rest.length + 1) ⟨[], [], breaks, false⟩ c
  some (String.ofList (s.finish header.chomp).reverse, c)

end ApiGraph.Yaml
