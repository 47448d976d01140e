import ApiGraph.Text.CaseMap

/-! Search expressions and what they match. A set of spots in a text is carried through an
expression from left to right; the expression is found when some spot is left. -/
namespace ApiGraph.Pattern
open Text

inductive CharClass where
  | none
  | span (first last : Char)
  | digit
  | space
  | word
  | either (a b : CharClass)
  | both (a b : CharClass)
  | except (a b : CharClass)
  | other (a : CharClass)
  | folded (a : CharClass)
  deriving Repr

def Run.source? (r : Run) (n : Nat) : Option Nat :=
  let m := if r.up then n - r.distance else n + r.distance
  if r.target? m == some n then some m else none

def orbit (c : Char) : List Char :=
  let base := foldChar c
  base :: asciiUpper base :: (foldRuns.filterMap (Run.source? · base.toNat)).map Char.ofNat

def CharClass.has : CharClass → Char → Bool
  | .none, _ => false
  | .span first last, c => decide (first ≤ c) && decide (c ≤ last)
  | .digit, c => isDecimalDigit c
  | .space, c => isBlank c
  | .word, c => isWordChar c
  | .either a b, c => a.has c || b.has c
  | .both a b, c => a.has c && b.has c
  | .except a b, c => a.has c && !b.has c
  | .other a, c => !a.has c
  | .folded a, c => (orbit c).any a.has

inductive Edge where
  | textStart
  | textEnd
  | lineStart
  | lineEnd
  | wordBreak (letters : CharClass)
  | noWordBreak (letters : CharClass)
  | wordStart (letters : CharClass)
  | wordEnd (letters : CharClass)
  | halfStart (letters : CharClass)
  | halfEnd (letters : CharClass)
  deriving Repr

inductive Expression where
  | empty
  | char (set : CharClass)
  | edge (e : Edge)
  | andThen (a b : Expression)
  | orElse (a b : Expression)
  | times (a : Expression) (least : Nat) (most : Option Nat)
  deriving Repr

structure Spot where
  before : Option Char
  rest : List Char

def Spot.step? (set : CharClass) (p : Spot) : Option Spot :=
  match p.rest with
  | [] => none
  | c :: r => if set.has c then some ⟨some c, r⟩ else none

def Edge.holds (e : Edge) (p : Spot) : Bool :=
  let after := p.rest.head?
  let left (letters : CharClass) := p.before.any letters.has
  let right (letters : CharClass) := after.any letters.has
  match e with
  | .textStart => p.before.isNone
  | .textEnd => p.rest.isEmpty
  | .lineStart => p.before.isNone || p.before == some '\n'
  | .lineEnd => p.rest.isEmpty || after == some '\n'
  | .wordBreak letters => left letters != right letters
  | .noWordBreak letters => left letters == right letters
  | .wordStart letters => !left letters && right letters
  | .wordEnd letters => left letters && !right letters
  | .halfStart letters => !left letters
  | .halfEnd letters => !right letters

def Expression.weight : Expression → Nat
  | .empty => 0
  | .char _ => 1
  | .edge _ => 1
  | .andThen a b => a.weight + b.weight
  | .orElse a b => a.weight + b.weight + 1
  | .times a least most => a.weight * max least (most.getD 1) + 1

def addSpots (ps : List Spot) (more : List Spot) : List Spot :=
  more.foldl (fun acc p =>
    if acc.any (fun q => q.rest.length == p.rest.length) then acc else acc ++ [p]) ps

def repeated (f : List Spot → List Spot) : Nat → List Spot → List Spot
  | 0, ps => ps
  | n + 1, ps => repeated f n (f ps)

def reached (f : List Spot → List Spot) : Nat → List Spot → List Spot
  | 0, ps => ps
  | n + 1, ps => reached f n (addSpots ps (f ps))

/- The spots after a match that starts at one of `ps`. A further round of a repetition adds a spot
or nothing, so the rounds need not be more than the text is long. -/
def Expression.advance : Expression → List Spot → List Spot
  | .empty, ps => ps
  | .char set, ps => ps.filterMap (Spot.step? set)
  | .edge e, ps => ps.filter e.holds
  | .andThen a b, ps => b.advance (a.advance ps)
  | .orElse a b, ps => addSpots (a.advance ps) (b.advance ps)
  | .times a least most, ps =>
    let start := repeated a.advance least ps
    let rounds := (start.map (fun p => p.rest.length)).foldl max 0 + 1
    reached a.advance (match most with
      | some m => min (m - least) rounds
      | none => rounds) start

def spots (before : Option Char) : List Char → List Spot
  | [] => [⟨before, []⟩]
  | c :: r => ⟨before, c :: r⟩ :: spots (some c) r

def Expression.found (e : Expression) (text : String) : Bool :=
  !(e.advance (spots none text.toList)).isEmpty

end ApiGraph.Pattern
