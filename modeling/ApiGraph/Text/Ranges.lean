/-! Sets of code points as ascending ranges, written in hexadecimal: `41-5a 61-7a`. -/
namespace ApiGraph.Text

def cutAt (sep : Char) : List Char → List Char × List Char
  | [] => ([], [])
  | c :: r => if c = sep then ([], r) else let (before, after) := cutAt sep r; (c :: before, after)

def splitOn (sep : Char) : List Char → List (List Char)
  | [] => [[]]
  | c :: r =>
    if c = sep then [] :: splitOn sep r
    else match splitOn sep r with
      | [] => [[c]]
      | piece :: more => (c :: piece) :: more

def hexDigit? (c : Char) : Option Nat :=
  if '0' ≤ c ∧ c ≤ '9' then some (c.toNat - 48)
  else if 'a' ≤ c ∧ c ≤ 'f' then some (c.toNat - 87)
  else if 'A' ≤ c ∧ c ≤ 'F' then some (c.toNat - 55)
  else none

def hexNumber (cs : List Char) : Nat :=
  cs.foldl (fun n c => 16 * n + (hexDigit? c).getD 0) 0

structure Ranges where
  bounds : Array (Nat × Nat)
  deriving Repr

def Ranges.ofText (text : String) : Ranges :=
  ⟨((splitOn ' ' text.toList).map fun w =>
    let (first, last) := cutAt '-' w
    (hexNumber first, if last.isEmpty then hexNumber first else hexNumber last)).toArray⟩

def Ranges.search (r : Ranges) (n low high : Nat) : Bool :=
  if low < high then
    let mid := (low + high) / 2
    match r.bounds[mid]? with
    | none => false
    | some (first, last) =>
      if n < first then r.search n low mid
      else if last < n then r.search n (mid + 1) high
      else true
  else false
termination_by high - low

def Ranges.contains (r : Ranges) (n : Nat) : Bool := r.search n 0 r.bounds.size

end ApiGraph.Text
