import ApiGraph.Json.Value
import ApiGraph.Location

/-! Reading, writing and removing the value at a location. A segment names a member of an object or,
as a whole number with an optional plus sign, an element of a list. No list is long enough for a number
beyond 64 bits to name an element, so the numbers have no bound. -/
namespace ApiGraph.Tree
open Json

def decimalNumber (cs : List Char) : Nat := cs.foldl (fun n c => 10 * n + (c.toNat - 48)) 0

def digitsIndex? (cs : List Char) : Option Nat :=
  if !cs.isEmpty && cs.all (fun c => decide ('0' ≤ c) && decide (c ≤ '9')) then
    some (decimalNumber cs)
  else none

def index? (segment : String) : Option Nat :=
  match segment.toList with
  | '+' :: r => digitsIndex? r
  | cs => digitsIndex? cs

def step? (v : Value) (segment : String) : Option Value :=
  match v with
  | .obj members => members.lookup segment
  | .arr items => (index? segment).bind (items[·]?)
  | _ => none

def walk? : List String → Value → Option Value
  | [], v => some v
  | s :: r, v => (step? v s).bind (walk? r)

def get? (l : Location) (doc : Value) : Option Value := walk? l.segments doc

def opened : Value → Value
  | .null => .obj []
  | v => v

/- Writes `v` below a value, creating objects for what is missing; `none` when a scalar or an index
past the end is in the way. The last segment may append to a list. -/
def write? (v : Value) : List String → Value → Option Value
  | [], _ => some v
  | s :: r, node => match opened node with
    | .obj members =>
      (write? v r ((members.lookup s).getD (.obj []))).map fun w => .obj (Entries.put s w members)
    | .arr items => (index? s).bind fun i =>
      match items[i]? with
      | some item => (write? v r item).map fun w => .arr (items.set i w)
      | none => if i = items.length && r.isEmpty then some (.arr (items ++ [v])) else none
    | _ => none

def set? (l : Location) (v : Value) (doc : Value) : Option Value := write? v l.segments doc

def set (l : Location) (v : Value) (doc : Value) : Value := (set? l v doc).getD doc

/- Writes as it goes: what is null or missing on the way is an object from then on, whatever comes
further down. What this leaves, and whether the value was written. -/
def writeInPlace (v : Value) : List String → Value → Value × Bool
  | [], _ => (v, true)
  | s :: r, node => match opened node with
    | .obj members =>
      let (w, done) := writeInPlace v r ((members.lookup s).getD (.obj []))
      (.obj (Entries.put s w members), done)
    | .arr items => match index? s with
      | none => (.arr items, false)
      | some i => match items[i]? with
        | some item =>
          let (w, done) := writeInPlace v r item
          (.arr (items.set i w), done)
        | none =>
          if i = items.length && r.isEmpty then (.arr (items ++ [v]), true) else (.arr items, false)
    | scalar => (scalar, false)

def setInPlace (l : Location) (v : Value) (doc : Value) : Value × Bool :=
  writeInPlace v l.segments doc

def take? : List String → Value → Option (Value × Value)
  | [], _ => none
  | s :: r, .obj members => (members.lookup s).bind fun w =>
    if r.isEmpty then some (w, .obj (Entries.erase s members))
    else (take? r w).map fun (out, w') => (out, .obj (Entries.put s w' members))
  | s :: r, .arr items => (index? s).bind fun i => items[i]?.bind fun w =>
    if r.isEmpty then some (w, .arr (items.eraseIdx i))
    else (take? r w).map fun (out, w') => (out, .arr (items.set i w'))
  | _ :: _, _ => none

def remove? (l : Location) (doc : Value) : Option (Value × Value) := take? l.segments doc

mutual
def locationsAt (l : Location) : Value → List Location
  | .arr items => l :: locationsOfItems l 0 items
  | .obj members => l :: locationsOfMembers l members
  | _ => [l]
termination_by structural v => v
def locationsOfItems (l : Location) (index : Nat) : List Value → List Location
  | [] => []
  | x :: r => locationsAt (l.child (toString index)) x ++ locationsOfItems l (index + 1) r
termination_by structural xs => xs
def locationsOfMembers (l : Location) : List (String × Value) → List Location
  | [] => []
  | (k, x) :: r => locationsAt (l.child k) x ++ locationsOfMembers l r
termination_by structural xs => xs
end

def locations (doc : Value) : List Location := locationsAt .root doc

theorem walk?_append (p q : List String) (v : Value) :
    walk? (p ++ q) v = (walk? p v).bind (walk? q) := by
  induction p generalizing v with
  | nil => rfl
  | cons s r ih => simp only [List.cons_append, walk?, Option.bind_assoc]; congr; funext w; exact ih w

end ApiGraph.Tree
