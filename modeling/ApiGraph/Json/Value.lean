import ApiGraph.Entries
import ApiGraph.Number.Double

/-! Document values. Objects keep their members in order, and no order counts when two objects are
compared. Whole numbers and doubles are never equal to one another. -/
namespace ApiGraph.Json
open Number (Double)

inductive Numeral where
  | whole (n : Int)
  | double (d : Double)
  deriving DecidableEq, Repr

inductive Value where
  | null
  | bool (b : Bool)
  | num (n : Numeral)
  | str (s : String)
  | arr (items : List Value)
  | obj (members : List (String × Value))
  deriving Repr, Inhabited

abbrev Members := List (String × Value)

def Numeral.same : Numeral → Numeral → Bool
  | .whole a, .whole b => a == b
  | .double a, .double b => a.same b
  | _, _ => false

namespace Value

def kindName : Value → String
  | .null => "null"
  | .bool _ => "boolean"
  | .num _ => "number"
  | .str _ => "string"
  | .arr _ => "array"
  | .obj _ => "object"

def str? : Value → Option String
  | .str s => some s
  | _ => none

def bool? : Value → Option Bool
  | .bool b => some b
  | _ => none

def items? : Value → Option (List Value)
  | .arr items => some items
  | _ => none

def members? : Value → Option Members
  | .obj members => some members
  | _ => none

def isObject : Value → Bool
  | .obj _ => true
  | _ => false

def isNull : Value → Bool
  | .null => true
  | _ => false

def get? (key : String) : Value → Option Value
  | .obj members => members.lookup key
  | _ => none

def textAt? (v : Value) (key : String) : Option String := (v.get? key).bind str?
def boolAt? (v : Value) (key : String) : Option Bool := (v.get? key).bind bool?
def itemsAt? (v : Value) (key : String) : Option (List Value) := (v.get? key).bind items?
def membersAt? (v : Value) (key : String) : Option Members := (v.get? key).bind members?

def textsAt (v : Value) (key : String) : List String :=
  ((v.itemsAt? key).getD []).filterMap str?

/- Equality of values. Members are matched by key, so that their order does not count. -/
mutual
def same : Value → Value → Bool
  | .null, .null => true
  | .bool a, .bool b => a == b
  | .num a, .num b => a.same b
  | .str a, .str b => a == b
  | .arr xs, .arr ys => sameItems xs ys
  | .obj xs, .obj ys => xs.length == ys.length && sameMembers xs ys
  | _, _ => false
termination_by structural v => v
def sameItems : List Value → List Value → Bool
  | [], [] => true
  | x :: xs, y :: ys => same x y && sameItems xs ys
  | _, _ => false
termination_by structural xs => xs
def sameMembers : List (String × Value) → List (String × Value) → Bool
  | [], _ => true
  | (k, x) :: xs, ys =>
    (match ys.lookup k with
      | some y => same x y
      | none => false) && sameMembers xs ys
termination_by structural xs => xs
end

instance : BEq Value := ⟨same⟩

theorem sizeOf_get? {v w : Value} {key : String} (h : v.get? key = some w) : sizeOf w < sizeOf v := by
  cases v with
  | obj members =>
    have := List.sizeOf_lt_of_mem (Entries.mem_of_lookup h)
    simp only [Prod.mk.sizeOf_spec, obj.sizeOf_spec] at *
    omega
  | _ => simp [get?] at h

end Value

def refOf (v : Value) : Option String := v.textAt? "$ref"

def reference (pointer : String) : Value := .obj [("$ref", .str pointer)]

end ApiGraph.Json
