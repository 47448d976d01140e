import ApiGraph.Graph.Arena

/-! When two schemas are one. They are the same node, or agree in base type, format and everything
their values declare. Keys with a leading `$` other than `$ref` do not count, and the legacy types
`date`, `dateTime` and `password` count as texts of the format they imply. -/
namespace ApiGraph
open Json

namespace Agreement

def legacyType (name : String) : String × Option String :=
  match name with
  | "date" => ("string", some "date")
  | "dateTime" => ("string", some "date-time")
  | "password" => ("string", some "password")
  | _ => (name, none)

def impliedFormat (names : List String) : Option String :=
  names.foldl (fun acc name => (legacyType name).2.or acc) none

def modernType : Value → Value
  | .str name => .str (legacyType name).1
  | v => v

def normalType (members : Members) : Option (Value × Option Value) :=
  let withFormat (ty : Value) (names : List String) :=
    (ty, ((impliedFormat names).map Value.str).or (members.lookup "format"))
  match members.lookup "type" with
  | some (.str name) => some (withFormat (modernType (.str name)) [name])
  | some (.arr items) =>
    some (withFormat (.arr (items.map modernType)) (items.filterMap Value.str?))
  | _ => none

def sameFormat : Option Value → Option Value → Bool
  | none, none => true
  | some a, some b => a == b
  | _, _ => false

def isInternal (key : String) : Bool := key.toList.head? == some '$' && key != "$ref"

def compared (typed : Bool) (key : String) : Bool :=
  !isInternal key && !(typed && (key == "type" || key == "format"))

mutual
def agree : Value → Value → Bool
  | .obj xs, .obj ys =>
    match normalType xs, normalType ys with
    | some (s, f), some (t, g) =>
      s == t && sameFormat f g &&
        (xs.filter (compared true ·.1)).length == (ys.filter (compared true ·.1)).length &&
        agreeMembers true xs ys
    | _, _ =>
      (xs.filter (compared false ·.1)).length == (ys.filter (compared false ·.1)).length &&
        agreeMembers false xs ys
  | .arr xs, .arr ys => agreeItems xs ys
  | a, b => a == b
termination_by structural v => v
def agreeItems : List Value → List Value → Bool
  | [], [] => true
  | x :: xs, y :: ys => agree x y && agreeItems xs ys
  | _, _ => false
termination_by structural xs => xs
def agreeMembers (typed : Bool) : List (String × Value) → List (String × Value) → Bool
  | [], _ => true
  | (k, x) :: xs, ys =>
    (!compared typed k || (match ys.lookup k with
      | some y => agree x y
      | none => false)) && agreeMembers typed xs ys
termination_by structural xs => xs
end

end Agreement

open Agreement in
def Graph.schemasMatch (g : Graph) (doc : Value) (a b : SchemaId) : Bool :=
  if a = b then true
  else match g.schema? a, g.schema? b with
    | some s, some t =>
      s.baseType == t.baseType && s.format == t.format &&
        (match Tree.get? s.location doc, Tree.get? t.location doc with
          | some v, some w => agree v w
          | _, _ => false)
    | _, _ => false

end ApiGraph
