import ApiGraph.Graph.Agreement

/-! What a schema value says of itself: base type, format, nullability and shape. -/
namespace ApiGraph.Classify
open Json Agreement

structure Classified where
  baseType : Option String
  format : Option String
  nullable : Bool
  shape : Shape
  deriving DecidableEq, Repr

def isNullType (v : Value) : Bool := v.isNull || v.str? == some "null"

def declaredTypes (schema : Value) (l : Location) : Except SchemaError (List String × Bool) :=
  match schema.get? "type" with
  | none => .ok ([], false)
  | some (.str name) => .ok ([name], false)
  | some (.arr items) =>
    if items.length > 2 then
      .error (.unsupportedShape l ("`type` lists " ++ toString items.length ++ " types"))
    else
      .ok ((items.filter fun v => !isNullType v).filterMap Value.str?, items.any isNullType)
  | some _ => .error (.unsupportedShape l "`type` must be a string or a list of strings")

def shapeOf (types : List String) (schema : Value) : Shape :=
  if types.contains "object" then
    .record ⟨[], schema.textsAt "required",
      .allowed ((schema.boolAt? "additionalProperties").getD false)⟩
  else if types.contains "array" then .array none
  else .leaf

def classify (schema : Value) (l : Location) : Except SchemaError Classified := do
  let (names, null) ← declaredTypes schema l
  let types := names.map fun name => (legacyType name).1
  .ok {
    baseType := match types with
      | [single] => some single
      | _ => none
    format := (impliedFormat names).or (schema.textAt? "format")
    nullable := null || (schema.boolAt? "nullable").getD false
    shape := shapeOf types schema }

end ApiGraph.Classify
