import ApiGraph.Json.Printer
import ApiGraph.Stable

/-! The structure of a schema in one text: `O` with the sorted property names, a required one marked
`!`, and `+` when other properties have a schema; or `E` with the sorted literals of a text enum. -/
namespace ApiGraph.Fingerprint
open Json

def sortTexts (xs : List String) : List String := Stable.sort (fun a b => decide (¬ b < a)) xs

def literal : Value → String
  | .str s => s
  | v => v.compact

def ofObject (properties : Members) (required : List String) (additional : Bool) : String :=
  "O" ++ String.join ((sortTexts (Entries.keys properties)).map fun name =>
    if required.contains name then name ++ "!" else name) ++ (if additional then "+" else "")

def ofEnum (values : List Value) : String := "E" ++ String.join (sortTexts (values.map literal))

def fingerprint (schema : Value) : Option String :=
  let kind := schema.textAt? "type"
  let properties := schema.membersAt? "properties"
  let additional := (schema.get? "additionalProperties").any Value.isObject
  if kind == some "object" || properties.isSome then
    let named := properties.getD []
    if named.isEmpty && !additional then none
    else some (ofObject named (schema.textsAt "required") additional)
  else if kind == some "string" then (schema.itemsAt? "enum").map ofEnum
  else none

end ApiGraph.Fingerprint
