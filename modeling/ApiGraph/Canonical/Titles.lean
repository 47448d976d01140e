import ApiGraph.Tree

/-! Titles of top-level schemas: one that has none is titled by the key it is stored under. Aliases
stay references. -/
namespace ApiGraph.Titles
open Json

def schemasRoot : Location := ⟨["components", "schemas"]⟩

def lacksTitle (schema : Value) : Bool :=
  (refOf schema).isNone && schema.isObject && (schema.get? "title").isNone

def titled (key : String) (schema : Value) : Value :=
  match schema with
  | .obj members => if lacksTitle schema then .obj (members ++ [("title", .str key)]) else schema
  | _ => schema

def defaultTitles (doc : Value) : Value × Nat :=
  match Tree.get? schemasRoot doc with
  | some (.obj schemas) =>
    (Tree.set schemasRoot (.obj (schemas.map fun e => (e.1, titled e.1 e.2))) doc,
      schemas.countP fun e => lacksTitle e.2)
  | _ => (doc, 0)

end ApiGraph.Titles
