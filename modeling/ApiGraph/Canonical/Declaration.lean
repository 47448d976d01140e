import ApiGraph.Config
import ApiGraph.Operation

/-! Names that are stated in the document. Every operation gets an id, every group of an operation
that is not omitted gets an entry in `tags`, so that both have a location of their own. -/
namespace ApiGraph.Declaration
open Json Operation

structure Found where
  pattern : String
  verb : String
  item : Location
  operation : Value

def operations (doc : Value) : Except ResolveError (List Found) := do
  let items ← pathItems doc
  .ok (items.flatMap fun (pattern, l) => match Tree.get? l doc with
    | some item => (operationKeys item).filterMap fun verb =>
      (item.get? verb).map fun operation => ⟨pattern, verb, l, operation⟩
    | none => [])

def Found.id (f : Found) : String := operationId f.operation f.verb f.pattern

def Found.missingId (f : Found) : Option (Location × String) :=
  match f.operation.textAt? "operationId" with
  | some _ => none
  | none => some (f.item.join [f.verb, "operationId"], f.id)

def missingIds (found : List Found) : List (Location × String) :=
  (found.filterMap Found.missingId).foldl (fun acc e => Entries.putNew e.1 e.2 acc) []

def groups (c : Config) (found : List Found) : List String :=
  Entries.distinct ((found.filter fun f => !c.isOmitted f.id).map fun f =>
    apiName f.operation f.pattern)

def declaredTags (doc : Value) : Except ResolveError (List String) := do
  let tags ← ((doc.itemsAt? "tags").getD []).mapM (Resolve.resolve doc)
  .ok (tags.filterMap fun r => r.value.textAt? "name")

def writeIds (ids : List (Location × String)) (doc : Value) : Value × Nat :=
  ids.foldl (fun acc e => match Tree.set? e.1 (.str e.2) acc.1 with
    | some doc' => (doc', acc.2 + 1)
    | none => acc) (doc, 0)

def tagsRoot : Location := ⟨["tags"]⟩

def writeTags (names : List String) (doc : Value) : Value :=
  if names.isEmpty then doc
  else
    let held := match Tree.get? tagsRoot doc with
      | some (.arr items) => items
      | _ => []
    Tree.set tagsRoot (.arr (held ++ names.map fun name => .obj [("name", .str name)])) doc

def declare (c : Config) (doc : Value) : Except ResolveError (Value × Nat) := do
  let found ← operations doc
  let declared ← declaredTags doc
  let missing := (groups c found).filter fun name => !declared.contains name
  let (doc', written) := writeIds (missingIds found) doc
  .ok (writeTags missing doc', written + missing.length)

end ApiGraph.Declaration
