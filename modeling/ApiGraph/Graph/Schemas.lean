import ApiGraph.Config
import ApiGraph.Graph.Classify
import ApiGraph.Resolve

/-! Nodes for schemas. A schema reached by reference is known by the location the reference ends at,
named by the last segment of it and registered as a type; one written in place is known by that
place. The node exists before its children are visited, so a schema may contain itself. -/
namespace ApiGraph.Build
open Json Resolve Classify

abbrev Walk := StateT Graph (Except Failure)

structure Setting where
  doc : Value
  config : Config
  requestPatterns : List MediaPattern
  acceptPatterns : List MediaPattern

def Setting.make (doc : Value) (c : Config) : Except Failure Setting := do
  let request ← c.requestPatterns.mapError Failure.config
  let accept ← c.acceptPatterns.mapError Failure.config
  .ok ⟨doc, c, request, accept⟩

/- A chain of schemas makes a new node at each step and at most one jump to each pointer. -/
def Setting.bound (cx : Setting) : Nat := (cx.doc.pointers.length + 2) * (cx.doc.depth + 2)

def Setting.resolve (cx : Setting) (v : Value) : Walk Resolved :=
  liftM ((Resolve.resolve cx.doc v).mapError Failure.resolve)

def Setting.resolveAt (cx : Setting) (l : Location) : Walk (Value × Location) :=
  liftM ((Resolve.resolveAt cx.doc l).mapError Failure.resolve)

def visitItems (visit : Value → Location → Walk SchemaId) (schema : Value) (l : Location)
    (key : String) : Walk (List SchemaId) :=
  ((schema.itemsAt? key).getD []).zipIdx.mapM fun (x, i) =>
    visit x ((l.child key).child (toString i))

def visitOption (visit : Value → Location → Walk SchemaId) (l : Location) (key : String) :
    Option Value → Walk (Option SchemaId)
  | none => pure none
  | some v => do return some (← visit v (l.child key))

def visitMembers (visit : Value → Location → Walk SchemaId) (l : Location) (key : String)
    (members : Members) : Walk (List (String × SchemaId)) :=
  members.mapM fun (name, x) => do return (name, ← visit x ((l.child key).child name))

def visitProperties (visit : Value → Location → Walk SchemaId) (shape : Shape) (schema : Value)
    (l : Location) : Walk (List (String × SchemaId)) :=
  match schema.membersAt? "properties", shape with
  | none, _ => pure []
  | some members, .record _ => visitMembers visit l "properties" members
  | some _, _ => throw (.schema (.shapeMismatch l))

def additionalSchema (shape : Shape) (schema : Value) : Option Value :=
  match shape, schema.get? "additionalProperties" with
  | .record _, some (.obj members) => some (.obj members)
  | _, _ => none

def itemsSchema (shape : Shape) (schema : Value) : Option Value :=
  match shape with
  | .array _ => schema.get? "items"
  | _ => none

def filledShape (properties : List (String × SchemaId)) (additional items : Option SchemaId) :
    Shape → Shape
  | .leaf => .leaf
  | .array _ => .array items
  | .record r => .record { r with
      properties := properties, additional := (additional.map .schema).getD r.additional }

def fillSchema (visit : Value → Location → Walk SchemaId) (id : SchemaId) (shape : Shape)
    (schema : Value) (l : Location) : Walk Unit := do
  let allOf ← visitItems visit schema l "allOf"
  let oneOf ← visitItems visit schema l "oneOf"
  let anyOf ← visitItems visit schema l "anyOf"
  let not ← visitOption visit l "not" (schema.get? "not")
  let properties ← visitProperties visit shape schema l
  let additional ← visitOption visit l "additionalProperties" (additionalSchema shape schema)
  let items ← visitOption visit l "items" (itemsSchema shape schema)
  modify fun g => g.setSchema id fun s => { s with
    allOf := allOf, oneOf := oneOf, anyOf := anyOf, not := not
    shape := filledShape properties additional items s.shape }

def newSchema (c : Classified) (schema : Value) (l : Location) (impliedName : Option String) :
    Schema where
  location := l
  shape := c.shape
  baseType := c.baseType
  format := c.format
  nullable := c.nullable
  title := schema.textAt? "title"
  impliedName := impliedName
  allOf := []
  oneOf := []
  anyOf := []
  not := none

def schemaNode (cx : Setting) : Nat → Value → Location → Walk SchemaId
  | 0, _, _ => throw .unfinished
  | steps + 1, v, place => do
    let r ← cx.resolve v
    let l := r.locationOr place
    match (← get).schemaAt l with
    | some id => return id
    | none =>
      let impliedName := r.location?.bind Location.last?
      let c ← liftM ((classify r.value l).mapError Failure.schema)
      let (id, g) := (← get).addSchema (newSchema c r.value l impliedName)
      set (if impliedName.isSome then g.addType id else g)
      fillSchema (schemaNode cx steps) id c.shape r.value l
      return id

def schemaAt (cx : Setting) (v : Value) (l : Location) : Walk SchemaId :=
  schemaNode cx cx.bound v l

def registerType (cx : Setting) (l : Location) : Walk SchemaId :=
  schemaAt cx (reference l.toPointer) l

def visitEncodings (cx : Setting) (header : Value → Location → Walk (Option SchemaId))
    (media : Value) (l : Location) : Walk Unit :=
  ((media.membersAt? "encoding").getD []).forM fun (property, encoding) =>
    ((encoding.membersAt? "headers").getD []).forM fun (name, raw) => do
      let r ← cx.resolve raw
      let _ ← header r.value (r.locationOr (l.join ["encoding", property, "headers", name]))

def mediaSchema (cx : Setting) (header : Value → Location → Walk (Option SchemaId))
    (media : Value) (l : Location) : Walk (Option SchemaId) := do
  let schema ← visitOption (schemaAt cx) l "schema" (media.get? "schema")
  visitEncodings cx header media l
  return schema

/- What a parameter or a header carries: the first schema of its content, or its schema. Headers
may hold media types and these headers; a header that leads back to itself has no end. -/
def headerSchema (cx : Setting) : Nat → Value → Location → Walk (Option SchemaId)
  | 0, _, _ => throw .unfinished
  | steps + 1, v, l => match v.membersAt? "content" with
    | some content => do
      let found ← content.mapM fun (name, media) =>
        mediaSchema cx (headerSchema cx steps) media (l.join ["content", name])
      return found.findSome? id
    | none => visitOption (schemaAt cx) l "schema" (v.get? "schema")

def headerAt (cx : Setting) (v : Value) (l : Location) : Walk (Option SchemaId) :=
  headerSchema cx cx.bound v l

def mediaAt (cx : Setting) (media : Value) (l : Location) : Walk (Option SchemaId) :=
  mediaSchema cx (headerAt cx) media l

end ApiGraph.Build
