import ApiGraph.Graph.Schemas

/-! Nodes for parameters, request bodies and responses, and what is decided about them before. -/
namespace ApiGraph.Build
open Json Resolve

def flagAt (v : Value) (key : String) : Bool := (v.boolAt? key).getD false

def paramIdentity (v : Value) : Option (String × ParamIn) := do
  let name ← v.textAt? "name"
  let place ← (v.textAt? "in").bind ParamIn.ofName?
  some (name, place)

def defaultSchema (param : Value) : Option Value :=
  match param.membersAt? "content" with
  | some content => content.head?.bind fun e => e.2.get? "schema"
  | none => param.get? "schema"

def parameterDefault (cx : Setting) (param : Value) : Walk (Option Value) :=
  match defaultSchema param with
  | none => pure none
  | some schema => do return (← cx.resolve schema).value.get? "default"

structure ParamPlan where
  location : Location
  value : Value
  required : Bool
  hasDefault : Bool
  place : ParamIn

def paramPlan (cx : Setting) (raw : Value) (l : Location) :
    Walk (Option ((ParamIn × String) × ParamPlan)) := do
  let r ← cx.resolve raw
  match paramIdentity r.value with
  | none => return none
  | some (name, place) =>
    let default ← parameterDefault cx r.value
    return some ((place, name),
      ⟨r.locationOr l, r.value, flagAt r.value "required", default.isSome, place⟩)

def paramPlansOf (cx : Setting) (owner : Location) :
    Walk (List ((ParamIn × String) × ParamPlan)) := do
  let l := owner.child "parameters"
  match Tree.get? l cx.doc with
  | some (.arr items) =>
    let plans ← items.zipIdx.mapM fun (raw, i) => paramPlan cx raw (l.child (toString i))
    return plans.filterMap id
  | _ => return []

def paramPlans (cx : Setting) (item operation : Location) : Walk (List ParamPlan) := do
  let shared ← paramPlansOf cx item
  let own ← paramPlansOf cx operation
  return (Entries.ofList (shared ++ own)).map Prod.snd

def parameterNode (cx : Setting) (l : Location) (v : Value) : Walk ParameterId := do
  match (← get).nodeAt l with
  | some (.parameter id) => return id
  | _ => match paramIdentity v with
    | none => throw (.resolve (.unresolvable l.toPointer))
    | some (name, place) =>
      let default ← parameterDefault cx v
      let (id, g) := (← get).addParameter {
        location := l
        name := name
        required := flagAt v "required"
        default := default
        wire := ⟨place, (v.textAt? "style").bind ParamStyle.ofName?, v.boolAt? "explode"⟩
        contentType := (v.membersAt? "content").bind fun content => content.head?.map Prod.fst
        schema := none }
      set g
      let schema ← headerAt cx v l
      modify fun g => g.setParameter id fun p => { p with schema := schema }
      return id

def bodyNames : List String :=
  ["body", "reqBody", "_body", "_reqBody", "requestBody", "_requestBody",
    "_MaybeYouShouldReThinkYourParameterNames"]

def bodyName (v : Value) (taken : List String) : String :=
  match v.textAt? "x-body-name" with
  | some name => name
  | none => (bodyNames.find? fun name => !taken.contains name).getD "body"

structure BodyPlan where
  location : Location
  value : Value
  name : String
  required : Bool
  preferred : List String
  hasDefault : Bool

def preferredSchemas (cx : Setting) (l : Location) (content : Members) (preferred : List String) :
    Walk (List (Location × Value)) := do
  let found ← preferred.mapM fun mediaType =>
    match (content.lookup mediaType).bind (·.get? "schema") with
    | none => pure none
    | some schema => do
      let r ← cx.resolve schema
      return some (r.locationOr (l.join ["content", mediaType, "schema"]), r.value)
  return (found.filterMap id).foldl (fun acc e => Entries.putNew e.1 e.2 acc) []

def bodyDefault (cx : Setting) (l : Location) (content : Members) (preferred : List String) :
    Walk (Option Value) := do
  match ← preferredSchemas cx l content preferred with
  | [(_, schema)] => return schema.get? "default"
  | _ => return none

def bodyPlan (cx : Setting) (operation : Value) (l : Location) (taken : List String) :
    Walk (Option BodyPlan) := do
  match operation.get? "requestBody" with
  | none => return none
  | some raw =>
    let r ← cx.resolve raw
    match r.value.membersAt? "content" with
    | none => return none
    | some content =>
      let place := r.locationOr (l.child "requestBody")
      let preferred := Preference.mediaTypes cx.requestPatterns (Entries.keys content)
      let default ← bodyDefault cx place content preferred
      return some ⟨place, r.value, bodyName r.value taken, flagAt r.value "required", preferred,
        default.isSome⟩

def isNew (cx : Setting) (g : Graph) (seen : List SchemaId) (id : SchemaId) : Bool :=
  !seen.any fun s => g.schemasMatch cx.doc s id

def fileSchemas (cx : Setting) (g : Graph) (byMedia : List (String × SchemaId))
    (preferred : List String) : List (String × List SchemaId) :=
  (preferred.foldl (fun (acc : List SchemaId × List (String × List SchemaId)) mediaType =>
    match byMedia.lookup mediaType with
    | none => acc
    | some id =>
      if isNew cx g acc.1 id then
        (acc.1 ++ [id],
          Entries.put mediaType ((acc.2.lookup mediaType).getD [] ++ [id]) acc.2)
      else acc) ([], [])).2

def bodyNode (cx : Setting) (l : Location) (v : Value) (name : String) (preferred : List String) :
    Walk BodyId := do
  match (← get).nodeAt l with
  | some (.body id) => return id
  | _ =>
    let content := (v.membersAt? "content").getD []
    let default ← bodyDefault cx l content preferred
    let (id, g) := (← get).addBody ⟨l, name, flagAt v "required", preferred, [], default⟩
    set g
    let byMedia ← content.mapM fun (mediaType, media) => do
      return (mediaType, ← mediaAt cx media (l.join ["content", mediaType]))
    let found := byMedia.filterMap fun (mediaType, id?) => id?.map fun id => (mediaType, id)
    modify fun g => g.setBody id fun b => { b with schemas := fileSchemas cx g found preferred }
    return id

def mediaOf (cx : Setting) (response : Value) : ResponseMedia :=
  match response.membersAt? "content" with
  | none => .void
  | some content =>
    let acceptable := Preference.mediaTypes cx.acceptPatterns (Entries.keys content)
    let typed := acceptable.filter fun m => ((content.lookup m).bind (·.get? "schema")).isSome
    if !typed.isEmpty then .types typed
    else if !acceptable.isEmpty || Entries.has "*/*" content then .any
    else .void

def preferredResponses (cx : Setting) (verb : String) (operation : Value) :
    Walk (List ResponseCode) := do
  match operation.membersAt? "responses" with
  | none => return []
  | some responses =>
    let codes := Preference.responseCodes verb (Entries.keys responses)
    let ranked ← codes.mapM fun code => match responses.lookup code with
      | none => pure none
      | some raw => do return some ⟨code, mediaOf cx (← cx.resolve raw).value⟩
    return ranked.filterMap id

structure Carried where
  schemas : List SchemaId
  hasAny : Bool

def visitResponseMedia (cx : Setting) (code : ResponseCode) (l : Location) (acc : Carried)
    (mediaType : String) (media : Value) : Walk Carried := do
  let schema ← mediaAt cx media (l.join ["content", mediaType])
  match schema with
  | some id =>
    if code.mediaTypes.contains mediaType && isNew cx (← get) acc.schemas id then
      return { acc with schemas := acc.schemas ++ [id] }
    else return acc
  | none => return acc

def visitResponseContent (cx : Setting) (code : ResponseCode) (l : Location) (response : Value)
    (acc : Carried) : Walk Carried :=
  match response.membersAt? "content" with
  | none => pure acc
  | some content =>
    content.foldlM (fun acc (mediaType, media) => visitResponseMedia cx code l acc mediaType media)
      { acc with hasAny := acc.hasAny || Entries.has "*/*" content }

def visitHeaders (cx : Setting) (l : Location) (response : Value) : Walk Unit :=
  ((response.membersAt? "headers").getD []).forM fun (name, raw) => do
    let r ← cx.resolve raw
    let _ ← headerAt cx r.value (r.locationOr (l.join ["headers", name]))

def visitCode (cx : Setting) (l : Location) (acc : Carried) (code : ResponseCode) :
    Walk Carried := do
  let place := l.child code.code
  match Tree.get? place cx.doc with
  | none => return acc
  | some raw =>
    let r ← cx.resolve raw
    let here := r.locationOr place
    let acc ← visitResponseContent cx code here r.value acc
    visitHeaders cx here r.value
    return acc

def responseNode (cx : Setting) (l : Location) (preferred : List ResponseCode) :
    Walk ResponseId := do
  match (← get).nodeAt l with
  | some (.response id) => return id
  | _ =>
    let hasVoid := preferred.isEmpty || preferred.any (·.media == .void)
    let hasAny := preferred.any (·.media == .any)
    let (id, g) := (← get).addResponse ⟨l, preferred, [], hasAny, hasVoid⟩
    set g
    let carried ← preferred.foldlM (visitCode cx l) ⟨[], hasAny⟩
    modify fun g => g.setResponse id fun r =>
      { r with schemas := carried.schemas, hasAny := carried.hasAny }
    return id

end ApiGraph.Build
