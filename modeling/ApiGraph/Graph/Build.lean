import ApiGraph.Canonical.Declaration
import ApiGraph.Graph.Inputs

/-! The graph of a document. Operations are visited in document order, each under its group. One
whose body cannot be expressed is skipped and reported, one whose identifier its group already has
is dropped, and every other error ends the walk. -/
namespace ApiGraph.Build
open Json

def apiAt (cx : Setting) (l : Location) : Walk ApiId := do
  match (← get).nodeAt l with
  | some (.api id) => return id
  | _ =>
    let (tag, place) ← cx.resolveAt l
    let (id, g) := (← get).addApi ⟨place, (tag.textAt? "name").getD "", []⟩
    set g
    return id

def findTag (cx : Setting) (name : String) : List (Value × Nat) → Walk (Option Location)
  | [] => pure none
  | (tag, i) :: more => do
    let r ← cx.resolve tag
    if r.value.textAt? "name" = some name then
      return some (r.locationOr ⟨["tags", toString i]⟩)
    else findTag cx name more

def apiNamed (cx : Setting) (name : String) : Walk ApiId := do
  match (← get).apiIdNamed name with
  | some id => return id
  | none => match ← findTag cx name ((cx.doc.itemsAt? "tags").getD []).zipIdx with
    | some l => apiAt cx l
    | none => throw (.resolve (.unresolvable ("#/tags (no tag named `" ++ name ++ "`)")))

inductive InputPlan where
  | parameter (p : ParamPlan)
  | body (b : BodyPlan)

def InputPlan.order : InputPlan → Preference.InputOrder
  | .parameter p => ⟨p.required, p.hasDefault, some p.place⟩
  | .body b => ⟨b.required, b.hasDefault, none⟩

def inputPlans (cx : Setting) (operation : Value) (l : Location) : Walk (List InputPlan) := do
  let params ← paramPlans cx ((l.parent?).getD .root) l
  let taken := params.filterMap fun p => p.value.textAt? "name"
  let body ← bodyPlan cx operation l taken
  return params.map .parameter ++ body.toList.map .body

def bodyError (role : Role) (g : Graph) (id : BodyId) : Option OperationError :=
  (g.body? id).bind fun b => match b.types role with
    | .error e => some e
    | .ok _ => none

def inputNodes (cx : Setting) :
    List InputPlan → Walk (Except OperationError (List MethodInput))
  | [] => pure (.ok [])
  | .parameter p :: more => do
    let id ← parameterNode cx p.location p.value
    return (← inputNodes cx more).map (MethodInput.parameter id :: ·)
  | .body b :: more => do
    let id ← bodyNode cx b.location b.value b.name b.preferred
    match bodyError cx.config.role (← get) id with
    | some e => return .error e
    | none => return (← inputNodes cx more).map (MethodInput.body id :: ·)

structure MethodPlan where
  location : Location
  pattern : String
  verb : String
  operationId : String
  identifier : String

def MethodPlan.method (p : MethodPlan) (inputs : List MethodInput) (response : ResponseId)
    (security : Option MethodSecurity) : Method :=
  ⟨p.location, p.pattern, p.verb, p.operationId, p.identifier, inputs, response, security⟩

def security (cx : Setting) (l : Location) : Walk (Option MethodSecurity) :=
  liftM ((Security.extract cx.doc l).mapError Failure.resolve)

def methodNode (cx : Setting) (p : MethodPlan) (operation : Value) :
    Walk (Except OperationError MethodId) := do
  let plans ← inputPlans cx operation p.location
  let preferred ← preferredResponses cx p.verb operation
  match ← inputNodes cx (Preference.sortInputs InputPlan.order plans) with
  | .error e => return .error e
  | .ok inputs =>
    let response ← responseNode cx (p.location.child "responses") preferred
    let secured ← security cx p.location
    let (id, g) := (← get).addMethod (p.method inputs response secured)
    set g
    return .ok id

def hasIdentifier (g : Graph) (api : ApiId) (identifier : String) : Bool :=
  (g.api? api).any fun a => a.methods.any fun m =>
    (g.method? m).any fun method => method.identifier == identifier

def visitOperation (cx : Setting) (f : Declaration.Found) : Walk Unit := do
  if cx.config.isOmitted f.id then return
  let api ← apiNamed cx (Operation.apiName f.operation f.pattern)
  let identifier := Words.setCase f.id cx.config.operationCase
  if hasIdentifier (← get) api identifier then return
  let l := f.item.child f.verb
  let plan : MethodPlan := ⟨l, f.pattern, Text.asciiLowercase f.verb, f.id, identifier⟩
  match ← methodNode cx plan f.operation with
  | .ok m => modify fun g => g.enlist api m
  | .error e => modify fun g => g.addSkipped ⟨f.id, l, e.message⟩

def registerAll (cx : Setting) : Walk Unit :=
  let root : Location := ⟨["components", "schemas"]⟩
  match Tree.get? root cx.doc with
  | some (.obj schemas) => schemas.forM fun (name, _) => do
    let _ ← registerType cx (root.child name)
  | _ => pure ()

def walk (cx : Setting) : Walk Unit := do
  let found ← liftM ((Declaration.operations cx.doc).mapError Failure.resolve)
  found.forM (visitOperation cx)
  if cx.config.allModels then registerAll cx

def graphOf (c : Config) (doc : Value) : Except Failure Graph := do
  let cx ← Setting.make doc c
  let ((), g) ← (walk cx).run .empty
  .ok g

def build (c : Config) (doc : Value) : Value × Except Failure Graph :=
  match Declaration.declare c doc with
  | .error e => (doc, .error (.resolve e))
  | .ok (doc', _) => (doc', graphOf c doc')

end ApiGraph.Build
