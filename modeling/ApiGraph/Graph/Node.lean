import ApiGraph.Failure
import ApiGraph.Json.Value
import ApiGraph.Preference
import ApiGraph.Security

/-! Nodes of the graph that a document describes: groups of methods, their inputs and responses, and
the schemas these carry. A node is known by the document location it was made from and refers to
others by their place in the list of their kind. -/
namespace ApiGraph
open Json

structure ApiId where
  index : Nat
  deriving DecidableEq, Repr

structure MethodId where
  index : Nat
  deriving DecidableEq, Repr

structure ParameterId where
  index : Nat
  deriving DecidableEq, Repr

structure BodyId where
  index : Nat
  deriving DecidableEq, Repr

structure ResponseId where
  index : Nat
  deriving DecidableEq, Repr

structure SchemaId where
  index : Nat
  deriving DecidableEq, Repr

inductive NodeRef where
  | api (id : ApiId)
  | method (id : MethodId)
  | parameter (id : ParameterId)
  | body (id : BodyId)
  | response (id : ResponseId)
  | schema (id : SchemaId)
  deriving DecidableEq, Repr

structure Api where
  location : Location
  name : String
  methods : List MethodId
  deriving DecidableEq, Repr

inductive MethodInput where
  | parameter (id : ParameterId)
  | body (id : BodyId)
  deriving DecidableEq, Repr

structure Method where
  location : Location
  pattern : String
  verb : String
  operationId : String
  identifier : String
  inputs : List MethodInput
  response : ResponseId
  security : Option MethodSecurity
  deriving DecidableEq, Repr

inductive ParamStyle where
  | matrix
  | label
  | form
  | simple
  | spaceDelimited
  | pipeDelimited
  | deepObject
  deriving DecidableEq, Repr

def ParamStyle.name : ParamStyle → String
  | .matrix => "matrix"
  | .label => "label"
  | .form => "form"
  | .simple => "simple"
  | .spaceDelimited => "spaceDelimited"
  | .pipeDelimited => "pipeDelimited"
  | .deepObject => "deepObject"

def ParamStyle.ofName? : String → Option ParamStyle
  | "matrix" => some .matrix
  | "label" => some .label
  | "form" => some .form
  | "simple" => some .simple
  | "spaceDelimited" => some .spaceDelimited
  | "pipeDelimited" => some .pipeDelimited
  | "deepObject" => some .deepObject
  | _ => none

structure Wire where
  place : ParamIn
  declaredStyle : Option ParamStyle
  declaredExplode : Option Bool
  deriving DecidableEq, Repr

def Wire.style (w : Wire) : ParamStyle :=
  w.declaredStyle.getD (match w.place with
    | .query => .form
    | .cookie => .form
    | .path => .simple
    | .header => .simple)

def Wire.explode (w : Wire) : Bool := w.declaredExplode.getD (w.style == .form)

def Wire.key (w : Wire) : Option String :=
  match w.style, w.explode with
  | .matrix, false => some "m"
  | .matrix, true => some "me"
  | .label, false => some "l"
  | .label, true => some "le"
  | .form, false => some "f"
  | .form, true => some "fe"
  | .simple, false => some "s"
  | .simple, true => some "se"
  | .spaceDelimited, false => some "sd"
  | .pipeDelimited, false => some "pd"
  | .deepObject, false => some "do"
  | _, _ => none

structure Parameter where
  location : Location
  name : String
  required : Bool
  default : Option Value
  wire : Wire
  contentType : Option String
  schema : Option SchemaId

structure RequestBody where
  location : Location
  name : String
  required : Bool
  preferred : List String
  schemas : List (String × List SchemaId)
  default : Option Value

inductive Role where
  | client
  | server
  deriving DecidableEq, Repr

/- The schemas a method accepts as its body. A client sends the most preferred media type; a server
has to accept all of them, and with different schemas no single parameter can. -/
def RequestBody.types (b : RequestBody) (role : Role) : Except OperationError (List SchemaId) :=
  match b.schemas with
  | [] => .error (.noAcceptableBody b.location)
  | (_, first) :: more =>
    if role = .server && !more.isEmpty then .error (.ambiguousBody b.location) else .ok first

inductive ResponseMedia where
  | void
  | any
  | types (mediaTypes : List String)
  deriving DecidableEq, Repr

structure ResponseCode where
  code : String
  media : ResponseMedia
  deriving DecidableEq, Repr

structure Response where
  location : Location
  preferred : List ResponseCode
  schemas : List SchemaId
  hasAny : Bool
  hasVoid : Bool
  deriving DecidableEq, Repr

def ResponseCode.mediaTypes (c : ResponseCode) : List String :=
  match c.media with
  | .types mediaTypes => mediaTypes
  | _ => []

/- The media types to ask for, in order of preference; the wildcard ends the list when it is wanted
and some code accepts anything. -/
def acceptList (preferred : List ResponseCode) (hasAny includeAny : Bool) : List String :=
  let typed := Entries.distinct (preferred.flatMap ResponseCode.mediaTypes)
  let any := hasAny || preferred.any (fun c => c.media == .any)
  if any && includeAny then typed ++ ["*/*"] else typed

def Response.accept (r : Response) (includeAny : Bool) : List String :=
  acceptList r.preferred r.hasAny includeAny

inductive Additional where
  | allowed (b : Bool)
  | schema (id : SchemaId)
  deriving DecidableEq, Repr

structure RecordShape where
  properties : List (String × SchemaId)
  required : List String
  additional : Additional
  deriving DecidableEq, Repr

inductive Shape where
  | leaf
  | record (r : RecordShape)
  | array (items : Option SchemaId)
  deriving DecidableEq, Repr

structure Schema where
  location : Location
  shape : Shape
  baseType : Option String
  format : Option String
  nullable : Bool
  title : Option String
  impliedName : Option String
  allOf : List SchemaId
  oneOf : List SchemaId
  anyOf : List SchemaId
  not : Option SchemaId
  deriving DecidableEq, Repr

def Schema.name (s : Schema) : Option String := s.title.or s.impliedName

structure Skipped where
  operationId : String
  location : Location
  reason : String
  deriving DecidableEq, Repr

end ApiGraph
