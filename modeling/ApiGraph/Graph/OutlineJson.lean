import ApiGraph.Graph.Outline
import ApiGraph.Json.Decode

/-! An outline as a JSON value, and back. Locations are lists of segments, an input is told apart by
its `nodeKind`, and a name that is missing has no member. -/
namespace ApiGraph
open Json

def NodeKind.names : List (String × NodeKind) :=
  [("api", .api), ("method", .method), ("parameter", .parameter), ("request", .request),
    ("return", .return), ("type", .type), ("record", .record), ("array", .array)]

def NodeKind.name : NodeKind → String
  | .api => "api"
  | .method => "method"
  | .parameter => "parameter"
  | .request => "request"
  | .return => "return"
  | .type => "type"
  | .record => "record"
  | .array => "array"

namespace Outline

def textsJson (xs : List String) : Value := .arr (xs.map .str)
def kindJson (k : NodeKind) : Value := .str k.name
def locationJson (l : Location) : Value := textsJson l.segments

def mediaJson : ResponseMedia → Value
  | .void => .str "void"
  | .any => .str "any"
  | .types mediaTypes => .obj [("types", textsJson mediaTypes)]

def codeJson (c : ResponseCode) : Value :=
  .obj [("code", .str c.code), ("mediaTypes", mediaJson c.media)]

def inputJson : InputOutline → Value
  | .parameter l => .obj [("nodeKind", .str "parameter"), ("location", locationJson l)]
  | .request l name preferred =>
    .obj [("nodeKind", .str "request"), ("location", locationJson l), ("name", .str name),
      ("preferredMediaTypes", textsJson preferred)]

def responseJson (r : ResponseOutline) : Value :=
  .obj [("nodeKind", kindJson r.kind), ("location", locationJson r.location),
    ("preferredResponses", .arr (r.preferred.map codeJson))]

def methodJson (m : MethodOutline) : Value :=
  .obj [("nodeKind", kindJson m.kind), ("location", locationJson m.location),
    ("pattern", .str m.pattern), ("parameters", .arr (m.inputs.map inputJson)),
    ("responses", responseJson m.response)]

def apiJson (a : ApiOutline) : Value :=
  .obj [("nodeKind", kindJson a.kind), ("location", locationJson a.location),
    ("name", .str a.name), ("methods", .arr (a.methods.map methodJson))]

def typeJson (t : TypeOutline) : Value :=
  .obj ([("nodeKind", kindJson t.kind), ("location", locationJson t.location)] ++
    (match t.name with
      | some name => [("name", .str name)]
      | none => []))

def toJson (o : Outline) : Value :=
  .obj [("apis", .arr (o.apis.map apiJson)), ("types", .arr (o.types.map typeJson))]

def readTexts : Decode (List String) := decodeList decodeText
def readLocation : Decode Location := fun v => (readTexts v).map Location.mk

def readKind : Decode NodeKind := decodeChoice fun name carried => do
  bare (← choose NodeKind.names name) carried

def readTypes : Option Value → Except DecodeError ResponseMedia
  | some v => (readTexts v).map .types
  | none => .error (.invalidType "unit variant" "newtype variant")

def mediaNames : List (String × (Option Value → Except DecodeError ResponseMedia)) :=
  [("void", bare .void), ("any", bare .any), ("types", readTypes)]

def readMedia : Decode ResponseMedia := decodeChoice fun name carried => do
  (← choose mediaNames name) carried

def readCode : Decode ResponseCode := fun v => do
  let ms ← recordMembers "ResponseCode"
    [("code", check decodeText), ("mediaTypes", check readMedia)] 0 v
  .ok ⟨← field ms "code" decodeText, ← field ms "mediaTypes" readMedia⟩

def inputTags : List (String × Bool) := [("parameter", false), ("request", true)]

def readTag : Decode Bool
  | .str name => choose inputTags name
  | v => wrongType v "variant identifier"

def inputFields (isRequest : Bool) : List FieldCheck :=
  [("location", check readLocation)] ++
    (if isRequest then [("name", check decodeText), ("preferredMediaTypes", check readTexts)]
      else [])

def inputOf (isRequest : Bool) (ms : Members) : Except DecodeError InputOutline := do
  let l ← field ms "location" readLocation
  if isRequest then
    .ok (.request l (← field ms "name" decodeText) (← field ms "preferredMediaTypes" readTexts))
  else .ok (.parameter l)

def variantName (isRequest : Bool) : String :=
  if isRequest then "struct variant SerializedInput::Request"
  else "struct variant SerializedInput::Parameter"

def readInput : Decode InputOutline
  | .obj members => do
    let isRequest ← field members "nodeKind" readTag
    checkMembers (inputFields isRequest) members
    inputOf isRequest members
  | .arr [] => .error (.missingField "nodeKind")
  | .arr (tag :: items) => do
    let isRequest ← readTag tag
    let fields := inputFields isRequest
    let ms := (fields.map Prod.fst).zip items
    checkMembers fields ms
    if items.length < fields.length then
      .error (.invalidLength items.length
        (variantName isRequest ++ " with " ++ toString fields.length ++
          (if fields.length = 1 then " element" else " elements")))
    else if fields.length < items.length then
      .error (.invalidLength items.length (toString fields.length ++
        (if fields.length = 1 then " element in sequence" else " elements in sequence")))
    else inputOf isRequest ms
  | v => wrongType v "internally tagged enum SerializedInput"

def readResponse : Decode ResponseOutline := fun v => do
  let ms ← recordMembers "SerializedResponse"
    [("nodeKind", check readKind), ("location", check readLocation),
      ("preferredResponses", check (decodeList readCode))] 0 v
  .ok ⟨← field ms "nodeKind" readKind, ← field ms "location" readLocation,
    ← field ms "preferredResponses" (decodeList readCode)⟩

def readMethod : Decode MethodOutline := fun v => do
  let ms ← recordMembers "SerializedMethod"
    [("nodeKind", check readKind), ("location", check readLocation),
      ("pattern", check decodeText), ("parameters", check (decodeList readInput)),
      ("responses", check readResponse)] 0 v
  .ok ⟨← field ms "nodeKind" readKind, ← field ms "location" readLocation,
    ← field ms "pattern" decodeText, ← field ms "parameters" (decodeList readInput),
    ← field ms "responses" readResponse⟩

def readApi : Decode ApiOutline := fun v => do
  let ms ← recordMembers "SerializedApi"
    [("nodeKind", check readKind), ("location", check readLocation), ("name", check decodeText),
      ("methods", check (decodeList readMethod))] 0 v
  .ok ⟨← field ms "nodeKind" readKind, ← field ms "location" readLocation,
    ← field ms "name" decodeText, ← field ms "methods" (decodeList readMethod)⟩

def readType : Decode TypeOutline := fun v => do
  let ms ← recordMembers "SerializedType"
    [("nodeKind", check readKind), ("location", check readLocation),
      ("name", check (decodeOption decodeText))] 1 v
  .ok ⟨← field ms "nodeKind" readKind, ← field ms "location" readLocation,
    ← optionalField ms "name" decodeText⟩

def ofJson : Decode Outline := fun v => do
  let ms ← recordMembers "SerializedAst"
    [("apis", check (decodeList readApi)), ("types", check (decodeList readType))] 0 v
  .ok ⟨← field ms "apis" (decodeList readApi), ← field ms "types" (decodeList readType)⟩

end Outline
end ApiGraph
