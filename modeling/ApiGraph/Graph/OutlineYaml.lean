import ApiGraph.Graph.OutlineJson
import ApiGraph.Yaml.Writer

/-! An outline as YAML text, with the members that its JSON form has. Media types that a response is
read from are a list with a tag. -/
namespace ApiGraph.Outline
open Yaml (Form)

def textsForm (tag : Option String) (xs : List String) : Form := .list tag (xs.map .text)
def locationForm (l : Location) : Form := textsForm none l.segments
def kindForm (k : NodeKind) : Form := .text k.name

def mediaForm : ResponseMedia → Form
  | .void => .text "void"
  | .any => .text "any"
  | .types mediaTypes => textsForm (some "!types") mediaTypes

def codeForm (c : ResponseCode) : Form :=
  .map [("code", .text c.code), ("mediaTypes", mediaForm c.media)]

def inputForm : InputOutline → Form
  | .parameter l => .map [("nodeKind", .text "parameter"), ("location", locationForm l)]
  | .request l name preferred =>
    .map [("nodeKind", .text "request"), ("location", locationForm l), ("name", .text name),
      ("preferredMediaTypes", textsForm none preferred)]

def responseForm (r : ResponseOutline) : Form :=
  .map [("nodeKind", kindForm r.kind), ("location", locationForm r.location),
    ("preferredResponses", .list none (r.preferred.map codeForm))]

def methodForm (m : MethodOutline) : Form :=
  .map [("nodeKind", kindForm m.kind), ("location", locationForm m.location),
    ("pattern", .text m.pattern), ("parameters", .list none (m.inputs.map inputForm)),
    ("responses", responseForm m.response)]

def apiForm (a : ApiOutline) : Form :=
  .map [("nodeKind", kindForm a.kind), ("location", locationForm a.location),
    ("name", .text a.name), ("methods", .list none (a.methods.map methodForm))]

def typeForm (t : TypeOutline) : Form :=
  .map ([("nodeKind", kindForm t.kind), ("location", locationForm t.location)] ++
    (match t.name with
      | some name => [("name", .text name)]
      | none => []))

def toYaml (o : Outline) : String :=
  Yaml.document [("apis", .list none (o.apis.map apiForm)), ("types", .list none (o.types.map typeForm))]

end ApiGraph.Outline
