import ApiGraph.Graph.Arena

/-! The outline of a graph: what was decided when it was built, namely which inputs a method takes
in which order and which media types and response codes it prefers. All else can be read from the
document again. -/
namespace ApiGraph
open Json

inductive NodeKind where
  | api
  | method
  | parameter
  | request
  | return
  | type
  | record
  | array
  deriving DecidableEq, Repr

inductive InputOutline where
  | parameter (location : Location)
  | request (location : Location) (name : String) (preferred : List String)
  deriving DecidableEq, Repr

structure ResponseOutline where
  kind : NodeKind
  location : Location
  preferred : List ResponseCode
  deriving DecidableEq, Repr

structure MethodOutline where
  kind : NodeKind
  location : Location
  pattern : String
  inputs : List InputOutline
  response : ResponseOutline
  deriving DecidableEq, Repr

structure ApiOutline where
  kind : NodeKind
  location : Location
  name : String
  methods : List MethodOutline
  deriving DecidableEq, Repr

structure TypeOutline where
  kind : NodeKind
  location : Location
  name : Option String
  deriving DecidableEq, Repr

structure Outline where
  apis : List ApiOutline
  types : List TypeOutline
  deriving DecidableEq, Repr

def Shape.kind : Shape → NodeKind
  | .leaf => .type
  | .record _ => .record
  | .array _ => .array

namespace Graph

def inputOutline (g : Graph) : MethodInput → Option InputOutline
  | .parameter id => (g.parameter? id).map fun p => .parameter p.location
  | .body id => (g.body? id).map fun b => .request b.location b.name b.preferred

def methodOutline (g : Graph) (id : MethodId) : Option MethodOutline := do
  let m ← g.method? id
  let r ← g.response? m.response
  some ⟨.method, m.location, m.pattern, m.inputs.filterMap g.inputOutline,
    ⟨.return, r.location, r.preferred⟩⟩

def typeOutline (g : Graph) (id : SchemaId) : Option TypeOutline :=
  (g.schema? id).map fun s => ⟨s.shape.kind, s.location, s.name⟩

def outline (g : Graph) : Outline where
  apis := g.apis.map fun a => ⟨.api, a.location, a.name, a.methods.filterMap g.methodOutline⟩
  types := g.types.filterMap g.typeOutline

end Graph
end ApiGraph
