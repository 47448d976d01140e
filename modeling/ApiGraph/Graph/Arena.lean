import ApiGraph.Graph.Node
import ApiGraph.Tree

/-! The graph: the nodes of each kind in order of creation, and for every location the node that was
made there last. -/
namespace ApiGraph
open Json

structure Graph where
  apis : List Api
  methods : List Method
  parameters : List Parameter
  bodies : List RequestBody
  responses : List Response
  schemas : List Schema
  types : List SchemaId
  nodes : List (Location × NodeRef)
  skipped : List Skipped

namespace Graph

def empty : Graph := ⟨[], [], [], [], [], [], [], [], []⟩

def api? (g : Graph) (id : ApiId) : Option Api := g.apis[id.index]?
def method? (g : Graph) (id : MethodId) : Option Method := g.methods[id.index]?
def parameter? (g : Graph) (id : ParameterId) : Option Parameter := g.parameters[id.index]?
def body? (g : Graph) (id : BodyId) : Option RequestBody := g.bodies[id.index]?
def response? (g : Graph) (id : ResponseId) : Option Response := g.responses[id.index]?
def schema? (g : Graph) (id : SchemaId) : Option Schema := g.schemas[id.index]?

def nodeAt (g : Graph) (l : Location) : Option NodeRef := g.nodes.lookup l

def schemaAt (g : Graph) (l : Location) : Option SchemaId :=
  match g.nodeAt l with
  | some (.schema id) => some id
  | _ => none

def nodeCount (g : Graph) : Nat := g.nodes.length

def apiNamed (g : Graph) (name : String) : Option Api := g.apis.find? (·.name == name)
def findMethod (g : Graph) (identifier : String) : Option Method :=
  g.methods.find? (·.identifier == identifier)

def apiIdNamed (g : Graph) (name : String) : Option ApiId :=
  (g.apis.findIdx? (·.name == name)).map ApiId.mk

def addApi (g : Graph) (a : Api) : ApiId × Graph :=
  let id : ApiId := ⟨g.apis.length⟩
  (id, { g with apis := g.apis ++ [a], nodes := Entries.put a.location (.api id) g.nodes })

def addMethod (g : Graph) (m : Method) : MethodId × Graph :=
  let id : MethodId := ⟨g.methods.length⟩
  (id, { g with methods := g.methods ++ [m], nodes := Entries.put m.location (.method id) g.nodes })

def addParameter (g : Graph) (p : Parameter) : ParameterId × Graph :=
  let id : ParameterId := ⟨g.parameters.length⟩
  (id, { g with
    parameters := g.parameters ++ [p], nodes := Entries.put p.location (.parameter id) g.nodes })

def addBody (g : Graph) (b : RequestBody) : BodyId × Graph :=
  let id : BodyId := ⟨g.bodies.length⟩
  (id, { g with bodies := g.bodies ++ [b], nodes := Entries.put b.location (.body id) g.nodes })

def addResponse (g : Graph) (r : Response) : ResponseId × Graph :=
  let id : ResponseId := ⟨g.responses.length⟩
  (id, { g with
    responses := g.responses ++ [r], nodes := Entries.put r.location (.response id) g.nodes })

def addSchema (g : Graph) (s : Schema) : SchemaId × Graph :=
  let id : SchemaId := ⟨g.schemas.length⟩
  (id, { g with schemas := g.schemas ++ [s], nodes := Entries.put s.location (.schema id) g.nodes })

def setParameter (g : Graph) (id : ParameterId) (f : Parameter → Parameter) : Graph :=
  { g with parameters := g.parameters.modify id.index f }
def setBody (g : Graph) (id : BodyId) (f : RequestBody → RequestBody) : Graph :=
  { g with bodies := g.bodies.modify id.index f }
def setResponse (g : Graph) (id : ResponseId) (f : Response → Response) : Graph :=
  { g with responses := g.responses.modify id.index f }
def setSchema (g : Graph) (id : SchemaId) (f : Schema → Schema) : Graph :=
  { g with schemas := g.schemas.modify id.index f }

def addType (g : Graph) (id : SchemaId) : Graph := { g with types := g.types ++ [id] }
def addSkipped (g : Graph) (s : Skipped) : Graph := { g with skipped := g.skipped ++ [s] }

def enlist (g : Graph) (api : ApiId) (m : MethodId) : Graph :=
  { g with apis := g.apis.modify api.index fun a => { a with methods := a.methods ++ [m] } }

end Graph
end ApiGraph
