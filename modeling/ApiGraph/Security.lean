import ApiGraph.Resolve
import ApiGraph.Text.CaseMap

/-! The security schemes that the requirements of the document and of one operation name, taken
together. Labels without a scheme and schemes of other types say nothing. -/
namespace ApiGraph
open Json

structure HttpAuth where
  basic : Bool
  bearer : Bool
  bearerFormat : Option String
  deriving DecidableEq, Repr

structure ApiKeys where
  header : List String
  query : List String
  cookie : List String
  deriving DecidableEq, Repr

structure MethodSecurity where
  httpAuth : Option HttpAuth
  apiKey : Option ApiKeys
  deriving DecidableEq, Repr

namespace Security

def isEmpty (keys : ApiKeys) : Bool :=
  keys.header.isEmpty && keys.query.isEmpty && keys.cookie.isEmpty

def addName (name : String) (names : List String) : List String :=
  if names.contains name then names else names ++ [name]

def addKey (scheme : Value) (keys : ApiKeys) : ApiKeys :=
  match scheme.textAt? "name" with
  | none => keys
  | some name => match scheme.textAt? "in" with
    | some "header" => { keys with header := addName name keys.header }
    | some "query" => { keys with query := addName name keys.query }
    | some "cookie" => { keys with cookie := addName name keys.cookie }
    | _ => keys

def addAuth (scheme : Value) (auth : HttpAuth) : HttpAuth :=
  match (scheme.textAt? "scheme").map Text.asciiLowercase with
  | some "basic" => { auth with basic := true }
  | some "bearer" =>
    { auth with bearer := true, bearerFormat := (scheme.textAt? "bearerFormat").or auth.bearerFormat }
  | _ => auth

structure Gathered where
  auth : Option HttpAuth
  keys : ApiKeys
  deriving DecidableEq, Repr

def Gathered.add (g : Gathered) (scheme : Value) : Gathered :=
  match scheme.textAt? "type" with
  | some "apiKey" => { g with keys := addKey scheme g.keys }
  | some "http" => { g with auth := some (addAuth scheme (g.auth.getD ⟨false, false, none⟩)) }
  | _ => g

def schemesRoot : Location := ⟨["components", "securitySchemes"]⟩

def schemeOf (doc : Value) (label : String) : Except ResolveError (Option Value) :=
  match Tree.get? (schemesRoot.child label) doc with
  | none => .ok none
  | some raw => (Resolve.resolve doc raw).map fun r => some r.value

def requirements (doc : Value) (operation : Location) : List Value :=
  (doc.itemsAt? "security").getD [] ++
    (((Tree.get? operation doc).bind (·.itemsAt? "security")).getD [])

def labels (requirements : List Value) : List String :=
  requirements.flatMap fun r => Entries.keys ((r.members?).getD [])

def extract (doc : Value) (operation : Location) : Except ResolveError (Option MethodSecurity) := do
  let wanted := requirements doc operation
  if wanted.isEmpty then .ok none
  else
    let schemes ← (labels wanted).mapM (schemeOf doc)
    let g := (schemes.filterMap id).foldl Gathered.add ⟨none, ⟨[], [], []⟩⟩
    .ok (some ⟨g.auth, if isEmpty g.keys then none else some g.keys⟩)

end Security
end ApiGraph
