import ApiGraph.Resolve
import ApiGraph.Words

/-! Operations of a document: which members of a path item are one, and how an operation and its
group are named when it does not say. -/
namespace ApiGraph.Operation
open Json Text

def httpMethods : List String :=
  ["get", "put", "post", "delete", "options", "head", "patch", "trace"]

def isOperation (key : String) (v : Value) : Bool :=
  v.isObject && httpMethods.contains (asciiLowercase key)

def operationKeys (item : Value) : List String :=
  ((item.members?.getD []).filter fun e => isOperation e.1 e.2).map Prod.fst

def synthesizedId (verb pattern : String) : String := Words.snake (verb ++ " " ++ pattern)

def operationId (operation : Value) (verb pattern : String) : String :=
  (operation.textAt? "operationId").getD (synthesizedId verb pattern)

def underscoreFirst : List Char → List Char
  | [] => []
  | c :: r => if c = '/' then '_' :: r else c :: underscoreFirst r

def derivedName (pattern : String) : String :=
  let name := Words.snake (String.ofList (underscoreFirst pattern.toList))
  if name.isEmpty then "root" else name

def apiName (operation : Value) (pattern : String) : String :=
  match ((operation.itemsAt? "tags").bind List.head?).bind Value.str? with
  | some tag => tag
  | none => match operation.textAt? "x-router-controller" with
    | some controller => controller
    | none => (operation.textAt? "x-swagger-router-controller").getD (derivedName pattern)

def pathItems (doc : Value) : Except ResolveError (List (String × Location)) :=
  (((doc.membersAt? "paths").getD []).filter fun e => e.2.isObject).mapM fun (pattern, item) => do
    let r ← Resolve.resolve doc item
    .ok (pattern, r.locationOr ⟨["paths", pattern]⟩)

end ApiGraph.Operation
