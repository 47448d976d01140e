import ApiGraph.Graph.Node
import ApiGraph.MediaType
import ApiGraph.Words

/-! Settings of one generation. -/
namespace ApiGraph
open Words (NameCase)

structure Config where
  requestMediaTypes : List String
  acceptMediaTypes : List String
  role : Role
  omittedOperationIds : List String
  operationCase : NameCase
  allModels : Bool
  engine : Pattern.Engine

namespace Config

def default : Config where
  requestMediaTypes := ["application/x-www-form-urlencoded", "multipart/form-data",
    "application/octet-stream", "text/plain", "application/json"]
  acceptMediaTypes := ["application/octet-stream", "application/json", "text/plain"]
  role := .client
  omittedOperationIds := []
  operationCase := .camel
  allModels := false
  engine := Pattern.spotEngine

def requestPatterns (c : Config) : Except ConfigError (List MediaPattern) :=
  MediaPattern.compileAllWith c.engine c.requestMediaTypes

def acceptPatterns (c : Config) : Except ConfigError (List MediaPattern) :=
  MediaPattern.compileAllWith c.engine c.acceptMediaTypes

def isOmitted (c : Config) (operationId : String) : Bool :=
  c.omittedOperationIds.contains operationId

end Config
end ApiGraph
