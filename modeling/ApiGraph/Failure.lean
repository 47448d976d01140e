import ApiGraph.Location

/-! Everything that can go wrong, as causes, with the code and the text of each. -/
namespace ApiGraph

inductive ResolveError where
  | notInitialized
  | alreadyInitialized
  | unresolvable (pointer : String)
  | wholeFile (reference : String)
  deriving DecidableEq, Repr

inductive SchemaError where
  | unsupportedShape (location : Location) (detail : String)
  | shapeMismatch (location : Location)
  deriving DecidableEq, Repr

inductive OperationError where
  | noAcceptableBody (location : Location)
  | ambiguousBody (location : Location)
  deriving DecidableEq, Repr

inductive LoadError where
  | json (offset : Nat) (detail : String)
  | yaml
  | io (path : String)
  | notAnObject (found : String)
  deriving DecidableEq, Repr

inductive ConfigError where
  | mediaTypePattern (pattern : String)
  | invalid (detail : String)
  deriving DecidableEq, Repr

/- `unfinished` is no error of the input: a walk came to the end of the bound it was given. -/
inductive Failure where
  | load (e : LoadError)
  | resolve (e : ResolveError)
  | schema (e : SchemaError)
  | config (e : ConfigError)
  | unfinished
  deriving DecidableEq, Repr

def ResolveError.code : ResolveError → String
  | .notInitialized => "resolver::not_initialized"
  | .alreadyInitialized => "resolver::already_initialized"
  | .unresolvable _ => "resolver::unresolvable_pointer"
  | .wholeFile _ => "resolver::whole_file_reference"

def ResolveError.message : ResolveError → String
  | .notInitialized => "Resolver not initialized"
  | .alreadyInitialized => "Resolver already initialized"
  | .unresolvable pointer => "Unresolvable pointer `" ++ pointer ++ "`"
  | .wholeFile reference => "Whole-file reference `" ++ reference ++ "` cannot be bundled"

def SchemaError.code : SchemaError → String
  | .unsupportedShape .. => "schema::unsupported_shape"
  | .shapeMismatch _ => "schema::shape_mismatch"

def SchemaError.message : SchemaError → String
  | .unsupportedShape location detail =>
    "Unsupported schema shape at `" ++ location.toPointer ++ "`: " ++ detail
  | .shapeMismatch location =>
    "`properties` found on a non-object schema at `" ++ location.toPointer ++ "`"

def OperationError.code : OperationError → String
  | .noAcceptableBody _ => "operation::no_acceptable_body_media_type"
  | .ambiguousBody _ => "operation::ambiguous_body_schema"

def OperationError.message : OperationError → String
  | .noAcceptableBody location =>
    "No acceptable request body media type at `" ++ location.toPointer ++ "`"
  | .ambiguousBody location =>
    "Request body schemas differ by media type at `" ++ location.toPointer ++ "`"

def LoadError.code : LoadError → String
  | .json .. => "load::json"
  | .yaml => "load::yaml"
  | .io _ => "load::io"
  | .notAnObject _ => "load::not_an_object"

def LoadError.message : LoadError → String
  | .json .. => "Invalid JSON"
  | .yaml => "Invalid YAML"
  | .io path => "Cannot read `" ++ path ++ "`"
  | .notAnObject found => "Document root must be an object, found " ++ found

def ConfigError.code : ConfigError → String
  | .mediaTypePattern _ => "config::media_type_pattern"
  | .invalid _ => "config::invalid"

def ConfigError.message : ConfigError → String
  | .mediaTypePattern pattern => "Invalid media type pattern `" ++ pattern ++ "`"
  | .invalid detail => "Invalid configuration: " ++ detail

def Failure.code : Failure → String
  | .load e => e.code
  | .resolve e => e.code
  | .schema e => e.code
  | .config e => e.code
  | .unfinished => "walk::unfinished"

def Failure.message : Failure → String
  | .load e => e.message
  | .resolve e => e.message
  | .schema e => e.message
  | .config e => e.message
  | .unfinished => "The walk did not end within its bound"

end ApiGraph
