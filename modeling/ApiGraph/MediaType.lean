import ApiGraph.Failure
import ApiGraph.Pattern.Reader

/-! Media type patterns. A pattern with a blank in it is a search expression and its flags; any other
matches one media type exactly. Media types are lower case when they are compared. -/
namespace ApiGraph
open Text Pattern

inductive MediaPattern where
  | exact (mediaType : String)
  | search (source : String) (found : String → Bool)

namespace MediaPattern

def trim (cs : List Char) : List Char :=
  ((cs.dropWhile isBlank).reverse.dropWhile isBlank).reverse

def flagsOf (cs : List Char) : Flags :=
  { fold := cs.contains 'i', lines := cs.contains 'm', dotAll := cs.contains 's',
    spaced := cs.contains 'x' }

def compileWith (engine : Engine) (pattern : String) : Except ConfigError MediaPattern :=
  let cs := trim pattern.toList
  let source := cs.takeWhile (fun c => !isBlank c)
  match cs.dropWhile (fun c => !isBlank c) with
  | [] => .ok (.exact (lowercase (String.ofList cs)))
  | flags => match engine.read (flagsOf flags) source with
    | some found => .ok (.search (String.ofList source) found)
    | none => .error (.mediaTypePattern pattern)

def compileAllWith (engine : Engine) (patterns : List String) :
    Except ConfigError (List MediaPattern) :=
  patterns.mapM (compileWith engine)

def compile : String → Except ConfigError MediaPattern := compileWith spotEngine

def compileAll : List String → Except ConfigError (List MediaPattern) := compileAllWith spotEngine

def accepts (p : MediaPattern) (mediaType : String) : Bool :=
  match p with
  | .exact wanted => wanted == lowercase mediaType
  | .search _ found => found (lowercase mediaType)

end MediaPattern
end ApiGraph
