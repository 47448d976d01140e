import ApiGraph.Failure
import ApiGraph.Json.Reader
import ApiGraph.Text.Letters
import ApiGraph.Yaml.Reader

/-! Fragments of a document as text: JSON by its name or its first bracket, and YAML otherwise. A
fragment is an object; one that holds nothing is an empty object. -/
namespace ApiGraph.Fragment
open Json Text

def isJson (name text : String) : Bool :=
  name.endsWith ".json" || match text.toList.dropWhile isBlank with
    | c :: _ => c == '\x7b' || c == '['
    | [] => false

def malformed (text : String) (f : Fault) : LoadError :=
  let place := f.place text
  .json (offsetOf text place.line place.column) (f.describe text)

def value (name text : String) : Except LoadError Value :=
  if isJson name text then (Json.read text).mapError (malformed text)
  else match Yaml.read? text with
    | some v => .ok v
    | none => .error .yaml

def ofValue : Value → Except LoadError Value
  | .obj members => .ok (.obj members)
  | .null => .ok (.obj [])
  | v => .error (.notAnObject v.kindName)

def parse (name text : String) : Except LoadError Value := do ofValue (← value name text)

abbrev Files := List (String × Option String)

def withoutDots : List Char → List Char
  | '.' :: '/' :: r => withoutDots (r.dropWhile (· == '/'))
  | cs => cs
termination_by cs => cs.length
decreasing_by
  have := (List.dropWhile_suffix (fun c : Char => c == '/') (l := r)).length_le
  simp only [List.length_cons]
  omega

def nameOf (path : String) : String := String.ofList (withoutDots path.toList)

def readText (files : Files) (path : String) : Except LoadError String :=
  match files.lookup (nameOf path) with
  | some (some text) => .ok text
  | _ => .error (.io path)

def load (files : Files) (path : String) : Except LoadError Value := do
  parse path (← readText files path)

end ApiGraph.Fragment
