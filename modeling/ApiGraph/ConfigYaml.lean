import ApiGraph.ConfigText
import ApiGraph.Fragment

/-! Settings as YAML, and from files. What cannot be read is one error without details. A setting
that is left empty is an empty list where a list is wanted. -/
namespace ApiGraph.Config
open Yaml Words

namespace OfYaml
variable (d : Document)

def texts (n : Node) : Document.Follow (List String) := do
  match ← d.target n with
  | .list _ items => items.mapM d.textOf
  | .scalar _ .plain "" => pure []
  | _ => failure

def bool (n : Node) : Document.Follow Bool := do
  match ← d.target n with
  | .scalar tag style text =>
    if style = .plain ∨ style = .literal ∧ tag = some (coreTag "bool") then Document.settled (bool? text)
    else failure
  | _ => failure

def choice (known : List (String × α)) (n : Node) : Document.Follow α := do
  match ← d.target n with
  | .scalar tag style text => match tag.map String.toList with
    | some ('!' :: name) =>
      if style = .plain ∧ (text.isEmpty ∨ meansNull text) then
        Document.settled (known.lookup (String.ofList name))
      else failure
    | _ => Document.settled (known.lookup text)
  | _ => failure

def setting (read : Node → Document.Follow α) (put : Config → α → Config) (c : Config) (n : Node) :
    Document.Follow Config := do
  pure (put c (← read n))

def settings : List (String × (Config → Node → Document.Follow Config)) :=
  [("requestMediaTypes", setting (texts d) fun c a => { c with requestMediaTypes := a }),
    ("acceptMediaTypes", setting (texts d) fun c a => { c with acceptMediaTypes := a }),
    ("role", setting (choice d roles) fun c a => { c with role := a }),
    ("omittedOperationIds", setting (texts d) fun c a => { c with omittedOperationIds := a }),
    ("operationCase", setting (choice d cases) fun c a => { c with operationCase := a }),
    ("allModels", setting (bool d) fun c a => { c with allModels := a })]

def member (state : Config × List String) (m : Node × Node) :
    Document.Follow (Config × List String) := do
  let key ← d.textOf m.1
  match (settings d).lookup key with
  | none => pure state
  | some read =>
    if state.2.contains key then failure
    else pure (← read state.1 m.2, key :: state.2)

def root (n : Node) : Document.Follow Config := do
  match ← d.target n with
  | .map _ members => return (← members.foldlM (member d) (Config.default, [])).1
  | .scalar _ .plain "" => pure .default
  | _ => failure

end OfYaml

def ofYamlText (text : String) : Except ConfigError Config :=
  match (Document.ofText? text).bind fun d => d.follow (OfYaml.root d) .default with
  | some c => .ok c
  | none => .error (.invalid "")

def isJsonName (name : String) : Bool := name.endsWith ".json" && 5 < name.length

def load (files : Fragment.Files) (path : String) : Except Failure Config := do
  let text ← (Fragment.readText files path).mapError .load
  let c := if isJsonName (Fragment.nameOf path) then ofJsonText text else ofYamlText text
  c.mapError fun _ => .config (.invalid "")

end ApiGraph.Config
