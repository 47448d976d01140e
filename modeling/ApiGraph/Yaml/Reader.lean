import ApiGraph.Yaml.Grammar
import ApiGraph.Yaml.Layout
import ApiGraph.Yaml.Schema

/-! Reading a value from YAML text. Aliases are written out, keys are texts as written, and a
repeated key keeps its first place and its last value. -/
namespace ApiGraph.Yaml
open Json

def Document.ofText? (text : String) : Option Document := do document? (← tokens? text)

namespace Document

def maxDepth : Nat := 128

def valueWith (d : Document) (inner : Option (Node → Follow Value)) (n : Node) : Follow Value := do
  match ← d.target n, inner with
  | .scalar tag style text, _ => settled (scalarValue? tag style text)
  | .list tag items, some part =>
    if isOwnTag tag then failure else pure (.arr (← items.mapM part))
  | .map tag members, some part =>
    if isOwnTag tag then failure
    else
      let es ← members.mapM fun (k, v) => do pure (← d.textOf k, ← part v)
      pure (.obj (Entries.ofList es))
  | _, _ => failure

def value (d : Document) : Nat → Node → Follow Value
  | 0 => d.valueWith none
  | depth + 1 => d.valueWith (some (value d depth))

end Document

def read? (text : String) : Option Value := do
  let d ← Document.ofText? text
  d.follow (d.value Document.maxDepth) .null

end ApiGraph.Yaml
