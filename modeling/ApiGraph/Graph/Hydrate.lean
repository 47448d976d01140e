import ApiGraph.Graph.Build
import ApiGraph.Graph.Outline

/-! A graph from its outline and the document it came from. Types are registered first, in their
order; nothing is ranked again. -/
namespace ApiGraph.Hydrate
open Json Build

def hydrateInput (cx : Setting) : InputOutline → Walk MethodInput
  | .parameter l => do
    let (v, place) ← cx.resolveAt l
    return .parameter (← parameterNode cx place v)
  | .request l name preferred => do
    let (v, place) ← cx.resolveAt l
    return .body (← bodyNode cx place v name preferred)

def hydrateMethod (cx : Setting) (m : MethodOutline) : Walk MethodId := do
  let (operation, l) ← cx.resolveAt m.location
  let verb := Text.asciiLowercase (l.last?.getD "")
  let operationId := Operation.operationId operation verb m.pattern
  let inputs ← m.inputs.mapM (hydrateInput cx)
  let response ← responseNode cx m.response.location m.response.preferred
  let secured ← security cx l
  let identifier := Words.setCase operationId cx.config.operationCase
  let (id, g) := (← get).addMethod
    ⟨l, m.pattern, verb, operationId, identifier, inputs, response, secured⟩
  set g
  return id

def hydrateApi (cx : Setting) (a : ApiOutline) : Walk Unit := do
  let api ← apiAt cx a.location
  a.methods.forM fun m => do
    let id ← hydrateMethod cx m
    modify fun g => g.enlist api id

def hydrateWalk (cx : Setting) (o : Outline) : Walk Unit := do
  o.types.forM fun t => do
    let _ ← registerType cx t.location
  o.apis.forM (hydrateApi cx)

def hydrate (c : Config) (doc : Value) (o : Outline) : Except Failure Graph := do
  let cx ← Setting.make doc c
  let ((), g) ← (hydrateWalk cx o).run .empty
  .ok g

end ApiGraph.Hydrate
