import ApiGraph.Graph.Build

/-! Which operations are left out decides nothing but that: all else that a walk does is the same
under settings that differ in it alone. -/
namespace ApiGraph.Build
open Json Declaration

def Setting.omitting (cx : Setting) (ids : List String) : Setting :=
  { cx with config := { cx.config with omittedOperationIds := ids } }

section Omitting
variable (cx : Setting) (ids : List String)

theorem schemaNodeOmitting (steps : Nat) :
    schemaNode (cx.omitting ids) steps = schemaNode cx steps := by
  induction steps with
  | zero => rfl
  | succ steps ih =>
    funext v place
    simp only [schemaNode, ih]
    rfl

theorem schemaAtOmitting : schemaAt (cx.omitting ids) = schemaAt cx := by
  funext v place
  rw [schemaAt, schemaNodeOmitting]
  rfl

theorem mediaSchemaOmitting : mediaSchema (cx.omitting ids) = mediaSchema cx := by
  funext header media l
  rw [mediaSchema, schemaAtOmitting]
  rfl

theorem headerSchemaOmitting (steps : Nat) :
    headerSchema (cx.omitting ids) steps = headerSchema cx steps := by
  induction steps with
  | zero => rfl
  | succ steps ih =>
    funext v l
    simp only [headerSchema, ih, mediaSchemaOmitting, schemaAtOmitting]

theorem headerAtOmitting : headerAt (cx.omitting ids) = headerAt cx := by
  funext v l
  rw [headerAt, headerSchemaOmitting]
  rfl

theorem mediaAtOmitting : mediaAt (cx.omitting ids) = mediaAt cx := by
  funext media l
  rw [mediaAt, mediaSchemaOmitting, headerAtOmitting]
  rfl

theorem parameterNodeOmitting : parameterNode (cx.omitting ids) = parameterNode cx := by
  funext l v
  simp only [parameterNode, headerAtOmitting]
  rfl

theorem bodyNodeOmitting : bodyNode (cx.omitting ids) = bodyNode cx := by
  funext l v name preferred
  simp only [bodyNode, mediaAtOmitting]
  rfl

theorem visitCodeOmitting : visitCode (cx.omitting ids) = visitCode cx := by
  funext l acc code
  simp only [visitCode, visitResponseContent, visitResponseMedia, visitHeaders, headerAtOmitting,
    mediaAtOmitting]
  rfl

theorem responseNodeOmitting : responseNode (cx.omitting ids) = responseNode cx := by
  funext l preferred
  rw [responseNode, visitCodeOmitting]
  rfl

theorem inputNodesOmitting (plans : List InputPlan) :
    inputNodes (cx.omitting ids) plans = inputNodes cx plans := by
  induction plans with
  | nil => rfl
  | cons plan more ih =>
    cases plan with
    | parameter p => simp only [inputNodes, ih, parameterNodeOmitting]
    | body b =>
      simp only [inputNodes, ih, bodyNodeOmitting]
      rfl

theorem methodNodeOmitting : methodNode (cx.omitting ids) = methodNode cx := by
  funext plan operation
  simp only [methodNode, inputNodesOmitting, responseNodeOmitting]
  rfl

theorem findTagOmitting (name : String) (tags : List (Value × Nat)) :
    findTag (cx.omitting ids) name tags = findTag cx name tags := by
  induction tags with
  | nil => rfl
  | cons e more ih =>
    simp only [findTag, ih]
    rfl

theorem apiNamedOmitting (name : String) : apiNamed (cx.omitting ids) name = apiNamed cx name := by
  simp only [apiNamed, findTagOmitting]
  rfl

theorem visitOperationOmitting {f : Found} (kept : cx.config.isOmitted f.id = false)
    (kept' : (cx.omitting ids).config.isOmitted f.id = false) :
    visitOperation (cx.omitting ids) f = visitOperation cx f := by
  simp only [visitOperation, kept, kept', apiNamedOmitting, methodNodeOmitting]
  rfl

end Omitting
end ApiGraph.Build
