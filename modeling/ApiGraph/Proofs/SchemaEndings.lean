import ApiGraph.Proofs.Endings

/-! A walk through schemas has an answer, on every document and from every graph. The bound on its
steps is no part of the answer: a walk that came to an end of its own comes to the same end with more
steps. -/
namespace ApiGraph.Build
open Json Resolve Classify ApiGraph.Graph

def Continues {α : Type} (x y : Walk α) : Prop := ∀ g, x g ≠ .error .unfinished → y g = x g

namespace Continues
variable {α β : Type} {x y : Walk α} {f f' : α → Walk β}

theorem refl (x : Walk α) : Continues x x := fun _ _ => rfl

theorem bind (first : Continues x y) (rest : ∀ a, Continues (f a) (f' a)) :
    Continues (x >>= f) (y >>= f') := by
  intro g ended
  have run : ∀ (z : Walk α) (k : α → Walk β), (z >>= k) g = (z g).bind fun p => k p.1 p.2 :=
    fun _ _ => rfl
  rw [run] at ended
  rw [run, run]
  cases came : x g with
  | error e =>
    rw [came] at ended
    have own : e ≠ .unfinished := fun same => ended (same ▸ rfl)
    rw [first g (by simpa [came] using own), came]
    rfl
  | ok p =>
    rw [came] at ended
    rw [first g (by simp [came]), came]
    exact rest p.1 p.2 ended

theorem mapM {xs : List α} (each : ∀ x, Continues (f x) (f' x)) :
    Continues (xs.mapM f) (xs.mapM f') := by
  induction xs with
  | nil => exact refl _
  | cons x xs ih =>
    rw [List.mapM_cons, List.mapM_cons]
    exact (each x).bind fun _ => ih.bind fun _ => refl _

end Continues

section Filling
variable {visit visit' : Value → Location → Walk SchemaId}
  (each : ∀ v l, Continues (visit v l) (visit' v l)) (schema : Value) (l : Location) (key : String)
include each

theorem visitItemsContinues :
    Continues (visitItems visit schema l key) (visitItems visit' schema l key) :=
  Continues.mapM fun _ => each _ _

theorem visitOptionContinues (x : Option Value) :
    Continues (visitOption visit l key x) (visitOption visit' l key x) := by
  cases x with
  | none => exact Continues.refl _
  | some v => exact (each _ _).bind fun _ => Continues.refl _

theorem visitPropertiesContinues (shape : Shape) :
    Continues (visitProperties visit shape schema l) (visitProperties visit' shape schema l) := by
  unfold visitProperties
  split
  · exact Continues.refl _
  · exact Continues.mapM fun _ => (each _ _).bind fun _ => Continues.refl _
  · exact Continues.refl _

theorem fillSchemaContinues (id : SchemaId) (shape : Shape) :
    Continues (fillSchema visit id shape schema l) (fillSchema visit' id shape schema l) := by
  unfold fillSchema
  refine (visitItemsContinues each schema l "allOf").bind fun _ => ?_
  refine (visitItemsContinues each schema l "oneOf").bind fun _ => ?_
  refine (visitItemsContinues each schema l "anyOf").bind fun _ => ?_
  refine (visitOptionContinues each l "not" _).bind fun _ => ?_
  refine (visitPropertiesContinues each schema l shape).bind fun _ => ?_
  refine (visitOptionContinues each l "additionalProperties" _).bind fun _ => ?_
  exact (visitOptionContinues each l "items" _).bind fun _ => Continues.refl _

end Filling

section Schemas
variable {cx : Setting} {steps more : Nat} {v : Value} {l place : Location} {g : Graph}

theorem schemaNodeContinues (enough : steps ≤ more) (v : Value) (l : Location) :
    Continues (schemaNode cx steps v l) (schemaNode cx more v l) := by
  induction steps generalizing more v l with
  | zero => exact fun g ended => absurd rfl ended
  | succ steps ih =>
    obtain ⟨more, rfl⟩ := Nat.exists_eq_succ_of_ne_zero (show more ≠ 0 by omega)
    unfold schemaNode
    refine (Continues.refl _).bind fun r => (Continues.refl _).bind fun m => ?_
    split
    · exact Continues.refl _
    · refine (Continues.refl _).bind fun c => (Continues.refl _).bind fun m' => ?_
      refine (Continues.refl _).bind fun _ => ?_
      exact (fillSchemaContinues (ih (Nat.le_of_succ_le_succ enough)) _ _ _ _).bind fun _ =>
        Continues.refl _

/- Every walk from a schema has an answer: inside the document before the bound is reached, and from
elsewhere when the depth of the value is added to it. -/
theorem schemasEnd (cx : Setting) (g : Graph) (v : Value) (l : Location) :
    (Answers (cx.bound + v.depth) fun steps => schemaNode cx steps v l g) ∧
    ∀ place, Tree.get? place cx.doc = some v →
      schemaAt cx v l g ≠ .error .unfinished ∧
      ∀ steps, cx.bound ≤ steps → schemaNode cx steps v l g = schemaAt cx v l g := by
  constructor
  · have enough : cx.doc.pointers.length * (cx.doc.depth + 2) + cx.doc.depth + v.depth <
        cx.bound + v.depth := by
      rw [Setting.bound, Nat.add_mul]
      omega
    have ended : schemaNode cx (cx.bound + v.depth) v l g ≠ .error .unfinished :=
      Ends.finished (schemaNodeFinishesAnywhere enough)
    exact ⟨_, ended, fun _ more => schemaNodeContinues more v l g ended⟩
  · intro place at_
    have ended : schemaAt cx v l g ≠ .error .unfinished :=
      Ends.finished (schemaAtFinishes (Nat.le_succ_of_le (Tree.depthAt at_)))
    exact ⟨ended, fun _ more => schemaNodeContinues more v l g ended⟩

end Schemas

def ringNode : Value := .obj [
  ("type", .str "object"),
  ("properties", .obj [
    ("next", reference "#/components/schemas/Node"),
    ("list", .obj [("type", .str "array"),
      ("items", reference "#/components/schemas/Node/properties/list")])]),
  ("additionalProperties", reference "#/components/schemas/Ring"),
  ("allOf", .arr [reference "#/components/schemas/Node"])]

def ringDocument : Value := .obj [("components", .obj [("schemas", .obj [
  ("Node", ringNode),
  ("Ring", .obj [
    ("oneOf", .arr [reference "#/components/schemas/Node", .obj [("type", .str "string")]]),
    ("anyOf", .arr [reference "#/components/schemas/Ring"]),
    ("not", reference "#/components/schemas/Ring")])])])]

def ringSetting : Setting := ⟨ringDocument, Config.default, [], []⟩

theorem ringEnds :
    Tree.get? ⟨["components", "schemas", "Node"]⟩ ringDocument = some ringNode ∧
    ∃ p, schemaAt ringSetting ringNode ⟨["components", "schemas", "Node"]⟩ .empty = .ok p ∧
      p.2.schemas.map (fun s => s.location.segments.drop 2) =
        [["Node"], ["Node", "properties", "list"], ["Ring"], ["Ring", "oneOf", "1"]] ∧
      ∀ steps, ringSetting.bound ≤ steps →
        schemaNode ringSetting steps ringNode ⟨["components", "schemas", "Node"]⟩ .empty = .ok p := by
  obtain ⟨p, run, places⟩ : ∃ p,
      schemaAt ringSetting ringNode ⟨["components", "schemas", "Node"]⟩ .empty = .ok p ∧
        p.2.schemas.map (fun s => s.location.segments.drop 2) =
          [["Node"], ["Node", "properties", "list"], ["Ring"], ["Ring", "oneOf", "1"]] := by
    decide +kernel
  obtain ⟨_, inside⟩ := schemasEnd ringSetting .empty ringNode ⟨["components", "schemas", "Node"]⟩
  obtain ⟨_, more⟩ := inside ⟨["components", "schemas", "Node"]⟩ rfl
  exact ⟨rfl, p, run, places, fun steps enough => (more steps enough).trans run⟩

end ApiGraph.Build
