import ApiGraph.Tree

/-! Taking dotted paths such as `paths./pets.get` or `tags[0].name` out of a document. -/
namespace ApiGraph.Exclusion
open Json Text

def bracketed (inside : Option (List Char)) : List Char → List (List Char)
  | [] => match inside with
    | some taken => [taken.reverse]
    | none => []
  | c :: r => match inside with
    | none => if c = '[' then bracketed (some []) r else []
    | some taken =>
      if c = ']' then taken.reverse :: bracketed none r else bracketed (some (c :: taken)) r

def partSegments (part : List Char) : List (List Char) :=
  let name := part.takeWhile (· ≠ '[')
  let rest := part.dropWhile (· ≠ '[')
  (if name.isEmpty then [] else [name]) ++ bracketed none rest

def ofDotted (path : String) : Location :=
  ⟨(((splitOn '.' path.toList).filter (fun p => !p.isEmpty)).flatMap partSegments).map String.ofList⟩

def exclude (paths : List String) (doc : Value) : Value × Nat :=
  paths.foldl (fun acc path => match Tree.remove? (ofDotted path) acc.1 with
    | some (_, doc') => (doc', acc.2 + 1)
    | none => acc) (doc, 0)

end ApiGraph.Exclusion
