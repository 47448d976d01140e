import ApiGraph.Failure
import ApiGraph.Json.Measure
import ApiGraph.Json.Printer
import ApiGraph.Tree

/-! Following `$ref` through a document. A chain of references ends at the first value that is none;
a pointer that comes back on its own chain, leaves the document or names nothing is unresolvable. -/
namespace ApiGraph.Resolve
open Json

structure Resolved where
  value : Value
  pointer : Option String

def Resolved.location? (r : Resolved) : Option Location := r.pointer.map Location.ofPointer

def Resolved.locationOr (r : Resolved) (l : Location) : Location := r.location?.getD l

def lookup (doc : Value) (pointer : String) : Except ResolveError Value :=
  if pointer.startsWith "#" then
    match Tree.get? (.ofPointer pointer) doc with
    | some v => .ok v
    | none => .error (.unresolvable pointer)
  else .error (.unresolvable pointer)

def follow (doc : Value) : Nat → List String → String → Except ResolveError Resolved
  | 0, _, pointer => .error (.unresolvable pointer)
  | steps + 1, seen, pointer =>
    if seen.contains pointer then
      .error (.unresolvable (joined " -> " (pointer :: seen).reverse))
    else match lookup doc pointer with
      | .error e => .error e
      | .ok v => match refOf v with
        | some next => follow doc steps (pointer :: seen) next
        | none => .ok ⟨v, some pointer⟩

/- The value itself unless it is a reference. The pointers of a chain past the first are those of
reference objects of the document and do not repeat, so their number bounds the chain. -/
def resolve (doc v : Value) : Except ResolveError Resolved :=
  match refOf v with
  | none => .ok ⟨v, none⟩
  | some pointer => follow doc (doc.pointers.length + 2) [] pointer

def resolveAt (doc : Value) (l : Location) : Except ResolveError (Value × Location) := do
  match Tree.get? l doc with
  | none => .error (.unresolvable l.toPointer)
  | some v =>
    let r ← resolve doc v
    .ok (r.value, r.locationOr l)

end ApiGraph.Resolve
