import ApiGraph.Pipeline

/-! One document that is worked on step by step. Before a document is installed every step but the
installation fails; a document is installed once. -/
namespace ApiGraph
open Json

structure Session where
  document? : Option Value

namespace Session

def fresh : Session := ⟨none⟩

def isInitialized (s : Session) : Bool := s.document?.isSome

def init (s : Session) (doc : Value) : Except Failure Session :=
  match s.document? with
  | some _ => .error (.resolve .alreadyInitialized)
  | none => .ok ⟨some doc⟩

def document (s : Session) : Except Failure Value :=
  match s.document? with
  | some doc => .ok doc
  | none => .error (.resolve .notInitialized)

def change (s : Session) (f : Value → Value × Except Failure α) : Session × Except Failure α :=
  match s.document? with
  | some doc =>
    let (doc', outcome) := f doc
    (⟨some doc'⟩, outcome)
  | none => (s, .error (.resolve .notInitialized))

def update (s : Session) (f : Value → Value × α) : Session × Except Failure α :=
  s.change fun doc =>
    let (doc', a) := f doc
    (doc', .ok a)

def set (s : Session) (l : Location) (v : Value) : Session × Except Failure Bool :=
  s.update (Tree.setInPlace l v)

def remove (s : Session) (l : Location) : Session × Except Failure (Option Value) :=
  s.update fun doc => match Tree.remove? l doc with
    | some (v, doc') => (doc', some v)
    | none => (doc, none)

def uplift (s : Session) : Session × Except Failure Nat :=
  s.change fun doc =>
    let (doc', outcome) := Uplift.uplift doc
    (doc', outcome.mapError .resolve)

def declare (s : Session) (c : Config) : Session × Except Failure Nat :=
  s.change fun doc => match Declaration.declare c doc with
    | .ok (doc', count) => (doc', .ok count)
    | .error e => (doc, .error (.resolve e))

def build (s : Session) (c : Config) : Session × Except Failure Graph := s.change (Build.build c)

def hydrate (s : Session) (c : Config) (o : Outline) : Except Failure Graph := do
  Hydrate.hydrate c (← s.document) o

def resolve (s : Session) (v : Value) : Except Failure Resolve.Resolved := do
  (Resolve.resolve (← s.document) v).mapError .resolve

def resolveAt (s : Session) (l : Location) : Except Failure (Value × Location) := do
  (Resolve.resolveAt (← s.document) l).mapError .resolve

def security (s : Session) (l : Location) : Except Failure (Option MethodSecurity) := do
  (Security.extract (← s.document) l).mapError .resolve

end Session
end ApiGraph
