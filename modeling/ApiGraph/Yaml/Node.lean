import ApiGraph.Yaml.Token

/-! The tree of a YAML document, before its scalars are told apart. An alias points to a slot; what
the slot holds is settled at the end of the document. -/
namespace ApiGraph.Yaml

inductive Node where
  | scalar (tag : Option String) (style : Style) (text : String)
  | list (tag : Option String) (items : List Node)
  | map (tag : Option String) (members : List (Node × Node))
  | alias (slot : Nat)
  deriving Repr, Inhabited

def Node.empty : Node := .scalar none .plain ""

mutual
def Node.events : Node → Nat
  | .scalar .. => 1
  | .alias _ => 1
  | .list _ items => 2 + itemEvents items
  | .map _ members => 2 + memberEvents members
termination_by structural n => n
def itemEvents : List Node → Nat
  | [] => 0
  | n :: r => n.events + itemEvents r
termination_by structural ns => ns
def memberEvents : List (Node × Node) → Nat
  | [] => 0
  | (k, v) :: r => k.events + v.events + memberEvents r
termination_by structural ms => ms
end

structure Document where
  root : Option Node
  anchored : List (Nat × Node)
  deriving Repr

namespace Document

abbrev Follow (α : Type) := StateT Nat Option α

def settled (o : Option α) : Follow α := fun budget => o.map fun a => (a, budget)

def target (d : Document) : Node → Follow Node
  | .alias slot => do
    match ← get, d.anchored.lookup slot with
    | budget + 1, some n => do
      set budget
      pure n
    | _, _ => failure
  | n => pure n

def textOf (d : Document) (n : Node) : Follow String := do
  match ← d.target n with
  | .scalar _ _ text => pure text
  | _ => failure

/- Starts at the root with a hundred aliases for each event of the document. -/
def follow (d : Document) (f : Node → Follow α) (absent : α) : Option α :=
  match d.root with
  | none => some absent
  | some n => ((f n).run (100 * n.events)).map Prod.fst

end Document
end ApiGraph.Yaml
