import ApiGraph.Entries
import ApiGraph.Yaml.Node

/-! From tokens to the one document that they hold. Loops over the parts of a collection take how
to read a part, and a count of parts that the number of tokens bounds; so does the depth of nodes. -/
namespace ApiGraph.Yaml

/- Anchors so far. A name takes the slot with the number of other names; `owners` tells which
anchored node, by number, took a slot last. -/
structure Anchors where
  names : List (String × Nat)
  owners : List (Nat × Nat)
  claimed : Nat
  nodes : List (Nat × Node)

def Anchors.none : Anchors := ⟨[], [], 0, []⟩

def Anchors.claim (a : Anchors) (name : String) : Anchors :=
  let slot := a.names.length
  ⟨Entries.put name slot a.names, Entries.put slot a.claimed a.owners, a.claimed + 1, a.nodes⟩

def Anchors.table (a : Anchors) : List (Nat × Node) :=
  a.owners.filterMap fun (slot, owner) => (a.nodes.lookup owner).map fun n => (slot, n)

structure Source where
  tokens : List Token
  handles : List (String × String)
  anchors : Anchors

abbrev Parse (α : Type) := StateT Source Option α

namespace Parse

def peek : Parse (Option Token) := fun s => some (s.tokens.head?, s)

def skip : Parse Unit := fun s => some ((), { s with tokens := s.tokens.drop 1 })

def next : Parse (Option Token) := fun s => some (s.tokens.head?, { s with tokens := s.tokens.drop 1 })

def taken (t : Token) : Parse Bool := do
  if (← peek) == some t then skip; pure true else pure false

def expect (t : Token) : Parse Unit := do
  if ← taken t then pure () else failure

def unlessAt (ends : List Token) (part : Parse Node) : Parse Node := do
  if (← peek).any ends.contains then pure .empty else part

def valueUnless (ends : List Token) (part : Parse Node) : Parse Node := do
  if ← taken .value then unlessAt ends part else pure .empty

def blockItems (part : Parse Node) : Nat → Parse (List Node)
  | 0 => failure
  | fuel + 1 => do
    match ← next with
    | some .blockEntry => do
      let x ← unlessAt [.blockEntry, .blockEnd] part
      pure (x :: (← blockItems part fuel))
    | some .blockEnd => pure []
    | _ => failure

def looseItems (part : Parse Node) : Nat → Parse (List Node)
  | 0 => failure
  | fuel + 1 => do
    if ← taken .blockEntry then
      let x ← unlessAt [.blockEntry, .key, .value, .blockEnd] part
      pure (x :: (← looseItems part fuel))
    else pure []

def blockMembers (part : Parse Node) : Nat → Parse (List (Node × Node))
  | 0 => failure
  | fuel + 1 => do
    match ← next with
    | some .key => do
      let k ← unlessAt [.key, .value, .blockEnd] part
      let v ← valueUnless [.key, .value, .blockEnd] part
      pure ((k, v) :: (← blockMembers part fuel))
    | some .blockEnd => pure []
    | _ => failure

def flowPair (part : Parse Node) : Parse Node := do
  let k ← match ← peek with
    | some .value | some .flowEntry | some .flowListEnd => do
      skip
      pure .empty
    | _ => part
  let v ← valueUnless [.flowEntry, .flowListEnd] part
  pure (.map none [(k, v)])

def flowItems (part : Parse Node) : Bool → Nat → Parse (List Node)
  | _, 0 => failure
  | first, fuel + 1 => do
    if ← taken .flowListEnd then pure []
    else do
      if !first then expect .flowEntry
      if ← taken .key then
        let x ← flowPair part
        pure (x :: (← flowItems part false fuel))
      else if ← taken .flowListEnd then pure []
      else
        let x ← part
        pure (x :: (← flowItems part false fuel))

def flowMembers (part : Parse Node) : Bool → Nat → Parse (List (Node × Node))
  | _, 0 => failure
  | first, fuel + 1 => do
    if ← taken .flowMapEnd then pure []
    else do
      if !first then expect .flowEntry
      if ← taken .key then
        let k ← unlessAt [.value, .flowEntry, .flowMapEnd] part
        let v ← valueUnless [.flowEntry, .flowMapEnd] part
        pure ((k, v) :: (← flowMembers part false fuel))
      else if ← taken .flowMapEnd then pure []
      else
        let k ← part
        pure ((k, .empty) :: (← flowMembers part false fuel))

def anchor : Parse (Option String) := do
  match ← peek with
  | some (.anchor name) => do
    skip
    pure (some name)
  | _ => pure none

def tag : Parse (Option String) := do
  match ← peek with
  | some (.tag handle suffix) => do
    skip
    if handle.isEmpty then pure (some suffix)
    else match (← get).handles.lookup handle with
      | some start => pure (some (start ++ suffix))
      | none => failure
  | _ => pure none

def properties : Parse (Option String × Option String) := do
  match ← anchor with
  | some a => pure (some a, ← tag)
  | none => match ← tag with
    | some t => pure (← anchor, some t)
    | none => pure (none, none)

/- What a node holds. A `block` node may be a block collection, and a `loose` one a list at the
column of its key; `part block loose` reads a node inside. -/
def content (part : Bool → Bool → Parse Node) (bound : Nat) (block loose named : Bool)
    (tag : Option String) : Parse Node := do
  match ← peek with
  | some .blockEntry =>
    if loose then pure (.list tag (← looseItems (part true false) bound)) else orEmpty
  | some (.scalar style text) => do
    skip
    pure (.scalar (tag.filter (· != "!")) style text)
  | some .flowList => do
    skip
    pure (.list tag (← flowItems (part false false) true bound))
  | some .flowMap => do
    skip
    pure (.map tag (← flowMembers (part false false) true bound))
  | some .blockList =>
    if block then do
      skip
      pure (.list tag (← blockItems (part true false) bound))
    else orEmpty
  | some .blockMap =>
    if block then do
      skip
      pure (.map tag (← blockMembers (part true true) bound))
    else orEmpty
  | _ => orEmpty
where
  orEmpty : Parse Node := if named || tag.isSome then pure (.scalar tag .plain "") else failure

def nodeWith (part : Bool → Bool → Parse Node) (bound : Nat) (block loose : Bool) : Parse Node := do
  match ← peek with
  | some (.alias name) => do
    skip
    match (← get).anchors.names.lookup name with
    | some slot => pure (.alias slot)
    | none => failure
  | _ => do
    let (anchor, tag) ← properties
    match anchor with
    | none => content part bound block loose false tag
    | some name => do
      let number := (← get).anchors.claimed
      modify fun s => { s with anchors := s.anchors.claim name }
      let n ← content part bound block loose true tag
      modify fun s => { s with anchors := { s.anchors with nodes := (number, n) :: s.anchors.nodes } }
      pure n

def node (bound : Nat) : Nat → Bool → Bool → Parse Node
  | 0 => fun _ _ => failure
  | depth + 1 => nodeWith (node bound depth) bound

end Parse

def isDirective : Token → Bool
  | .version .. => true
  | .tagHandle .. => true
  | _ => false

def defaultHandles : List (String × String) := [("!", "!"), ("!!", "tag:yaml.org,2002:")]

def declaredHandles? (directives : List Token) : Option (List (String × String)) :=
  let versions := directives.filterMap fun t => match t with
    | .version major minor => some (major, minor)
    | _ => none
  let handles := directives.filterMap fun t => match t with
    | .tagHandle handle uri => some (handle, uri)
    | _ => none
  if versions.length ≤ 1 && versions.all [(1, 1), (1, 2)].contains &&
      (Entries.distinct (Entries.keys handles)).length == handles.length then
    some handles
  else none

def endsDocument : List Token → Bool
  | [] => true
  | t :: _ => isDirective t || t == .documentStart || t == .documentEnd

def document? (ts : List Token) : Option Document :=
  match ts with
  | [] => some ⟨none, []⟩
  | _ => do
    let directives := ts.takeWhile isDirective
    let body := ts.dropWhile isDirective
    let handles ← declaredHandles? directives
    let bound := ts.length + 1
    let start := body.head? == some .documentStart
    if !start && !directives.isEmpty then none
    else
      let body := if start then body.drop 1 else body
      let node := if start && endsDocument body then pure .empty
        else Parse.node bound bound true false
      let (root, s) ← node.run ⟨body, handles ++ defaultHandles, .none⟩
      if (s.tokens.dropWhile (· == .documentEnd)).isEmpty then some ⟨some root, s.anchors.table⟩
      else none

end ApiGraph.Yaml
