import ApiGraph.Resolve

/-! Making one document out of a root and the files it refers to. A reference into a file becomes a
local pointer, and the value it names is copied into the root: at its own path, if that is free or
holds an equal value, else at the first free sibling `name_1`, `name_2`, …. Copied values are
treated the same way, their own local references read in the file they came from. -/
namespace ApiGraph.Bundle
open Json

structure Source where
  file : String
  place : Location
  deriving DecidableEq, Repr

structure Key where
  file : String
  pointer : String
  deriving DecidableEq, Repr

def Source.key (s : Source) : Key := ⟨s.file, s.place.toPointer⟩

structure Placement where
  target : Location
  source : Source

structure Ledger where
  assigned : List (Key × String)
  owners : List (String × Key)
  pending : List Placement

structure Files where
  root : Value
  externals : List (String × Value)

def stripDotSlash : List Char → List Char
  | '.' :: '/' :: r => stripDotSlash r
  | cs => cs

def fileName (name : String) : String := String.ofList (stripDotSlash name.toList)

def Files.ofList (root : Value) (externals : List (String × Value)) : Files :=
  ⟨root, Entries.ofList (externals.map fun e => (fileName e.1, e.2))⟩

def Files.value (files : Files) (s : Source) : Except Failure Value :=
  match (files.externals.lookup s.file).bind (Tree.get? s.place) with
  | some v => .ok v
  | none => .error (.resolve (.unresolvable (s.file ++ s.place.toPointer)))

def splitReference (text : String) : String × String :=
  let cs := text.toList
  (String.ofList (cs.takeWhile (· ≠ '#')), String.ofList (cs.dropWhile (· ≠ '#')))

def sibling (l : Location) (n : Nat) : Except Failure Location :=
  match l.parent?, l.last? with
  | some parent, some name => .ok (parent.child (name ++ "_" ++ toString n))
  | _, _ => .error (.resolve (.unresolvable l.toPointer))

def findSlot (files : Files) (owners : List (String × Key)) (l : Location) (v : Value) :
    Nat → Nat → Location → Except Failure (Location × Bool)
  | 0, _, _ => .error .unfinished
  | tries + 1, n, target => do
    let held := Tree.get? target files.root
    if Entries.has target.toPointer owners then
      findSlot files owners l v tries (n + 1) (← sibling l (n + 1))
    else match held with
      | none => .ok (target, false)
      | some w =>
        if w == v then .ok (target, true)
        else findSlot files owners l v tries (n + 1) (← sibling l (n + 1))

/- The root pointer of a source; the first time it is seen its copy is scheduled. Each slot passed
over is owned or held, so their number bounds the search. -/
def place (files : Files) (ledger : Ledger) (s : Source) : Except Failure (String × Ledger) := do
  match ledger.assigned.lookup s.key with
  | some pointer => .ok (pointer, ledger)
  | none =>
    let v ← files.value s
    let bound := ledger.owners.length + files.root.size + 2
    let (target, reuse) ← findSlot files ledger.owners s.place v bound 0 s.place
    let pointer := target.toPointer
    .ok (pointer, {
      assigned := Entries.put s.key pointer ledger.assigned
      owners := Entries.put pointer s.key ledger.owners
      pending := if reuse then ledger.pending else ⟨target, s⟩ :: ledger.pending })

def sourceOf (base : Option String) (text : String) : Except Failure (Option Source) :=
  let (file, rest) := splitReference text
  let named := match file, base with
    | "", none => none
    | "", some b => some b
    | f, _ => some (fileName f)
  match named with
  | none => .ok none
  | some f =>
    let l := Location.ofPointer rest
    if l.isRoot then .error (.resolve (.wholeFile text)) else .ok (some ⟨f, l⟩)

mutual
def remap (files : Files) (base : Option String) (ledger : Ledger) :
    Value → Except Failure (Value × Ledger)
  | .arr items => do
    let (items', ledger') ← remapItems files base ledger items
    .ok (.arr items', ledger')
  | .obj members =>
    match refOf (.obj members) with
    | some text => do
      match ← sourceOf base text with
      | none => .ok (.obj members, ledger)
      | some s =>
        let (pointer, ledger') ← place files ledger s
        .ok (.obj (Entries.put "$ref" (.str pointer) members), ledger')
    | none => do
      let (members', ledger') ← remapMembers files base ledger members
      .ok (.obj members', ledger')
  | v => .ok (v, ledger)
termination_by structural v => v
def remapItems (files : Files) (base : Option String) (ledger : Ledger) :
    List Value → Except Failure (List Value × Ledger)
  | [] => .ok ([], ledger)
  | x :: r => do
    let (x', ledger') ← remap files base ledger x
    let (r', ledger'') ← remapItems files base ledger' r
    .ok (x' :: r', ledger'')
termination_by structural xs => xs
def remapMembers (files : Files) (base : Option String) (ledger : Ledger) :
    List (String × Value) → Except Failure (List (String × Value) × Ledger)
  | [] => .ok ([], ledger)
  | (k, x) :: r => do
    let (x', ledger') ← remap files base ledger x
    let (r', ledger'') ← remapMembers files base ledger' r
    .ok ((k, x') :: r', ledger'')
termination_by structural xs => xs
end

def copyPending (files : Files) : Nat → Value → Ledger → Except Failure (Value × Ledger)
  | 0, doc, ledger => if ledger.pending.isEmpty then .ok (doc, ledger) else .error .unfinished
  | steps + 1, doc, ledger => match ledger.pending with
    | [] => .ok (doc, ledger)
    | p :: rest => do
      let v ← files.value p.source
      let (v', ledger') ← remap files (some p.source.file) { ledger with pending := rest } v
      match Tree.set? p.target v' doc with
      | some doc' => copyPending files steps doc' ledger'
      | none =>
        .error (.resolve (.unresolvable (p.source.file ++ p.source.place.toPointer)))

/- One self-contained document, with what was decided. Every source is copied at most once, and each is
named by a reference of some file, so the references of all files bound the copies. -/
def bundled (root : Value) (externals : List (String × Value)) : Except Failure (Value × Ledger) := do
  let files := Files.ofList root externals
  let bound := root.pointers.length + files.externals.foldl (fun n e => n + e.2.pointers.length) 0 + 1
  let (doc, ledger) ← remap files none ⟨[], [], []⟩ root
  copyPending files bound doc ledger

def internalize (root : Value) (externals : List (String × Value)) : Except Failure Value :=
  (bundled root externals).map Prod.fst

end ApiGraph.Bundle
