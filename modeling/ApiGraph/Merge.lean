import ApiGraph.Json.Measure

/-! Folding fragments into one document. A fragment's objects merge member by member, its lists add
the elements that are new, any other value replaces what was there. A key may carry a directive:
`!name` replaces the member or, with null, deletes it; `^old` with a text moves the member `old`
under that name; `=name` overwrites a list position by position. -/
namespace ApiGraph.Merge
open Json

inductive Directive where
  | replace (name : String)
  | rename (old : String)
  | positional (name : String)
  | plain (name : String)
  deriving DecidableEq, Repr

def Directive.ofKey (key : String) : Directive :=
  match key.toList with
  | '!' :: r => .replace (String.ofList r)
  | '^' :: r => .rename (String.ofList r)
  | '=' :: r => .positional (String.ofList r)
  | _ => .plain key

def overlay : List Value → List Value → List Value
  | _ :: old, x :: new => x :: overlay old new
  | [], new => new
  | old, [] => old

def addNew (items : List Value) (x : Value) : List Value :=
  if items.contains x then items else items ++ [x]

/- One member of a fragment applied to an object. `merge` merges values one level further down; a
value with nothing to merge into is merged into null, so that directives inside it take effect. -/
def applyMember (merge : Value → Value → Value) (target : Members) (key : String) (v : Value) :
    Members :=
  match Directive.ofKey key with
  | .replace name =>
    if v.isNull then Entries.erase name target else Entries.put name (merge .null v) target
  | .rename old => match v with
    | .str new => match target.lookup old with
      | some moved =>
        let rest := Entries.erase old target
        Entries.put new (merge ((rest.lookup new).getD .null) moved) rest
      | none => target
    | _ => target
  | .positional name => match target.lookup name, v with
    | some (.arr old), .arr items =>
      Entries.put name (.arr (overlay old (items.map (merge .null)))) target
    | _, _ => Entries.put name (merge .null v) target
  | .plain name => match target.lookup name with
    | some old => Entries.put name (merge old v) target
    | none => Entries.put name (merge .null v) target

def mergeWithin : Nat → Value → Value → Value
  | 0, target, _ => target
  | level + 1, target, source => match source with
    | .obj members =>
      .obj (members.foldl (fun acc e => applyMember (mergeWithin level) acc e.1 e.2)
        (target.members?.getD []))
    | .arr items => match target with
      | .arr old => .arr (items.foldl (fun acc x => addNew acc (mergeWithin level .null x)) old)
      | _ => .arr (items.map (mergeWithin level .null))
    | v => v

/- `source` merged into `target`. Every step down takes both to a member of one of the two, so the
deeper of them bounds the levels. -/
def merge (target source : Value) : Value :=
  mergeWithin (max target.depth source.depth + 1) target source

def mergeFragments (fragments : List Value) : Value := fragments.foldl merge (.obj [])

end ApiGraph.Merge
