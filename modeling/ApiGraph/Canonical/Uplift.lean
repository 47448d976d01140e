import ApiGraph.Resolve

/-! Path items of their own. An entry of `paths` that refers to a shared path item takes the item
over, and the place it came from refers back to the entry. Where the item already lies under `paths`
the entry gets a copy, so that every pattern owns its operations. -/
namespace ApiGraph.Uplift
open Json Resolve

def pathsRoot : Location := ⟨["paths"]⟩

def upliftEntry (pattern : String) (doc : Value) : Except ResolveError (Value × Bool) :=
  let slot := pathsRoot.child pattern
  match Tree.get? slot doc with
  | none => .ok (doc, false)
  | some entry => match resolve doc entry with
    | .error e => .error e
    | .ok r => match r.location? with
      | none => .ok (doc, false)
      | some target =>
        if target.startsWith pathsRoot then
          .ok (Tree.set slot ((Tree.get? target doc).getD .null) doc, true)
        else match Tree.get? target doc with
          | none => .error (.unresolvable target.toPointer)
          | some item =>
            .ok (Tree.set slot item (Tree.set target (reference slot.toPointer) doc), true)

/- An error leaves the entries before it uplifted. -/
def upliftEntries : List String → Nat → Value → Value × Except ResolveError Nat
  | [], count, doc => (doc, .ok count)
  | pattern :: more, count, doc => match upliftEntry pattern doc with
    | .error e => (doc, .error e)
    | .ok (doc', moved) => upliftEntries more (if moved then count + 1 else count) doc'

def uplift (doc : Value) : Value × Except ResolveError Nat :=
  match doc.membersAt? "paths" with
  | some entries => upliftEntries (Entries.keys entries) 0 doc
  | none => (doc, .ok 0)

end ApiGraph.Uplift
