import ApiGraph.Proofs.Uplifting

/-! No aliases are left among the patterns. After uplifting every entry of the paths is an item of its
own, so each path item stands at its pattern and each operation under one pattern only; uplifting
again finds nothing to do. -/
namespace ApiGraph.Uplift
open Json ApiGraph.Tree Resolve PathItems Operation Declaration

section Uplifted
variable {pattern : String} {doc doc' : Value}

theorem upliftEntryLawful {moved : Bool} (lawful : doc.lawful = true)
    (run : upliftEntry pattern doc = .ok (doc', moved)) : doc'.lawful = true := by
  rw [upliftEntryLift run]
  cases made : liftOf? pattern doc with
  | none => exact lawful
  | some m =>
    have fits := lawfulAt lawful (liftSource made).item
    refine setLawful fits ?_
    split
    · exact setLawful rfl lawful
    · exact lawful

theorem upliftEntriesLawful {patterns : List String} {count n : Nat} (lawful : doc.lawful = true)
    (run : upliftEntries patterns count doc = (doc', .ok n)) : doc'.lawful = true := by
  induction patterns generalizing count doc with
  | nil =>
    cases run
    exact lawful
  | cons pattern more ih =>
    simp only [upliftEntries] at run
    cases one : upliftEntry pattern doc with
    | error e => simp [one] at run
    | ok result =>
      simp only [one] at run
      exact ih (upliftEntryLawful lawful one) run

theorem upliftLawful {n : Nat} (lawful : doc.lawful = true)
    (run : uplift doc = (doc', .ok n)) : doc'.lawful = true := by
  unfold uplift at run
  split at run
  · exact upliftEntriesLawful lawful run
  · cases run
    exact lawful

theorem entriesRoot {entries : Members} (here : doc.membersAt? "paths" = some entries) :
    Tree.get? pathsRoot doc = some (.obj entries) :=
  childAt (l := .root) rfl (Value.membersAtSome here)

theorem entriesOnce {entries : Members} (lawful : doc.lawful = true)
    (here : doc.membersAt? "paths" = some entries) : (Entries.keys entries).Nodup :=
  (Value.lawfulObject.mp (lawfulAt lawful (entriesRoot here))).1

theorem upliftEntryPlainly {entries : Members} (plain : Plain doc)
    (here : doc.membersAt? "paths" = some entries) (pattern : String) :
    upliftEntry pattern doc = .ok (doc, false) := by
  have slot : Tree.get? (pathsRoot.child pattern) doc = entries.lookup pattern := by
    rw [getChild, entriesRoot here]
    rfl
  simp only [upliftEntry, slot]
  cases held : entries.lookup pattern with
  | none => rfl
  | some item => simp [resolvePlain (plain entries pattern item here held), Resolved.location?]

theorem upliftPlainly (plain : Plain doc) : uplift doc = (doc, .ok 0) := by
  unfold uplift
  cases here : doc.membersAt? "paths" with
  | none => rfl
  | some entries =>
    simp only
    induction Entries.keys entries with
    | nil => rfl
    | cons pattern more ih =>
      simp only [upliftEntries, upliftEntryPlainly plain here pattern]
      exact ih

/- Every pattern owns its item: no entry is a reference, the path items stand at places of their own
and so do the operations, and there is nothing to uplift. -/
structure Owned (doc : Value) : Prop where
  plain : ∀ entries, doc.membersAt? "paths" = some entries → ∀ e ∈ entries, refOf e.2 = none
  items : ∃ items, pathItems doc = .ok items ∧ (items.map Prod.snd).Nodup ∧
    ∀ e ∈ items, e.2 = ⟨["paths", e.1]⟩
  operations : ∃ found, operations doc = .ok found ∧
    ∀ f ∈ found, ∀ g ∈ found, f.item.child f.verb = g.item.child g.verb → f.pattern = g.pattern
  again : uplift doc = (doc, .ok 0)

theorem patternOfFound {e : String × Value} {f : Found} (mem : f ∈ operationsOf e) :
    f.pattern = e.1 := by
  obtain ⟨verb, _, made⟩ := List.mem_filterMap.mp mem
  obtain ⟨operation, _, rfl⟩ := Option.map_eq_some_iff.mp made
  rfl

theorem plainOwned (lawful : doc.lawful = true) (plain : Plain doc) : Owned doc where
  plain entries here e mem :=
    plain entries e.1 e.2 here (Entries.lookupOfMem (entriesOnce lawful here) mem)
  items := by
    refine ⟨_, pathItemsPlain lawful plain, ?_, fun e mem => ?_⟩
    · rw [List.map_map]
      have patterns : ((listed doc).map Prod.fst).Nodup := by
        cases here : doc.membersAt? "paths" with
        | none => simp [listed, here]
        | some entries =>
          simp only [listed, here, Option.getD_some]
          exact (entriesOnce lawful here).sublist (List.filter_sublist.map Prod.fst)
      refine (List.pairwise_map.mp patterns).map _ fun {e e'} other same => other ?_
      simpa using same
    · obtain ⟨x, _, rfl⟩ := List.mem_map.mp mem
      rfl
  operations := by
    refine ⟨_, operationsPlain lawful plain, fun f mem g mem' same => ?_⟩
    obtain ⟨e, _, inside⟩ := List.mem_flatMap.mp mem
    obtain ⟨e', _, inside'⟩ := List.mem_flatMap.mp mem'
    rw [itemOfFound inside, itemOfFound inside'] at same
    rw [patternOfFound inside, patternOfFound inside']
    simp only [Location.child, List.cons_append, List.nil_append, Location.mk.injEq,
      List.cons.injEq] at same
    exact same.2.1
  again := upliftPlainly plain

end Uplifted

/- Where uplifting succeeds every pattern owns its item. -/
theorem upliftOwns {doc doc' : Value} {n : Nat} (lawful : doc.lawful = true)
    (run : uplift doc = (doc', .ok n)) : Owned doc' :=
  plainOwned (upliftLawful lawful run) (upliftPlain run)

def chainedDocument : Value :=
  .obj [("paths", .obj [("/a", reference "#/x-items/S"), ("/b", reference "#/paths/~1a"),
      ("/c", reference "#/x-items")]),
    ("x-items", .obj [("S", .obj [("get", .obj [("operationId", .str "s")])])])]

theorem chainOwned : chainedDocument.lawful = true ∧
    ∃ doc', uplift chainedDocument = (doc', .ok 3) ∧ Owned doc' := by
  have lawful : chainedDocument.lawful = true := by decide
  have run : uplift chainedDocument = ((uplift chainedDocument).1, .ok 3) :=
    upliftRun (by decide +kernel)
  exact ⟨lawful, _, run, upliftOwns lawful run⟩

end ApiGraph.Uplift
