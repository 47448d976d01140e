import ApiGraph.Proofs.Turns

/-! What bundling adds. A copy goes where the root had nothing, so that writing it only adds: members
after the members of an object, elements after those of a list, and members of what was null. So every
text, number and truth value of the root stays where it is, unless it is the pointer of a reference. -/
namespace ApiGraph.Json.Value

def isScalar : Value → Bool
  | .str _ => true
  | .num _ => true
  | .bool _ => true
  | _ => false

end ApiGraph.Json.Value

namespace ApiGraph.Bundle
open Json ApiGraph.Tree

/- A value and what it may become by additions. -/
inductive Grown : Value → Value → Prop
  | same (v : Value) : Grown v v
  | opened (members : Members) : Grown .null (.obj members)
  | list {items items' : List Value} (longer : items.length ≤ items'.length)
      (each : ∀ (i : Nat) (x y : Value), items[i]? = some x → items'[i]? = some y → Grown x y) :
      Grown (.arr items) (.arr items')
  | object {members members' : Members} (order : Entries.keys members <+: Entries.keys members')
      (each : ∀ (k : String) (x y : Value), members.lookup k = some x → members'.lookup k = some y → Grown x y) :
      Grown (.obj members) (.obj members')

section Grown
variable {v w x node node' : Value} {l : List String}

theorem grownScalar (grown : Grown v w) (scalar : v.isScalar = true) : w = v := by
  cases grown with
  | same => rfl
  | _ => simp [Value.isScalar] at scalar

theorem grownList {items : List Value} (grown : Grown (.arr items) w) :
    ∃ items', w = .arr items' ∧ items.length ≤ items'.length ∧
      ∀ (i : Nat) x, items[i]? = some x → ∃ y, items'[i]? = some y ∧ Grown x y := by
  cases grown with
  | same => exact ⟨items, rfl, Nat.le_refl _, fun i x held => ⟨x, held, .same x⟩⟩
  | list longer each =>
    refine ⟨_, rfl, longer, fun i x held => ?_⟩
    obtain ⟨small, _⟩ := List.getElem?_eq_some_iff.mp held
    have there := List.getElem?_eq_getElem (Nat.lt_of_lt_of_le small longer)
    exact ⟨_, there, each i x _ held there⟩

theorem grownObject {members : Members} (grown : Grown (.obj members) w) :
    ∃ members', w = .obj members' ∧ Entries.keys members <+: Entries.keys members' ∧
      ∀ k x, members.lookup k = some x → ∃ y, members'.lookup k = some y ∧ Grown x y := by
  cases grown with
  | same => exact ⟨members, rfl, List.prefix_refl _, fun k x held => ⟨x, held, .same x⟩⟩
  | object order each =>
    refine ⟨_, rfl, order, fun k x held => ?_⟩
    have old : k ∈ Entries.keys members := Entries.hasIff.mp (by simp [Entries.has, held])
    obtain ⟨y, there⟩ := Option.isSome_iff_exists.mp (Entries.hasIff.mpr (order.subset old))
    exact ⟨y, there, each k x y held there⟩

theorem grownWalk (grown : Grown v w) (held : walk? l v = some x) :
    ∃ y, walk? l w = some y ∧ Grown x y := by
  induction l generalizing v w with
  | nil =>
    cases held
    exact ⟨w, rfl, grown⟩
  | cons s r ih =>
    obtain ⟨z, step, rest⟩ := Option.bind_eq_some_iff.mp held
    cases v with
    | obj members =>
      obtain ⟨members', rfl, _, each⟩ := grownObject grown
      obtain ⟨z', step', more⟩ := each s z step
      obtain ⟨y, reads, last⟩ := ih more rest
      exact ⟨y, by simp [walk?, step?, step', reads], last⟩
    | arr items =>
      obtain ⟨items', rfl, _, each⟩ := grownList grown
      obtain ⟨i, named, found⟩ := Option.bind_eq_some_iff.mp step
      obtain ⟨z', found', more⟩ := each i z found
      obtain ⟨y, reads, last⟩ := ih more rest
      exact ⟨y, by simp [walk?, step?, named, found', reads], last⟩
    | _ => simp [step?] at step

theorem grownPut {members members' : Members} {s : String} {y : Value}
    (grown : Grown (.obj members) (.obj members'))
    (fits : ∀ x, members.lookup s = some x → Grown x y) :
    Grown (.obj members) (.obj (Entries.put s y members')) := by
  obtain ⟨same, here, order, each⟩ := grownObject grown
  cases here
  have further : Entries.keys members' <+: Entries.keys (Entries.put s y members') := by
    rcases Entries.keysPut s y members' with kept | ⟨_, added⟩
    · exact kept ▸ List.prefix_refl _
    · rw [added]
      exact List.prefix_append _ _
  refine .object (order.trans further) fun k x z held found => ?_
  rcases Entries.lookupPutCases found with ⟨rfl, rfl⟩ | ⟨_, old⟩
  · exact fits x held
  · obtain ⟨z', there, more⟩ := each k x held
    cases there.symm.trans old
    exact more

theorem grownElements {items items' items'' : List Value} (grown : Grown (.arr items) (.arr items'))
    (longer : items'.length ≤ items''.length)
    (fits : ∀ (i : Nat) x y, items[i]? = some x → items''[i]? = some y → items'[i]? = some y ∨ Grown x y) :
    Grown (.arr items) (.arr items'') := by
  obtain ⟨same, here, long, each⟩ := grownList grown
  cases here
  refine .list (Nat.le_trans long longer) fun i x y held found => ?_
  rcases fits i x y held found with old | more
  · obtain ⟨z, there, more⟩ := each i x held
    cases there.symm.trans old
    exact more
  · exact more

theorem grownWrote (wrote : Wrote w l node node') (grown : Grown v node)
    (free : walk? l v = none) : Grown v node' := by
  induction wrote generalizing v with
  | here => contradiction
  | @member s r node members y isObject below ih =>
    cases v with
    | null => exact .opened _
    | obj old =>
      obtain ⟨_, rfl, _, each⟩ := grownObject grown
      cases isObject
      refine grownPut grown fun x held => ?_
      obtain ⟨z, there, more⟩ := each s x held
      rw [there, Option.getD_some] at ih
      exact ih more (by simpa [walk?, step?, held] using free)
    | arr items =>
      obtain ⟨_, rfl, _⟩ := grownList grown
      contradiction
    | _ =>
      cases grownScalar grown rfl
      contradiction
  | @element s r items i item y named held below ih =>
    cases v with
    | arr old =>
      refine grownElements grown (by simp) fun j x z before after => ?_
      by_cases here : j = i
      · subst here
        obtain ⟨_, same, _, each⟩ := grownList grown
        cases same
        obtain ⟨_, there, more⟩ := each j x before
        cases there.symm.trans held
        obtain ⟨small, _⟩ := List.getElem?_eq_some_iff.mp held
        rw [List.getElem?_set_self small] at after
        cases after
        exact .inr (ih more (by simpa [walk?, step?, named, before] using free))
      · rw [List.getElem?_set_ne (Ne.symm here)] at after
        exact .inl after
    | _ => cases grown
  | @appended s items named =>
    cases v with
    | arr old =>
      refine grownElements grown (by simp) fun j x z before after => .inl ?_
      obtain ⟨_, same, longer, _⟩ := grownList grown
      cases same
      obtain ⟨small, _⟩ := List.getElem?_eq_some_iff.mp before
      rwa [List.getElem?_append_left (Nat.lt_of_lt_of_le small longer)] at after
    | _ => cases grown

end Grown

def PointerAt (v : Value) (l : List String) : Prop :=
  ∃ around text, l = around ++ ["$ref"] ∧ (walk? around v).bind refOf = some text

section Rewritten
variable {final : List (Key × String)} {base : Option String} {v x : Value} {l : List String}

theorem renamedMember (final : List (Key × String)) (base : Option String) {text : String}
    (named : refOf v = some text) (s : String) :
    if s = "$ref" then step? v s = some (.str text) ∧
        ∃ q, step? (renamed final base v) s = some (.str q)
      else step? (renamed final base v) s = step? v s := by
  cases v with
  | obj members =>
    have held : (members.lookup "$ref").bind Value.str? = some text := named
    obtain ⟨y, there, told⟩ := Option.bind_eq_some_iff.mp held
    cases y <;> simp only [Value.str?, reduceCtorEq, Option.some.injEq] at told
    subst told
    obtain ⟨q, same | same⟩ := renamedReference final base named
    · rw [same]
      split
      · rename_i key
        subst key
        exact ⟨there, q, Entries.lookupPut _ _ _⟩
      · rename_i other
        exact Entries.lookupPutOther other _ _
    · rw [same]
      split
      · rename_i key
        subst key
        exact ⟨there, _, there⟩
      · rfl
  | _ => simp [refOf, Value.textAt?, Value.get?] at named

theorem renamedFree (free : walk? l v = none) : walk? l (renamed final base v) = none := by
  induction l generalizing v with
  | nil => contradiction
  | cons s r ih =>
    rw [walk?] at free ⊢
    cases named : refOf v with
    | none =>
      rw [renamedStep named]
      cases held : step? v s with
      | none => rfl
      | some y => exact ih (by simpa [held] using free)
    | some text =>
      have told := renamedMember final base named s
      split at told
      · obtain ⟨before, q, after⟩ := told
        rw [after]
        cases r with
        | nil => simp [before, walk?] at free
        | cons => rfl
      · rwa [told]

theorem renamedScalar (held : walk? l v = some x) (scalar : x.isScalar = true)
    (other : ¬ PointerAt v l) : walk? l (renamed final base v) = some x := by
  induction l generalizing v with
  | nil =>
    cases held
    cases x with
    | obj members => contradiction
    | arr items => contradiction
    | _ => rfl
  | cons s r ih =>
    obtain ⟨y, step, rest⟩ := Option.bind_eq_some_iff.mp held
    rw [walk?]
    cases named : refOf v with
    | none =>
      rw [renamedStep named, step]
      refine ih rest fun inside => ?_
      obtain ⟨around, text, split, reference⟩ := inside
      refine other ⟨s :: around, text, ?_, ?_⟩
      · rw [split, List.cons_append]
      · simpa [walk?, step] using reference
    | some text =>
      have told := renamedMember final base named s
      split at told
      · rename_i key
        cases told.1.symm.trans step
        cases r with
        | nil => exact absurd ⟨[], text, by rw [key]; rfl, named⟩ other
        | cons => contradiction
      · rw [told, step]
        exact rest

end Rewritten

section Runs
variable {files : Files} {done : List Key} {s t : Stage} {r : Rewriting} {rs : List Rewriting}
  {doc : Value}

theorem turnGrows (turn : Turn files s r t) (sound : Sound files done s.ledger)
    (free : ∀ l, walk? l files.root = none → walk? l doc = none) (grown : Grown doc s.doc) :
    Grown doc t.doc := by
  cases turn with
  | @copy _ _ p _ _ _ _ _ first value run written =>
    obtain ⟨_, _, _, absent⟩ := sound.pending p (by simp [first])
    exact grownWrote (writeFollowed written) grown (free _ absent)

theorem turnsGrow (turns : Turns files s rs t) (sound : Sound files done s.ledger)
    (free : ∀ l, walk? l files.root = none → walk? l doc = none) (grown : Grown doc s.doc) :
    Grown doc t.doc := by
  induction turns generalizing done with
  | none => exact grown
  | more first rest ih =>
    obtain ⟨p, _, sound', _⟩ := turnSound first sound
    exact ih sound' (turnGrows first sound free grown)

theorem bundleGrown {root bundle : Value} {externals : List (String × Value)}
    (done : internalize root externals = .ok bundle) : ∃ doc m,
      remap (Files.ofList root externals) none ⟨[], [], []⟩ root = .ok (doc, m) ∧
      renamed m.assigned none root = doc ∧ Grown doc bundle := by
  obtain ⟨rs, run⟩ := internalizeBundles done
  cases run with
  | @run doc m _ _ first turns empty =>
    have rewrites := remapped (soundStart _) first
    have same := rewrites.renames m.assigned (.refl _)
    have free : ∀ l, walk? l (Files.ofList root externals).root = none → walk? l doc = none :=
      fun l absent => same ▸ renamedFree absent
    exact ⟨doc, m, first, same, turnsGrow turns rewrites.sound free (.same doc)⟩

end Runs

/- Bundling only adds to the root: a text, a number or a truth value stays where it is, unless it is
the pointer of a reference; and what the rewritten root holds is only added to. -/
theorem bundlingAdds {root bundle : Value} {externals : List (String × Value)}
    (done : internalize root externals = .ok bundle) :
    (∀ l v, Tree.get? l root = some v → v.isScalar = true → ¬ PointerAt root l.segments →
      Tree.get? l bundle = some v) ∧
    ∃ doc m, remap (Files.ofList root externals) none ⟨[], [], []⟩ root = .ok (doc, m) ∧
      Grown doc bundle := by
  obtain ⟨doc, m, first, same, grown⟩ := bundleGrown done
  refine ⟨fun l v held scalar other => ?_, doc, m, first, grown⟩
  have kept : walk? l.segments doc = some v := same ▸ renamedScalar held scalar other
  obtain ⟨w, reads, more⟩ := grownWalk grown kept
  cases grownScalar more scalar
  exact reads

def stockRoot : Value := .obj [
  ("tags", .arr [.str "new"]),
  ("extra", .null),
  ("schemas", .obj [("Id", .obj [("maximum", .num (.whole 9)), ("nullable", .bool true)])]),
  ("uses", .arr [reference "parts.yaml#/tags/1", reference "parts.yaml#/extra/note",
    reference "./parts.yaml#/schemas/Id"])]

def stockFiles : List (String × Value) := [("./parts.yaml", .obj [
  ("tags", .arr [.null, .str "old"]),
  ("extra", .obj [("note", .str "n")]),
  ("schemas", .obj [("Id", .obj [("type", .str "string")])])])]

def stockPlace : Location := ⟨["schemas", "Id", "maximum"]⟩

theorem stockAdds : ∃ bundle, internalize stockRoot stockFiles = .ok bundle ∧
    ((Tree.get? ⟨["tags", "1"]⟩ bundle).bind Value.str? = some "old" ∧
      (Tree.get? ⟨["extra", "note"]⟩ bundle).bind Value.str? = some "n" ∧
      (Tree.get? ⟨["schemas", "Id_1", "type"]⟩ bundle).bind Value.str? = some "string") ∧
    Tree.get? stockPlace stockRoot = some (.num (.whole 9)) ∧
    ¬ PointerAt stockRoot stockPlace.segments ∧
    Tree.get? stockPlace bundle = some (.num (.whole 9)) ∧
    ∃ doc m, remap (Files.ofList stockRoot stockFiles) none ⟨[], [], []⟩ stockRoot = .ok (doc, m) ∧
      Grown doc bundle := by
  obtain ⟨bundle, done, copied⟩ : ∃ bundle, internalize stockRoot stockFiles = .ok bundle ∧
      ((Tree.get? ⟨["tags", "1"]⟩ bundle).bind Value.str? = some "old" ∧
        (Tree.get? ⟨["extra", "note"]⟩ bundle).bind Value.str? = some "n" ∧
        (Tree.get? ⟨["schemas", "Id_1", "type"]⟩ bundle).bind Value.str? = some "string") := by
    decide +kernel
  have other : ¬ PointerAt stockRoot stockPlace.segments := by
    intro ⟨around, text, split, _⟩
    have last := congrArg List.getLast? split
    simp [stockPlace] at last
  obtain ⟨kept, grown⟩ := bundlingAdds done
  exact ⟨bundle, done, copied, rfl, other, kept stockPlace _ rfl rfl other, grown⟩

end ApiGraph.Bundle
