import ApiGraph.Proofs.Directives

/-! A fragment with one directive, in objects along a path that the document has too. It patches the
object at the end of the path: what it does there is told for each directive, and beside the names that
the directive gives everything keeps its value and its place. -/
namespace ApiGraph.Merge
open Json ApiGraph.Tree

def nested (path : List String) (key : String) (v : Value) : Value :=
  path.foldr (fun s inner => .obj [(s, inner)]) (.obj [(key, v)])

def Along (path : List String) (doc : Value) : Prop :=
  ∀ q, q <+: path → ∃ members, walk? q doc = some (.obj members)

structure Beside (names : List String) (before after : Members) : Prop where
  lookups : ∀ k, k ∉ names → after.lookup k = before.lookup k
  order : (Entries.keys after).filter (!names.contains ·) =
    (Entries.keys before).filter (!names.contains ·)

structure Untouched (path names : List String) (before after : Value) : Prop where
  elsewhere : ∀ l, ¬ l <+: path → (∀ k ∈ names, ¬ path ++ [k] <+: l) → walk? l after = walk? l before
  around : ∀ q s, q ++ [s] <+: path → ∃ members members', walk? q before = some (.obj members) ∧
    walk? q after = some (.obj members') ∧ Entries.keys members' = Entries.keys members
  inside : ∃ members members', walk? path before = some (.obj members) ∧
    walk? path after = some (.obj members') ∧ Beside names members members'

namespace Beside
variable {names : List String} {before after : Members}

theorem put {k : String} (named : k ∈ names) (v : Value) (members : Members) :
    Beside names members (Entries.put k v members) where
  lookups j other := Entries.lookupPutOther (by rintro rfl; exact other named) v members
  order := by
    rcases Entries.keysPut k v members with same | ⟨_, added⟩
    · rw [same]
    · rw [added, List.filter_append, List.filter_singleton]
      simp [named]

theorem erase {k : String} (named : k ∈ names) {members : Members}
    (once : (Entries.keys members).Nodup) : Beside names members (Entries.erase k members) where
  lookups j other := Entries.lookupEraseOther (by rintro rfl; exact other named) members
  order := by
    rw [Entries.keysErase, once.erase_eq_filter, List.filter_filter]
    refine List.filter_congr fun j _ => ?_
    by_cases same : j = k
    · simp [same, named]
    · simp [same]

theorem trans {middle : Members} (h : Beside names before middle) (h' : Beside names middle after) :
    Beside names before after :=
  ⟨fun k other => (h'.lookups k other).trans (h.lookups k other), h'.order.trans h.order⟩

end Beside

theorem Along.here {path : List String} {doc : Value} (along : Along path doc) :
    ∃ members, doc = .obj members := by
  obtain ⟨members, found⟩ := along [] List.nil_prefix
  exact ⟨members, Option.some.inj found⟩

theorem Along.down {s : String} {r : List String} {members : Members}
    (along : Along (s :: r) (.obj members)) :
    ∃ x, members.lookup s = some x ∧ Along r x := by
  obtain ⟨inner, found⟩ := along [s] (List.cons_prefix_cons.mpr ⟨rfl, List.nil_prefix⟩)
  obtain ⟨x, held, rest⟩ := Option.bind_eq_some_iff.mp found
  refine ⟨x, held, fun q before => ?_⟩
  obtain ⟨inner', found'⟩ := along (s :: q) (List.cons_prefix_cons.mpr ⟨rfl, before⟩)
  obtain ⟨x', held', rest'⟩ := Option.bind_eq_some_iff.mp found'
  cases held.symm.trans held'
  exact ⟨inner', rest'⟩

theorem Along.placed {path : List String} {doc : Value} (along : Along path doc) :
    position doc path = path.map .key := by
  induction path generalizing doc with
  | nil => exact positionNil doc
  | cons s r ih =>
    obtain ⟨members, rfl⟩ := along.here
    obtain ⟨x, held, further⟩ := along.down
    rw [positionMember held, ih further, List.map_cons]

theorem mergeNested {path : List String} {target : Value} {members : Members}
    (plain : ∀ s ∈ path, Directive.ofKey s = .plain s) (along : Along path target)
    (held : walk? path target = some (.obj members)) (key : String) (v : Value) :
    Wrote (.obj (applyMember merge members key v)) path target (merge target (nested path key v)) := by
  induction path generalizing target with
  | nil =>
    cases held
    rw [nested, List.foldr_nil, mergeObject]
    exact .here _
  | cons s r ih =>
    obtain ⟨plainHere, plainBelow⟩ := List.forall_mem_cons.mp plain
    obtain ⟨outer, rfl⟩ := along.here
    obtain ⟨x, found, further⟩ := along.down
    have rest : walk? r x = some (.obj members) := by
      simpa [walk?, step?, found] using held
    have merged : merge (.obj outer) (nested (s :: r) key v) =
        .obj (Entries.put s (merge x (nested r key v)) outer) := by
      rw [nested, List.foldr_cons, mergeObject]
      simp only [Value.members?, Option.getD_some, List.foldl_cons, List.foldl_nil, applyMember,
        plainHere, found]
      rfl
    rw [merged]
    refine .member rfl ?_
    rw [found]
    exact ih plainBelow further rest

theorem keysWrote {path q : List String} {s : String} {v doc doc' : Value}
    (wrote : Wrote v path doc doc') (along : Along path doc) (outer : q ++ [s] <+: path) :
    ∃ members members', walk? q doc = some (.obj members) ∧ walk? q doc' = some (.obj members') ∧
      Entries.keys members' = Entries.keys members := by
  induction wrote generalizing q with
  | here => simp at outer
  | @member k r node members w isObject below ih =>
    obtain ⟨outerMembers, rfl⟩ := along.here
    cases isObject
    obtain ⟨x, held, further⟩ := along.down
    cases q with
    | nil =>
      refine ⟨_, _, rfl, rfl, ?_⟩
      rcases Entries.keysPut k w members with same | ⟨absent, _⟩
      · exact same
      · exact absurd (List.mem_map.mpr ⟨_, Entries.mem_of_lookup held, rfl⟩) absent
    | cons j q =>
      obtain ⟨rfl, deeper⟩ := List.cons_prefix_cons.mp outer
      rw [held] at ih
      simpa [walk?, step?, held] using ih further deeper
  | element =>
    obtain ⟨members, impossible⟩ := along.here
    contradiction
  | appended =>
    obtain ⟨members, impossible⟩ := along.here
    contradiction

theorem wroteSame {path : List String} {v doc doc' : Value} (wrote : Wrote v path doc doc')
    (along : Along path doc) (held : walk? path doc = some v) : doc' = doc := by
  induction wrote with
  | here => exact (Option.some.inj held).symm
  | @member k r node members w isObject below ih =>
    obtain ⟨outer, rfl⟩ := along.here
    cases isObject
    obtain ⟨x, found, further⟩ := along.down
    have rest : walk? r x = some v := by simpa [walk?, step?, found] using held
    rw [found] at ih
    cases ih further rest
    rw [Option.getD_some, Entries.putSame found]
  | element =>
    obtain ⟨members, impossible⟩ := along.here
    contradiction
  | appended =>
    obtain ⟨members, impossible⟩ := along.here
    contradiction

theorem patchUntouched {path names : List String} {before after : Value} {members members' : Members}
    (along : Along path before) (held : walk? path before = some (.obj members))
    (wrote : Wrote (.obj members') path before after) (beside : Beside names members members') :
    Untouched path names before after where
  elsewhere l outside apart := by
    by_cases below : path <+: l
    · obtain ⟨r, rfl⟩ := below
      cases r with
      | nil => exact absurd (by simp) outside
      | cons k r =>
        -- under another name of the object that was patched
        have other : k ∉ names := fun named => apart k named (by simp)
        rw [walk?_append, walk?_append, wrote.reads, held]
        simp [walk?, step?, beside.lookups k other]
    · refine (wrote.apart ⟨fun inside => below ?_, fun inside => outside ?_⟩).1
      · exact keysInside (along.placed ▸ inside)
      · exact keysAround (along.placed ▸ inside)
  around q s outer := keysWrote wrote along outer
  inside := ⟨members, members', held, wrote.reads, beside⟩

theorem replaceKey (k : String) : Directive.ofKey ("!" ++ k) = .replace k := by
  simp [Directive.ofKey, String.toList_append]

theorem renameKey (k : String) : Directive.ofKey ("^" ++ k) = .rename k := by
  simp [Directive.ofKey, String.toList_append]

theorem positionalKey (k : String) : Directive.ofKey ("=" ++ k) = .positional k := by
  simp [Directive.ofKey, String.toList_append]

theorem overlayLength (old new : List Value) :
    (overlay old new).length = max old.length new.length := by
  induction old generalizing new with
  | nil => cases new <;> simp [overlay]
  | cons x old ih =>
    cases new with
    | nil => simp [overlay]
    | cons y new => simp [overlay, ih, Nat.succ_max_succ]

theorem overlayNew {old new : List Value} {i : Nat} {x : Value} (held : new[i]? = some x) :
    (overlay old new)[i]? = some x := by
  induction old generalizing new i with
  | nil =>
    cases new with
    | nil => exact held
    | cons => exact held
  | cons y old ih =>
    cases new with
    | nil => simp at held
    | cons z new =>
      cases i with
      | zero => simpa [overlay] using held
      | succ i => exact ih held

theorem overlayOld {old new : List Value} {i : Nat} (past : new.length ≤ i) :
    (overlay old new)[i]? = old[i]? := by
  induction old generalizing new i with
  | nil => cases new <;> simp_all [overlay]
  | cons y old ih =>
    cases new with
    | nil => simp [overlay]
    | cons z new =>
      cases i with
      | zero => simp at past
      | succ i => simpa [overlay] using ih (by simpa using past)

section Patches
variable {merge : Value → Value → Value} {members : Members} {k : String} {v : Value}

theorem applyReplace (notNull : v.isNull = false) :
    applyMember merge members ("!" ++ k) v = Entries.put k (merge .null v) members := by
  simp [applyMember, replaceKey, notNull]

theorem applyDelete : applyMember merge members ("!" ++ k) .null = Entries.erase k members := by
  simp [applyMember, replaceKey, Value.isNull]

theorem applyPositional (merge : Value → Value → Value) (members : Members) (k : String) (v : Value) :
    ∃ w, applyMember merge members ("=" ++ k) v = Entries.put k w members := by
  simp only [applyMember, positionalKey]
  split
  · exact ⟨_, rfl⟩
  · exact ⟨_, rfl⟩

theorem applyOverlay {old items : List Value} (held : members.lookup k = some (.arr old)) :
    applyMember merge members ("=" ++ k) (.arr items) =
      Entries.put k (.arr (overlay old (items.map (merge .null)))) members := by
  simp [applyMember, positionalKey, held]

theorem applyRename {old new : String} (apart : old ≠ new) {x : Value}
    (held : members.lookup old = some x) :
    applyMember merge members ("^" ++ old) (.str new) =
      Entries.put new (merge ((members.lookup new).getD .null) x) (Entries.erase old members) := by
  simp [applyMember, renameKey, held, Entries.lookupEraseOther apart.symm]

theorem applyUnnamed {old new : String} (absent : members.lookup old = none) :
    applyMember merge members ("^" ++ old) (.str new) = members := by
  simp [applyMember, renameKey, absent]

end Patches

def patched (target : Value) (path : List String) (key : String) (v : Value) : Value :=
  merge target (nested path key v)

section Patched
variable {target : Value} {path : List String} {members : Members}

theorem walkMember (held : walk? path target = some (.obj members)) (k : String) :
    walk? (path ++ [k]) target = members.lookup k := by
  rw [walk?_append, held]
  cases found : members.lookup k <;> simp [walk?, step?, found]

variable (plain : ∀ s ∈ path, Directive.ofKey s = .plain s) (along : Along path target)
  (held : walk? path target = some (.obj members)) {key : String} {v : Value} {members' : Members}
include plain along held

theorem patchedHolds (made : applyMember merge members key v = members') (k : String) :
    walk? (path ++ [k]) (patched target path key v) = members'.lookup k :=
  walkMember (made ▸ (mergeNested plain along held key v).reads) k

theorem patchedUntouched {names : List String} (made : applyMember merge members key v = members')
    (beside : Beside names members members') :
    Untouched path names target (patched target path key v) :=
  patchUntouched along held (made ▸ mergeNested plain along held key v) beside

theorem patchedSame (made : applyMember merge members key v = members) :
    patched target path key v = target :=
  wroteSame (made ▸ mergeNested plain along held key v) along held

end Patched

theorem mergeNull (v : Value) : merge .null v = mergeFragments [v] := by
  change merge .null v = merge (.obj []) v
  cases v with
  | obj members => rw [mergeObject, mergeObject]; rfl
  | arr items => rw [mergeList rfl, mergeList rfl]
  | _ => rw [mergeLeaf rfl rfl, mergeLeaf rfl rfl]

structure Overlaid (old items new : List Value) : Prop where
  length : new.length = max old.length items.length
  first (i : Nat) (x : Value) (held : items[i]? = some x) : new[i]? = some (mergeFragments [x])
  kept (i : Nat) (past : items.length ≤ i) : new[i]? = old[i]?

theorem overlaid (old items : List Value) :
    Overlaid old items (overlay old (items.map (merge .null))) where
  length := by rw [overlayLength, List.length_map]
  first i x held := overlayNew (by rw [List.getElem?_map, held, Option.map_some, mergeNull])
  kept i past := overlayOld (by rwa [List.length_map])

/- What the directives do in one object of a document, each of them alone. A value that is written has
its own directives applied. -/
structure Patches (path : List String) (target : Value) : Prop where
  replaced (k : String) (v : Value) (notNull : v.isNull = false) :
    walk? (path ++ [k]) (patched target path ("!" ++ k) v) = some (mergeFragments [v]) ∧
    Untouched path [k] target (patched target path ("!" ++ k) v)
  deleted (k : String) :
    walk? (path ++ [k]) (patched target path ("!" ++ k) .null) = none ∧
    Untouched path [k] target (patched target path ("!" ++ k) .null)
  overlaid (k : String) (old items : List Value)
    (held : walk? (path ++ [k]) target = some (.arr old)) :
    ∃ new, walk? (path ++ [k]) (patched target path ("=" ++ k) (.arr items)) = some (.arr new) ∧
      Overlaid old items new
  positional (k : String) (v : Value) :
    Untouched path [k] target (patched target path ("=" ++ k) v)
  renamed (old new : String) (apart : old ≠ new) (x : Value)
    (held : walk? (path ++ [old]) target = some x) :
    walk? (path ++ [old]) (patched target path ("^" ++ old) (.str new)) = none ∧
    walk? (path ++ [new]) (patched target path ("^" ++ old) (.str new)) =
      some (match walk? (path ++ [new]) target with
        | some there => merge there x
        | none => x) ∧
    Untouched path [old, new] target (patched target path ("^" ++ old) (.str new))
  unnamed (old new : String) (absent : walk? (path ++ [old]) target = none) :
    patched target path ("^" ++ old) (.str new) = target

section Directives
variable {target : Value} {path : List String} {members : Members}
  (plain : ∀ s ∈ path, Directive.ofKey s = .plain s) (along : Along path target)
  (held : walk? path target = some (.obj members))
include plain along held

theorem patchReplaces {v : Value} (notNull : v.isNull = false) (k : String) :
    walk? (path ++ [k]) (patched target path ("!" ++ k) v) = some (mergeFragments [v]) ∧
    Untouched path [k] target (patched target path ("!" ++ k) v) := by
  have made : applyMember merge members ("!" ++ k) v = _ := applyReplace notNull
  have beside := Beside.put (List.mem_singleton_self k) (merge .null v) members
  refine ⟨?_, patchedUntouched plain along held made beside⟩
  rw [patchedHolds plain along held made, Entries.lookupPut, mergeNull]

theorem patchDeletes (once : (Entries.keys members).Nodup) (k : String) :
    walk? (path ++ [k]) (patched target path ("!" ++ k) .null) = none ∧
    Untouched path [k] target (patched target path ("!" ++ k) .null) := by
  have made : applyMember merge members ("!" ++ k) .null = _ := applyDelete
  have beside := Beside.erase (List.mem_singleton_self k) once
  refine ⟨?_, patchedUntouched plain along held made beside⟩
  rw [patchedHolds plain along held made, Entries.lookupErase once]

theorem patchOverlays {k : String} {old : List Value} (list : members.lookup k = some (.arr old))
    (items : List Value) :
    ∃ new, walk? (path ++ [k]) (patched target path ("=" ++ k) (.arr items)) = some (.arr new) ∧
      Overlaid old items new := by
  have made : applyMember merge members ("=" ++ k) (.arr items) = _ := applyOverlay list
  refine ⟨_, ?_, overlaid old items⟩
  rw [patchedHolds plain along held made, Entries.lookupPut]

theorem patchPlaces (k : String) (v : Value) :
    Untouched path [k] target (patched target path ("=" ++ k) v) := by
  obtain ⟨w, made⟩ := applyPositional merge members k v
  exact patchedUntouched plain along held made (.put (List.mem_singleton_self k) w members)

theorem patchRenames (once : (Entries.keys members).Nodup) {old new : String} (apart : old ≠ new)
    {x : Value} (moved : members.lookup old = some x) (alone : merge .null x = x) :
    walk? (path ++ [old]) (patched target path ("^" ++ old) (.str new)) = none ∧
    walk? (path ++ [new]) (patched target path ("^" ++ old) (.str new)) =
      some (match members.lookup new with
        | some there => merge there x
        | none => x) ∧
    Untouched path [old, new] target (patched target path ("^" ++ old) (.str new)) := by
  have made : applyMember merge members ("^" ++ old) (.str new) = _ := applyRename apart moved
  have erased : Beside [old, new] members (Entries.erase old members) := .erase (by simp) once
  have beside := erased.trans (.put (k := new) (by simp) (merge ((members.lookup new).getD .null) x) _)
  refine ⟨?_, ?_, patchedUntouched plain along held made beside⟩
  · rw [patchedHolds plain along held made, Entries.lookupPutOther apart, Entries.lookupErase once]
  · rw [patchedHolds plain along held made, Entries.lookupPut]
    cases members.lookup new with
    | none => rw [Option.getD_none, alone]
    | some there => rfl

end Directives

theorem directivesPatch {target : Value} {path : List String} (fits : target.lawful = true)
    (undirected : undirected target = true) (plain : ∀ s ∈ path, Directive.ofKey s = .plain s)
    (along : Along path target) : Patches path target := by
  obtain ⟨members, held⟩ := along path (List.prefix_refl path)
  have once := (Value.lawfulObject.mp (lawfulWalk fits held)).1
  have member := walkMember held
  constructor
  case replaced => exact fun k v notNull => patchReplaces plain along held notNull k
  case deleted => exact fun k => patchDeletes plain along held once k
  case overlaid => exact fun k old items list => patchOverlays plain along held (member k ▸ list) items
  case positional => exact fun k v => patchPlaces plain along held k v
  case renamed =>
    intro old new apart x there
    have alone := mergeSame (lawfulWalk fits there) (undirectedWalk undirected there)
    rw [member] at there ⊢
    exact patchRenames plain along held once apart there alone
  case unnamed =>
    intro old new absent
    rw [member] at absent
    exact patchedSame plain along held (applyUnnamed absent)

def stagedDocument : Value :=
  .obj [("openapi", .str "3.1.0"), ("info", .obj [("x-new", .obj [("y", .bool true)]),
    ("x-list", .arr [.str "a", .str "b"]), ("x-old", .obj [("x", .bool false)])]), ("paths", .obj [])]

theorem stagedAlong : Along ["info"] stagedDocument := by
  intro q before
  rcases List.prefix_cons_iff.mp before with rfl | ⟨r, rfl, rest⟩
  · exact ⟨_, rfl⟩
  · cases List.prefix_nil.mp rest
    exact ⟨_, rfl⟩

theorem stagedPatches : stagedDocument.lawful = true ∧ undirected stagedDocument = true ∧
    (∀ s ∈ ["info"], Directive.ofKey s = .plain s) ∧ Along ["info"] stagedDocument ∧
    Patches ["info"] stagedDocument ∧
    walk? ["info", "x-new"] (patched stagedDocument ["info"] ("^" ++ "x-old") (.str "x-new")) =
      some (.obj [("y", .bool true), ("x", .bool false)]) := by
  have fits : stagedDocument.lawful = true := by decide
  have free : undirected stagedDocument = true := by decide
  have plain : ∀ s ∈ ["info"], Directive.ofKey s = .plain s := by decide
  have patches := directivesPatch fits free plain stagedAlong
  obtain ⟨_, moved, _⟩ := patches.renamed "x-old" "x-new" (by decide) _ rfl
  exact ⟨fits, free, plain, stagedAlong, patches, moved⟩

end ApiGraph.Merge
