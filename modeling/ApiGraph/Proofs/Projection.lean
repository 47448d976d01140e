import ApiGraph.Proofs.Bundling
import ApiGraph.Proofs.Directives
import ApiGraph.Proofs.StatedNames

/-! Generating again from the document of a graph. Merged alone, without a directive, a document stays
what it is; it has no path item that is a reference, every schema has its title, and its names are
stated. So it is its own result, unless bundling comes across a reference to a file that was hidden
inside another reference before, or a tag was lost to the id of an operation. -/
namespace ApiGraph.Tree
open Json Merge

theorem Wrote.undirected {v node node' : Value} {l : List String} (wrote : Wrote v l node node')
    (mine : undirected v = true) (before : undirected node = true)
    (keys : ∀ s k, s ++ [k] <+: l → walk? (s ++ [k]) node = none → Directive.ofKey k = .plain k) :
    undirected node' = true := by
  induction wrote with
  | here => exact mine
  | @member k r node members w isObject below ih =>
    have held : Merge.undirected (.obj members) = true := by
      cases node <;> simp only [opened, reduceCtorEq, Value.obj.injEq] at isObject
      · exact isObject ▸ rfl
      · exact isObject ▸ before
    have walked := (positionOpened isObject []).2
    cases there : members.lookup k with
    | some x =>
      rw [there, Option.getD_some] at below ih
      obtain ⟨key, inner⟩ := undirectedObject.mp held _ (Entries.mem_of_lookup there)
      refine undirectedPut held key (ih inner fun s k' inside absent => ?_)
      refine keys (k :: s) k' (List.cons_prefix_cons.mpr ⟨rfl, inside⟩) ?_
      rw [List.cons_append, walked, there]
      exact absent
    | none =>
      rw [there, Option.getD_none] at ih
      refine undirectedPut held (keys [] k (by simp) (by rw [List.nil_append, walked, there]; rfl))
        (ih rfl fun s k' inside _ => ?_)
      refine keys (k :: s) k' (List.cons_prefix_cons.mpr ⟨rfl, inside⟩) ?_
      rw [List.cons_append, walked, there]
      rfl
  | @element k r items i item w named held below ih =>
    have inner := undirectedList.mp before item (List.mem_of_getElem? held)
    have written := ih inner fun s k' inside absent =>
      keys (k :: s) k' (List.cons_prefix_cons.mpr ⟨rfl, inside⟩)
        (by simpa [walk?, step?, named, held] using absent)
    refine undirectedList.mpr fun y mem => ?_
    rcases List.mem_or_eq_of_mem_set mem with old | rfl
    · exact undirectedList.mp before y old
    · exact written
  | appended =>
    refine undirectedList.mpr fun y mem => ?_
    rcases List.mem_append.mp mem with old | new
    · exact undirectedList.mp before y old
    · exact List.mem_singleton.mp new ▸ mine

theorem undirectedSet {l : Location} {v doc : Value} (mine : undirected v = true)
    (before : undirected doc = true) (keys : ∀ s k, s ++ [k] <+: l.segments →
      walk? (s ++ [k]) doc = none → Directive.ofKey k = .plain k) :
    undirected (Tree.set l v doc) = true := by
  unfold Tree.set
  cases written : set? l v doc with
  | none => exact before
  | some doc' => exact (writeFollowed written).undirected mine before keys

end ApiGraph.Tree

namespace ApiGraph.Bundle
open Json

mutual
theorem remapLocal {files : Files} {ledger : Ledger} (v : Value)
    (mine : ∀ text ∈ outer v, sourceOf none text = .ok none) :
    remap files none ledger v = .ok (v, ledger) := by
  match v with
  | .arr items =>
    rw [remap, remapLocalItems items (by rw [outer] at mine; exact mine)]
    rfl
  | .obj members =>
    rw [remap]
    split
    · rename_i text named
      rw [mine text (by rw [outerReference named]; exact List.mem_singleton.mpr rfl)]
      rfl
    · rename_i plain
      rw [outer] at mine
      simp only [plain] at mine
      rw [remapLocalMembers members mine]
      rfl
  | .null | .bool _ | .num _ | .str _ => rfl
theorem remapLocalItems {files : Files} {ledger : Ledger} (items : List Value)
    (mine : ∀ text ∈ outerItems items, sourceOf none text = .ok none) :
    remapItems files none ledger items = .ok (items, ledger) := by
  match items with
  | [] => rfl
  | x :: r =>
    simp only [outerItems, List.forall_mem_append] at mine
    rw [remapItems, remapLocal x mine.1]
    simp only [bind, Except.bind, remapLocalItems r mine.2]
theorem remapLocalMembers {files : Files} {ledger : Ledger} (members : Members)
    (mine : ∀ text ∈ outerMembers members, sourceOf none text = .ok none) :
    remapMembers files none ledger members = .ok (members, ledger) := by
  match members with
  | [] => rfl
  | (k, x) :: r =>
    simp only [outerMembers, List.forall_mem_append] at mine
    rw [remapMembers, remapLocal x mine.1]
    simp only [bind, Except.bind, remapLocalMembers r mine.2]
end

def SelfContained (doc : Value) : Prop := ∀ text ∈ outer doc, sourceOf none text = .ok none

theorem internalizeAlone {root bundle : Value} :
    internalize root [] = .ok bundle ↔ SelfContained root ∧ bundle = root := by
  have alone : SelfContained root → internalize root [] = .ok root := by
    intro mine
    simp only [internalize, bundled, remapLocal root mine, bind, Except.bind]
    rfl
  constructor
  · intro done
    have mine : SelfContained root := by
      intro text mem
      obtain ⟨ps, made⟩ := internalizeMade done
      obtain ⟨source, told, given⟩ := made.covered text mem
      cases source with
      | none => exact told
      | some s =>
        obtain ⟨q, known⟩ := given s rfl
        obtain @⟨origin, w, _, _, _, value, _⟩ := made.slots _ _ known
        cases value
    exact ⟨mine, Except.ok.inj (done.symm.trans (alone mine))⟩
  · rintro ⟨mine, rfl⟩
    exact alone mine

end ApiGraph.Bundle

namespace ApiGraph.PathItems
open Json ApiGraph.Tree Merge Declaration Operation Resolve

section Keys
variable {doc doc' : Value}

theorem undirectedPlain {l : Location} {v : Value} (mine : undirected v = true)
    (before : undirected doc = true) (keys : ∀ k ∈ l.segments, Directive.ofKey k = .plain k) :
    undirected (Tree.set l v doc) = true :=
  undirectedSet mine before fun s k inside _ => keys k (inside.subset (by simp))

theorem undirectedThere {l : Location} {v x : Value} (mine : undirected v = true)
    (before : undirected doc = true) (held : Tree.get? l doc = some x) :
    undirected (Tree.set l v doc) = true := by
  refine undirectedSet mine before fun s k inside absent => ?_
  obtain ⟨r, same⟩ := inside
  rw [Tree.get?, ← same, walk?_append, absent] at held
  contradiction

open Uplift in
theorem upliftEntryUndirected {pattern : String} {moved : Bool}
    (key : Directive.ofKey pattern = .plain pattern) (before : undirected doc = true)
    (run : upliftEntry pattern doc = .ok (doc', moved)) : undirected doc' = true := by
  have slotKeys : ∀ k ∈ (pathsRoot.child pattern).segments, Directive.ofKey k = .plain k := by
    intro k mem
    rcases List.mem_pair.mp (show k ∈ ["paths", pattern] from mem) with rfl | rfl
    · decide
    · exact key
  unfold upliftEntry at run
  simp only at run
  split at run
  · cases run
    exact before
  · split at run
    · contradiction
    · rename_i entry _ r resolved
      split at run
      · cases run
        exact before
      · rename_i target named
        split at run
        · cases run
          refine undirectedPlain ?_ before slotKeys
          cases held : Tree.get? target doc with
          | none => rfl
          | some x => exact undirectedWalk before held
        · split at run
          · contradiction
          · rename_i item held
            cases run
            have back : undirected (reference (pathsRoot.child pattern).toPointer) = true := by
              rw [reference, undirectedObject]
              rintro e (_ | ⟨_, ⟨⟩⟩)
              exact ⟨(by decide : Directive.ofKey "$ref" = .plain "$ref"), rfl⟩
            exact undirectedPlain (undirectedWalk before held) (undirectedThere back before held)
              slotKeys

open Uplift in
theorem upliftUndirected {n : Nat} (before : undirected doc = true)
    (run : uplift doc = (doc', .ok n)) : undirected doc' = true := by
  have all : ∀ (patterns : List String) (count : Nat) (now : Value), undirected now = true →
      (∀ k ∈ patterns, Directive.ofKey k = .plain k) →
      upliftEntries patterns count now = (doc', .ok n) → undirected doc' = true := by
    intro patterns
    induction patterns with
    | nil =>
      intro count now kept _ run
      cases run
      exact kept
    | cons pattern more ih =>
      intro count now kept keys run
      simp only [upliftEntries] at run
      split at run
      · cases run
      · rename_i next moved one
        exact ih _ next (upliftEntryUndirected (keys pattern List.mem_cons_self) kept one)
          (fun k mem => keys k (List.mem_cons_of_mem _ mem)) run
  unfold uplift at run
  split at run
  · rename_i entries here
    refine all _ 0 doc before (fun k mem => ?_) run
    obtain ⟨e, inside, rfl⟩ := List.mem_map.mp mem
    have paths : walk? ["paths"] doc = some (.obj entries) := childAt (l := .root) rfl (Value.membersAtSome here)
    exact (undirectedObject.mp (undirectedWalk before paths) e inside).1
  · cases run
    exact before

theorem titlesUndirected (before : undirected doc = true) :
    undirected (Titles.defaultTitles doc).1 = true := by
  unfold Titles.defaultTitles
  split
  · rename_i schemas held
    refine undirectedThere (undirectedObject.mpr fun e mem => ?_) before held
    obtain ⟨⟨key, schema⟩, inside, rfl⟩ := List.mem_map.mp mem
    obtain ⟨plain, inner⟩ := undirectedObject.mp (undirectedWalk before held) _ inside
    refine ⟨plain, ?_⟩
    cases schema with
    | obj members =>
      simp only [Titles.titled]
      split
      · refine undirectedObject.mpr fun e mem => ?_
        rcases List.mem_append.mp mem with old | new
        · exact undirectedObject.mp inner e old
        · cases List.mem_singleton.mp new
          exact ⟨(by decide : Directive.ofKey "title" = .plain "title"), rfl⟩
      · exact inner
    | _ => exact inner
  · exact before

theorem Stands.keys {f : Found} (h : Stands doc f) (before : undirected doc = true) :
    ∀ k ∈ f.slot.segments, Directive.ofKey k = .plain k := by
  obtain ⟨entries, members, here, held, inside⟩ := h.member
  obtain ⟨top, rfl⟩ := h.object
  have paths := (undirectedObject.mp before _
    (Entries.mem_of_lookup (membersAtObject.mp here))).2
  obtain ⟨pattern, item⟩ := undirectedObject.mp paths _ (Entries.mem_of_lookup held)
  have verb := (undirectedObject.mp item _ (Entries.mem_of_lookup inside)).1
  rw [slotSpelled h.item]
  simp only [List.forall_mem_cons]
  exact ⟨by decide, pattern, verb, by decide, by simp⟩

theorem declareUndirected {c : Config} {n : Nat} (lawful : doc.lawful = true) (plain : Plain doc)
    (before : undirected doc = true) (run : declare c doc = .ok (doc', n)) :
    undirected doc' = true := by
  simp only [declare, operationsPlain lawful plain, bind, Except.bind] at run
  split at run
  · contradiction
  · rename_i known _
    simp only [Except.ok.injEq, Prod.mk.injEq] at run
    rw [← run.1]
    have ids : undirected (writeIds (missingIds ((listed doc).flatMap operationsOf)) doc).1 = true := by
      unfold writeIds
      refine List.foldlRecOn (motive := fun acc : Value × Nat => undirected acc.1 = true) _ _ before
        fun acc kept e mem => ?_
      obtain ⟨f, inside, made⟩ := missingIdSource mem
      obtain ⟨_, rfl⟩ := missingIdIff.mp made
      have keys := ((standsIff lawful).mp inside).keys before
      split
      · rename_i doc' written
        exact (writeFollowed written).undirected rfl kept
          fun s k inside _ => keys k (inside.subset (by simp))
      · exact kept
    unfold writeTags
    split
    · exact ids
    · refine undirectedPlain (undirectedList.mpr fun x mem => ?_) ids (by
        rintro k (_ | ⟨_, ⟨⟩⟩)
        decide)
      rcases List.mem_append.mp mem with old | new
      · split at old
        · rename_i items held
          exact undirectedList.mp (undirectedWalk ids held) x old
        · cases old
      · obtain ⟨name, _, rfl⟩ := List.mem_map.mp new
        refine undirectedObject.mpr ?_
        rintro e (_ | ⟨_, ⟨⟩⟩)
        exact ⟨(by decide : Directive.ofKey "name" = .plain "name"), rfl⟩

end Keys

section Nothing
variable {doc doc' : Value}

open Uplift in
theorem upliftStays (plain : Plain doc) : uplift doc = (doc, .ok 0) := by
  have all : ∀ patterns : List String, (∀ p ∈ patterns, upliftEntry p doc = .ok (doc, false)) →
      upliftEntries patterns 0 doc = (doc, .ok 0) := by
    intro patterns each
    induction patterns with
    | nil => rfl
    | cons p more ih =>
      simp only [upliftEntries, each p List.mem_cons_self]
      exact ih fun q mem => each q (List.mem_cons_of_mem _ mem)
  unfold uplift
  split
  · rename_i entries here
    refine all _ fun p mem => ?_
    simp only [upliftEntry]
    split
    · rfl
    · rename_i entry held
      have inside : entries.lookup p = some entry := by
        have paths : Tree.get? pathsRoot doc = some (.obj entries) :=
          childAt (l := .root) rfl (Value.membersAtSome here)
        rw [getChild, paths] at held
        exact held
      simp only [resolvePlain (plain entries p entry here inside)]
      rfl
  · rfl

open Titles in
theorem titledTwice (key : String) (schema : Value) :
    titled key (titled key schema) = titled key schema := by
  cases schema with
  | obj members =>
    cases lacks : lacksTitle (.obj members) with
    | true =>
      have added : titled key (.obj members) = .obj (members ++ [("title", .str key)]) := by
        simp [titled, lacks]
      have has : lacksTitle (.obj (members ++ [("title", .str key)])) = false := by
        simp only [lacksTitle, Value.get?, List.lookup_append]
        cases members.lookup "title" <;> simp
      rw [added]
      simp [titled, has]
    | false => simp [titled, lacks]
  | _ => rfl

open Titles in
theorem titlesStay (same : Tree.get? schemasRoot doc' =
    Tree.get? schemasRoot (defaultTitles doc).1) : (defaultTitles doc').1 = doc' := by
  unfold defaultTitles at same
  split at same
  · rename_i schemas held
    obtain ⟨now, written, _⟩ := writeThere held (.obj (schemas.map fun e => (e.1, titled e.1 e.2)))
    have set_ : set? schemasRoot (.obj (schemas.map fun e => (e.1, titled e.1 e.2))) doc = some now :=
      written
    simp only [Tree.set, set_, Option.getD_some, setReads set_] at same
    obtain ⟨again, rewritten, kept⟩ := writeThere same (.obj (schemas.map fun e => (e.1, titled e.1 e.2)))
    have twice : (schemas.map fun e => (e.1, titled e.1 e.2)).map (fun e => (e.1, titled e.1 e.2)) =
        schemas.map fun e => (e.1, titled e.1 e.2) := by
      simp [titledTwice]
    simp only [defaultTitles, same, twice, Tree.set]
    rw [show set? schemasRoot _ doc' = some again from rewritten, Option.getD_some, kept rfl]
  · rename_i none
    unfold defaultTitles
    split
    · rename_i schemas held
      exact absurd (same.symm.trans held) (none schemas)
    · rfl

end Nothing
end ApiGraph.PathItems

namespace ApiGraph.Build
open Json Resolve Declaration ApiGraph.Graph PathItems

section Found
variable {cx : Setting} {g g' : Graph} {l : Location}

theorem findTagListed {name : String} {tags : List (Value × Nat)}
    (run : findTag cx name tags g = .ok (some l, g')) :
    ∃ e ∈ tags, ∃ r, resolve cx.doc e.1 = .ok r ∧ r.value.textAt? "name" = some name := by
  induction tags generalizing g with
  | nil =>
    simp only [findTag, runPure] at run
    simp at run
  | cons e more ih =>
    obtain ⟨tag, i⟩ := e
    simp only [findTag, runBind, runResolve] at run
    obtain ⟨r, m, ⟨resolved, rfl⟩, run⟩ := run
    by_cases named : r.value.textAt? "name" = some name
    · exact ⟨_, List.mem_cons_self, r, resolved, named⟩
    · rw [if_neg named] at run
      obtain ⟨e, mem, found⟩ := ih run
      exact ⟨e, List.mem_cons_of_mem _ mem, found⟩

theorem Tagged.declared {name : String} (h : Tagged cx name l) {names : List String}
    (declared : declaredTags cx.doc = .ok names) : name ∈ names := by
  obtain ⟨_, _, run⟩ := h
  obtain ⟨⟨tag, i⟩, mem, found⟩ := findTagListed run
  exact (memDeclared declared).mpr ⟨tag, List.fst_mem_of_mem_zipIdx mem, found⟩

theorem visitOperationTagged (lawful : cx.doc.lawful = true) {f : Found}
    (at_ : Tree.get? f.place cx.doc = some f.operation) (tagged : AllTagged cx g) {u : PUnit}
    (run : visitOperation cx f g = .ok (u, g')) :
    AllTagged cx g' ∧ (cx.config.isOmitted f.id = false → ∃ l, Tagged cx f.group l) := by
  cases visitOperationSource run with
  | omitted out same =>
    refine ⟨same ▸ tagged, fun kept => ?_⟩
    rw [out] at kept
    contradiction
  | dropped _ grouped _ =>
    obtain ⟨all, tag⟩ := tagged.named grouped
    exact ⟨all, fun _ => tag⟩
  | @made api m result m' _ grouped _ node listed =>
    obtain ⟨all, tag⟩ := tagged.named grouped
    obtain ⟨apis, _⟩ := methodNodeRecords lawful at_ node
    have still : AllTagged cx m' := fun a mem => all a (apis ▸ mem)
    refine ⟨still.same ?_, fun _ => tag⟩
    rw [listed]
    cases result with
    | ok id => exact modifyMap (f := Api.listing id) (fun _ => rfl) m'.apis api.index
    | error e => rfl

theorem visitedTagged (lawful : cx.doc.lawful = true) {found : List Found} {us : List PUnit}
    (at_ : ∀ f ∈ found, Tree.get? f.place cx.doc = some f.operation) (tagged : AllTagged cx g)
    (runs : Runs (visitOperation cx) found g us g') {f : Found} (mem : f ∈ found)
    (kept : cx.config.isOmitted f.id = false) : ∃ l, Tagged cx f.group l := by
  induction runs with
  | nil => cases mem
  | cons head _ ih =>
    obtain ⟨here, later⟩ := List.forall_mem_cons.mp at_
    obtain ⟨all, tag⟩ := visitOperationTagged lawful here tagged head
    rcases List.mem_cons.mp mem with rfl | after
    · exact tag kept
    · exact ih later all after

theorem builtDeclares {c : Config} {doc : Value} (lawful : doc.lawful = true)
    (made : graphOf c doc = .ok g) {found : List Found} (operations : operations doc = .ok found)
    {names : List String} (declared : declaredTags doc = .ok names) {f : Found} (mem : f ∈ found)
    (kept : c.isOmitted f.id = false) : f.group ∈ names := by
  obtain ⟨cx, set, walked⟩ := graphOfSource made
  obtain ⟨request, accept, _, _, rfl⟩ := settingSource set
  simp only [walk, runBind, runLift, mapErrorOk] at walked
  obtain ⟨found', m, ⟨listed, rfl⟩, _, _, visited, _⟩ := walked
  cases operations.symm.trans listed
  obtain ⟨us, runs⟩ := runForM.mp visited
  have start : AllTagged ⟨doc, c, request, accept⟩ .empty := fun a mem => by cases mem
  have at_ : ∀ f ∈ found, Tree.get? f.place doc = some f.operation :=
    fun f mem => operationAt operations mem
  obtain ⟨l, tagged⟩ := visitedTagged lawful at_ start runs mem kept
  exact tagged.declared declared

end Found

open Pipeline in
theorem prepareBare {fragments : List Value} {p : Prepared} :
    prepare fragments bareOptions = .ok p ↔ Bundle.SelfContained (Merge.mergeFragments fragments) ∧
      ∃ doc n, Uplift.uplift (Merge.mergeFragments fragments) = (doc, .ok n) ∧
        p = ⟨(Titles.defaultTitles doc).1, none⟩ := by
  constructor
  · intro prepared
    unfold prepare at prepared
    obtain ⟨bundle, bundled, prepared⟩ := Bundle.bindOk.mp prepared
    obtain ⟨mine, rfl⟩ := Bundle.internalizeAlone.mp bundled
    refine ⟨mine, ?_⟩
    simp only [bareOptions, Exclusion.exclude, List.foldl_nil] at prepared
    split at prepared
    · contradiction
    · rename_i doc n lifted
      exact ⟨doc, n, lifted, (Except.ok.inj prepared).symm⟩
  · rintro ⟨mine, doc, n, lifted, rfl⟩
    unfold prepare
    refine Bundle.bindOk.mpr ⟨_, Bundle.internalizeAlone.mpr ⟨mine, rfl⟩, ?_⟩
    simp only [bareOptions, Exclusion.exclude, List.foldl_nil, lifted]
    rfl

theorem tagsOthers {k : String} (other : k ≠ "tags") (v doc : Value) :
    (Tree.set tagsRoot v doc).get? k = doc.get? k := by
  unfold Tree.set
  cases written : Tree.set? tagsRoot v doc with
  | none => rfl
  | some doc' => exact (Tree.writeFollowed written).others other

section Again
variable {c : Config} {doc doc' : Value} {n : Nat} {g : Graph}

theorem declareSchemas (lawful : doc.lawful = true) (plain : Plain doc)
    (run : declare c doc = .ok (doc', n)) :
    Tree.get? Titles.schemasRoot doc' = Tree.get? Titles.schemasRoot doc := by
  obtain ⟨mid, known, fresh, source⟩ := declareSource lawful plain run
  have components : doc'.get? "components" = doc.get? "components" := by
    rw [source.tags, ← source.filled.others "components" (by decide), writeTags]
    split
    · rfl
    · exact tagsOthers (by decide) _ mid
  have start : ∀ d : Value, Tree.get? Titles.schemasRoot d =
      (d.get? "components").bind (Tree.walk? ["schemas"]) := by
    intro d
    cases d with
    | arr items =>
      have word : Tree.index? "components" = none := by decide
      simp [Tree.get?, Titles.schemasRoot, Tree.walk?, Tree.step?, word, Value.get?]
    | _ => rfl
  rw [start, start, components]

theorem builtSettles (lawful : doc.lawful = true) (plain : Plain doc)
    (built : build c doc = (doc', .ok g)) (result : Value × Nat) : declare c doc' = .ok result ↔
      (∀ tag ∈ tagsOf doc', ∃ r, resolve doc' tag = .ok r) ∧ result = (doc', 0) := by
  have lawful' := buildLawful lawful built
  obtain ⟨⟨n, run⟩, made⟩ := buildSource built
  obtain ⟨mid, known, fresh, source⟩ := declareSource lawful plain run
  have plain' := declarePlain lawful plain run
  have operations := operationsPlain lawful' plain'
  have settled : (∃ names, declaredTags doc' = .ok names) → declare c doc' = .ok (doc', 0) := by
    rintro ⟨names, declared⟩
    exact (settledOf lawful' operations (fun f mem => source.stated lawful mem) declared
      fun f mem kept => builtDeclares lawful' made operations declared mem kept).again
  rw [← declaredSome]
  refine ⟨fun again => ?_, fun ⟨some_, same⟩ => same ▸ settled some_⟩
  have some_ : ∃ names, declaredTags doc' = .ok names := by
    obtain ⟨_, known', _, source'⟩ := declareSource lawful' plain' again
    exact ⟨known', source'.declared⟩
  exact ⟨some_, Except.ok.inj (again.symm.trans (settled some_))⟩

theorem prepareAgain {fragments : List Value} {p q : Pipeline.Prepared}
    (undirected : ∀ v ∈ fragments, Merge.undirected v = true)
    (prepared : Pipeline.prepare fragments bareOptions = .ok p) (lawful : p.doc.lawful = true)
    (run : declare c p.doc = .ok (doc', n)) :
    Pipeline.prepare [doc'] bareOptions = .ok q ↔ Bundle.SelfContained doc' ∧ q = ⟨doc', none⟩ := by
  have plain := preparePlain prepared
  obtain ⟨_, up, count, lifted, rfl⟩ := prepareBare.mp prepared
  have merged := Merge.undirectedFragments undirected
  have free := titlesUndirected (upliftUndirected merged lifted)
  have still := declareUndirected lawful plain free run
  rw [prepareBare, Merge.mergeAlone (declareLawful lawful run) still, upliftStays (declarePlain lawful plain run)]
  have titles := titlesStay (declareSchemas lawful plain run)
  refine and_congr_right fun _ => ⟨?_, ?_⟩
  · rintro ⟨doc, n, same, rfl⟩
    cases same
    rw [titles]
  · rintro rfl
    exact ⟨doc', 0, rfl, by rw [titles]⟩

end Again

open Pipeline in
theorem generateIff {fragments : List Value} {o : Options} {c : Config} {r : Generated} :
    generate fragments o c = .ok r ↔ ∃ p n, prepare fragments o = .ok p ∧
      declare c p.doc = .ok (r.doc, n) ∧ graphOf c r.doc = .ok r.graph ∧ r.report = p.report := by
  unfold generate
  cases prepared : prepare fragments o with
  | error e => simp [bind, Except.bind]
  | ok p =>
    simp only [bind, Except.bind, build, Except.ok.injEq, exists_and_left, exists_eq_left']
    obtain ⟨g, doc, report⟩ := r
    cases told : declare c p.doc with
    | error e => simp
    | ok result =>
      obtain ⟨now, n⟩ := result
      cases made : graphOf c now with
      | error e =>
        simp only [made, reduceCtorEq, false_iff, Except.ok.injEq, Prod.mk.injEq]
        rintro ⟨_, ⟨rfl, _⟩, again, _⟩
        exact absurd (made.symm.trans again) (by simp)
      | ok g' =>
        simp only [made, Except.ok.injEq, Generated.mk.injEq, Prod.mk.injEq]
        constructor
        · rintro ⟨rfl, rfl, rfl⟩
          exact ⟨n, ⟨rfl, rfl⟩, made, rfl⟩
        · rintro ⟨_, ⟨rfl, _⟩, again, rfl⟩
          exact ⟨Except.ok.inj (made.symm.trans again), rfl, rfl⟩

/- Generating again from the document of a result gives the same result if it gives any. It gives one
just when every reference that bundling comes across in the document is to the document itself, and
all its tags can be resolved. -/
theorem generationProjects {fragments : List Value} {p : Pipeline.Prepared} {c : Config}
    {r : Pipeline.Generated} (undirected : ∀ v ∈ fragments, Merge.undirected v = true)
    (prepared : Pipeline.prepare fragments bareOptions = .ok p) (lawful : p.doc.lawful = true)
    (generated : Pipeline.generate fragments bareOptions c = .ok r) :
    (∀ r', Pipeline.generate [r.doc] bareOptions c = .ok r' → r' = r) ∧
      ((∃ r', Pipeline.generate [r.doc] bareOptions c = .ok r') ↔
        Bundle.SelfContained r.doc ∧ ∀ tag ∈ tagsOf r.doc, ∃ v, resolve r.doc tag = .ok v) := by
  obtain ⟨p', n, again, run, made, report⟩ := generateIff.mp generated
  cases prepared.symm.trans again
  have bare : p.report = none := by
    obtain ⟨_, _, _, _, rfl⟩ := prepareBare.mp prepared
    rfl
  have built : build c p.doc = (r.doc, .ok r.graph) := by
    simp only [build, run, made]
  have settles := builtSettles lawful (preparePlain prepared) built
  have iff : ∀ r', Pipeline.generate [r.doc] bareOptions c = .ok r' ↔
      (Bundle.SelfContained r.doc ∧ ∀ tag ∈ tagsOf r.doc, ∃ v, resolve r.doc tag = .ok v) ∧
        r' = r := by
    intro r'
    simp only [generateIff, prepareAgain undirected prepared lawful run]
    constructor
    · rintro ⟨_, n', ⟨mine, rfl⟩, declared, made', report'⟩
      obtain ⟨tags, same⟩ := (settles _).mp declared
      obtain ⟨whole, rfl⟩ := Prod.mk.inj same
      refine ⟨⟨mine, tags⟩, ?_⟩
      obtain ⟨g, doc, report₁⟩ := r
      obtain ⟨g', doc', report₂⟩ := r'
      simp only at whole made made' report report'
      subst whole
      cases made.symm.trans made'
      rw [report', report, bare]
    · rintro ⟨⟨mine, tags⟩, rfl⟩
      exact ⟨_, 0, ⟨mine, rfl⟩, (settles _).mpr ⟨tags, rfl⟩, made, report.trans bare⟩
  refine ⟨fun r' again => ((iff r').mp again).2, ?_, fun both => ⟨r, (iff r).mpr ⟨both, rfl⟩⟩⟩
  rintro ⟨r', again⟩
  exact ((iff r').mp again).1

def sharedDocument : Value :=
  .obj [("paths", .obj [("/notes", reference "#/components/pathItems/Notes")]),
    ("components", .obj [
      ("pathItems", .obj [("Notes", .obj [("get",
        .obj [("tags", .arr [.str "notes"]), ("responses", .obj [])])])]),
      ("schemas", .obj [("Note", .obj [("type", .str "object")])])])]

theorem sharedProjects : Merge.undirected sharedDocument = true ∧
    ∃ p r, Pipeline.prepare [sharedDocument] bareOptions = .ok p ∧ p.doc.lawful = true ∧
      Pipeline.generate [sharedDocument] bareOptions .default = .ok r ∧ r.doc.lawful = true ∧
      Pipeline.generate [r.doc] bareOptions .default = .ok r := by
  have before : (Pipeline.prepare [sharedDocument] bareOptions).toOption.map (·.doc.lawful) =
      some true := by decide +kernel
  have facts : (Pipeline.generate [sharedDocument] bareOptions .default).toOption.map (fun r =>
      (r.doc.lawful, Bundle.outer r.doc, (tagsOf r.doc).map refOf)) =
      some (true, ["#/paths/~1notes"], [none]) := by decide +kernel
  have undirected : Merge.undirected sharedDocument = true := by decide
  refine ⟨undirected, ?_⟩
  cases generated : Pipeline.generate [sharedDocument] bareOptions .default with
  | error e => simp [generated, Except.toOption] at facts
  | ok r =>
    obtain ⟨p, prepared, _⟩ := generateSource generated
    simp only [generated, Except.toOption, Option.map_some, Option.some.injEq,
      Prod.mk.injEq] at facts
    simp only [prepared, Except.toOption, Option.map_some, Option.some.injEq] at before
    obtain ⟨lawful', references, tags⟩ := facts
    have projects := generationProjects (by simpa using undirected) prepared before generated
    have mine : Bundle.SelfContained r.doc := by
      intro text mem
      rw [references] at mem
      rw [List.mem_singleton.mp mem]
      rfl
    have told : ∀ tag ∈ tagsOf r.doc, ∃ v, resolve r.doc tag = .ok v := by
      intro tag mem
      have none := List.mem_map_of_mem (f := refOf) mem
      rw [tags] at none
      exact ⟨_, resolvePlain (List.mem_singleton.mp none)⟩
    obtain ⟨r', again⟩ := projects.2.mpr ⟨mine, told⟩
    exact ⟨p, r, prepared, before, rfl, lawful', projects.1 r' again ▸ again⟩

def buriedDocument : Value :=
  .obj [("paths", .obj [("/a", reference "#/x-s/inner")]),
    ("x-s", .obj [("$ref", .str "#/x-t"),
      ("inner", .obj [("get", .obj [("tags", .arr [.str "t"]), ("operationId", .str "a"),
          ("responses", .obj [])]),
        ("x-more", reference "ext.yaml#/q")])]),
    ("x-t", .obj [])]

theorem buriedFails : Merge.undirected buriedDocument = true ∧
    ∃ r, Pipeline.generate [buriedDocument] bareOptions .default = .ok r ∧ r.doc.lawful = true ∧
      Pipeline.generate [r.doc] bareOptions .default =
        .error (.resolve (.unresolvable "ext.yaml#/q")) := by
  have facts : (Pipeline.generate [buriedDocument] bareOptions .default).toOption.map (fun r =>
      (r.doc.lawful, match Pipeline.generate [r.doc] bareOptions .default with
        | .error e => some e
        | .ok _ => none)) = some (true, some (.resolve (.unresolvable "ext.yaml#/q"))) := by
    decide +kernel
  refine ⟨by decide, ?_⟩
  cases generated : Pipeline.generate [buriedDocument] bareOptions .default with
  | error e => simp [generated, Except.toOption] at facts
  | ok r =>
    simp only [generated, Except.toOption, Option.map_some, Option.some.injEq,
      Prod.mk.injEq] at facts
    refine ⟨r, rfl, facts.1, ?_⟩
    cases again : Pipeline.generate [r.doc] bareOptions .default <;> simp_all

end ApiGraph.Build
