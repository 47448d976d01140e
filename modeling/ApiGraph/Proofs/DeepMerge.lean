import ApiGraph.Proofs.Matching
import ApiGraph.Proofs.Merging
import Mathlib.Data.List.Induction

/-! Merging without directives. A fragment without one is merged deeply: an object keeps its members
in their places and gets the new ones after them, a list gets the elements that it does not hold yet,
and anything else gives way. What such a fragment brings is there after one merge, so a second merge
of the same fragment changes nothing. -/
namespace ApiGraph.Merge
open Json

mutual
def undirected : Value → Bool
  | .arr items => undirectedItems items
  | .obj members => undirectedMembers members
  | _ => true
termination_by structural v => v
def undirectedItems : List Value → Bool
  | [] => true
  | x :: r => undirected x && undirectedItems r
termination_by structural xs => xs
def undirectedMembers : List (String × Value) → Bool
  | [] => true
  | (k, x) :: r => decide (Directive.ofKey k = .plain k) && undirected x && undirectedMembers r
termination_by structural xs => xs
end

theorem undirectedList {items : List Value} :
    undirected (.arr items) = true ↔ ∀ x ∈ items, undirected x = true := by
  rw [undirected]
  induction items with
  | nil => simp [undirectedItems]
  | cons x r ih => simp [undirectedItems, ih]

theorem undirectedObject {members : Members} : undirected (.obj members) = true ↔
    ∀ e ∈ members, Directive.ofKey e.1 = .plain e.1 ∧ undirected e.2 = true := by
  rw [undirected]
  induction members with
  | nil => simp [undirectedMembers]
  | cons e r ih =>
    obtain ⟨k, x⟩ := e
    simp [undirectedMembers, ih, and_assoc]

theorem undirectedPut {members : Members} {k : String} {w : Value}
    (h : undirected (.obj members) = true) (key : Directive.ofKey k = .plain k)
    (inner : undirected w = true) : undirected (.obj (Entries.put k w members)) = true := by
  refine undirectedObject.mpr fun e mem => ?_
  rcases Entries.memPut mem with rfl | old
  · exact ⟨key, inner⟩
  · exact undirectedObject.mp h e old

theorem undirectedWalk {l : List String} {v x : Value} (plain : undirected v = true)
    (held : Tree.walk? l v = some x) : undirected x = true :=
  Tree.walkKept (fun _ plain => undirectedList.mp plain)
    (fun _ plain e mem => (undirectedObject.mp plain e mem).2) plain held

/- The elements that equal none of `old` and none before them. -/
def newcomers (old new : List Value) : List Value :=
  (new.zipIdx.filter fun e => !(old ++ new.take e.2).contains e.1).map Prod.fst

theorem newcomersSnoc (old new : List Value) (x : Value) : newcomers old (new ++ [x]) =
    newcomers old new ++ if (old ++ new).contains x then [] else [x] := by
  have before : ∀ e ∈ new.zipIdx, (!(old ++ (new ++ [x]).take e.2).contains e.1) =
      !(old ++ new.take e.2).contains e.1 := by
    intro e mem
    have inside := List.snd_lt_of_mem_zipIdx mem
    rw [List.take_append_of_le_length (by omega)]
  have whole : (new ++ [x]).take (0 + new.length) = new := by simp
  simp only [newcomers, List.zipIdx_append, List.filter_append, List.map_append,
    List.filter_congr before, List.zipIdx_cons, List.zipIdx_nil, List.filter_cons, List.filter_nil,
    whole]
  cases (old ++ new).contains x <;> rfl

theorem memNewcomers {old new : List Value} {x : Value} (mem : x ∈ newcomers old new) : x ∈ new := by
  obtain ⟨e, listed, rfl⟩ := List.mem_map.mp mem
  exact List.fst_mem_of_mem_zipIdx (List.mem_filter.mp listed).1

theorem newcomersNone {old new : List Value} (held : ∀ x ∈ new, old.contains x = true) :
    newcomers old new = [] := by
  rw [newcomers, List.map_eq_nil_iff, List.filter_eq_nil_iff]
  intro e mem
  have there := held _ (List.fst_mem_of_mem_zipIdx mem)
  simp [List.contains_append, there]

theorem containsIff {items : List Value} {x : Value} :
    items.contains x = true ↔ ∃ y ∈ items, x.same y = true :=
  List.contains_iff_exists_mem_beq

theorem containsSelf {items : List Value} {x : Value} (fits : x.lawful = true) (mem : x ∈ items) :
    items.contains x = true :=
  containsIff.mpr ⟨x, mem, sameRefl x fits⟩

theorem newcomersContain {old new : List Value} (fits : ∀ x ∈ old ++ new, x.lawful = true)
    {x : Value} (fit : x.lawful = true) :
    (old ++ newcomers old new).contains x = (old ++ new).contains x := by
  induction new using List.reverseRecOn generalizing x with
  | nil => rfl
  | append_singleton new y ih =>
    rw [← List.append_assoc] at fits
    have kept := fun {x : Value} => ih (fun x mem => fits x (List.mem_append_left _ mem)) (x := x)
    rw [newcomersSnoc, ← List.append_assoc, ← List.append_assoc]
    have split : (old ++ new ++ [y]).contains x = ((old ++ new).contains x || [y].contains x) :=
      List.contains_append
    cases held : (old ++ new).contains y with
    | false => rw [if_neg (by simp), split, ← kept fit, ← List.contains_append]
    | true =>
      rw [if_pos rfl, List.append_nil, kept fit, split, Bool.eq_iff_iff, Bool.or_eq_true]
      refine ⟨.inl, fun either => either.elim id fun last => ?_⟩
      obtain ⟨z, listed, same⟩ := containsIff.mp last
      cases List.mem_singleton.mp listed
      obtain ⟨w, there, same'⟩ := containsIff.mp held
      -- the element that was left out gives way to the one that it equals
      refine containsIff.mpr ⟨w, there, sameTrans x fit (fits y (by simp)) ?_ same same'⟩
      exact fits w (List.mem_append_left _ there)

theorem addNewAll {old new : List Value} (fits : ∀ x ∈ old ++ new, x.lawful = true) :
    new.foldl addNew old = old ++ newcomers old new := by
  induction new using List.reverseRecOn with
  | nil => simp [newcomers]
  | append_singleton new y ih =>
    rw [← List.append_assoc] at fits
    have before := fun x mem => fits x (List.mem_append_left _ mem)
    rw [List.foldl_append, ih before, List.foldl_cons, List.foldl_nil, addNew,
      newcomersContain before (fits y (by simp)), newcomersSnoc, ← List.append_assoc]
    split <;> simp

def mergedMember (merge : Value → Value → Value) (new : Members) (e : String × Value) :
    String × Value :=
  (e.1, match new.lookup e.1 with
    | some w => merge e.2 w
    | none => e.2)

def joined (merge : Value → Value → Value) (old new : Members) : Members :=
  old.map (mergedMember merge new) ++
    (new.filter fun e => !Entries.has e.1 old).map fun e => (e.1, merge .null e.2)

section Objects
variable {merge : Value → Value → Value} {old new : Members}

theorem mergedUnder {e : String × Value} {w : Value} (held : new.lookup e.1 = some w) :
    mergedMember merge new e = (e.1, merge e.2 w) := by
  rw [mergedMember, held]

theorem mergedNone {e : String × Value} (absent : new.lookup e.1 = none) :
    mergedMember merge new e = e := by
  rw [mergedMember, absent]

theorem mergedOther {k : String} {v : Value} {e : String × Value} (other : e.1 ≠ k) :
    mergedMember merge ((k, v) :: new) e = mergedMember merge new e := by
  rw [mergedMember, List.lookup_cons, beq_false_of_ne other]
  rfl

theorem joinedPut (once : (Entries.keys old).Nodup) {k : String} (v : Value)
    (apart : ∀ e ∈ new, e.1 ≠ k) :
    joined merge (Entries.put k (merge ((old.lookup k).getD .null) v) old) new =
      joined merge old ((k, v) :: new) := by
  have unheld : new.lookup k = none := Entries.lookupFresh apart
  have has : ∀ e ∈ new, (!Entries.has e.1 (Entries.put k (merge ((old.lookup k).getD .null) v) old)) =
      !Entries.has e.1 old := by
    intro e mem
    rw [Entries.has, Entries.lookupPutOther (apart e mem), Entries.has]
  simp only [joined, List.filter_congr has]
  cases held : old.lookup k with
  | some x =>
    have kept : ∀ e ∈ old, mergedMember merge new (e.1, if e.1 == k then merge x v else e.2) =
        mergedMember merge ((k, v) :: new) e := by
      rintro ⟨j, y⟩ mem
      by_cases here : j = k
      · subst here
        have same : y = x := Option.some.inj ((Entries.lookupOfMem once mem).symm.trans held)
        rw [mergedNone unheld, mergedUnder (e := (j, y)) List.lookup_cons_self, same]
        simp
      · rw [mergedOther here, if_neg (by simpa using here)]
    have listed : Entries.has k old = true := by simp [Entries.has, held]
    rw [Option.getD_some, Entries.putHeld _ once held, List.map_map,
      List.filter_cons_of_neg (by simp [listed])]
    exact congrArg (· ++ _) (List.map_congr_left kept)
  | none =>
    have fresh : ∀ e ∈ old, e.1 ≠ k := fun e mem same => by
      have := List.lookup_eq_none_iff.mp held e mem
      simp [same] at this
    have kept : ∀ e ∈ old, mergedMember merge new e = mergedMember merge ((k, v) :: new) e :=
      fun e mem => (mergedOther (fresh e mem)).symm
    have unlisted : Entries.has k old = false := by simp [Entries.has, held]
    rw [Option.getD_none, Entries.putFresh fresh, List.map_append, List.map_congr_left kept,
      List.filter_cons_of_pos (by simp [unlisted]), List.map_singleton, mergedNone unheld]
    simp

theorem foldPlain (once : (Entries.keys old).Nodup) (once' : (Entries.keys new).Nodup)
    (plain : ∀ e ∈ new, Directive.ofKey e.1 = .plain e.1) :
    new.foldl (fun acc e => applyMember merge acc e.1 e.2) old = joined merge old new := by
  induction new generalizing old with
  | nil =>
    have kept : ∀ e ∈ old, mergedMember merge [] e = e := fun _ _ => mergedNone rfl
    simp [joined, List.map_congr_left kept]
  | cons e r ih =>
    obtain ⟨k, v⟩ := e
    obtain ⟨key, others⟩ := List.forall_mem_cons.mp plain
    obtain ⟨absent, once'⟩ := List.nodup_cons.mp once'
    have apart : ∀ e ∈ r, e.1 ≠ k := fun e mem same => absent (List.mem_map.mpr ⟨e, mem, same⟩)
    have written : applyMember merge old k v =
        Entries.put k (merge ((old.lookup k).getD .null) v) old := by
      cases held : old.lookup k <;> simp [applyMember, key, held]
    rw [List.foldl_cons, written, ih (Entries.nodupPut k _ once) once' others,
      joinedPut once v apart]

theorem keysMerged (merge : Value → Value → Value) (old new : Members) :
    Entries.keys (old.map (mergedMember merge new)) = Entries.keys old := by
  rw [Entries.keys, List.map_map]
  rfl

theorem keysJoined (merge : Value → Value → Value) (old new : Members) :
    Entries.keys (joined merge old new) =
      Entries.keys old ++ (Entries.keys new).filter fun k => !Entries.has k old := by
  rw [joined, Entries.keys, List.map_append]
  refine congr (congrArg _ (keysMerged merge old new)) ?_
  rw [Entries.keys, List.filter_map, List.map_map]
  rfl

end Objects

mutual
def deepMerge : Value → Value → Value
  | .obj old, .obj new =>
    .obj (deepMergeMembers old new ++ new.filter fun e => !Entries.has e.1 old)
  | .arr old, .arr new => .arr (old ++ newcomers old new)
  | _, source => source
termination_by structural target => target
def deepMergeMembers : List (String × Value) → Members → Members
  | [], _ => []
  | (k, v) :: r, new =>
    (k, match new.lookup k with
      | some w => deepMerge v w
      | none => v) :: deepMergeMembers r new
termination_by structural old => old
end

theorem deepMergeMembersIs (old new : Members) :
    deepMergeMembers old new = old.map (mergedMember deepMerge new) := by
  induction old with
  | nil => rfl
  | cons e r ih => rw [deepMergeMembers, ih]; rfl

theorem deepMergeNull (v : Value) : deepMerge .null v = v := by cases v <;> rfl

theorem deepMergeObject {target : Value} (unlike : target.members? = none) (new : Members) :
    deepMerge target (.obj new) = .obj new := by
  cases target with
  | obj _ => contradiction
  | _ => rfl

theorem deepMergeList {target : Value} (unlike : target.items? = none) (new : List Value) :
    deepMerge target (.arr new) = .arr new := by
  cases target with
  | arr _ => contradiction
  | _ => rfl

theorem deepMergeLeaf {source : Value} (noItems : source.items? = none)
    (noMembers : source.members? = none) (target : Value) : deepMerge target source = source := by
  cases source with
  | arr _ => contradiction
  | obj _ => contradiction
  | _ => cases target <;> rfl

theorem deepMergeObjects (old new : Members) :
    deepMerge (.obj old) (.obj new) = .obj (joined deepMerge old new) := by
  have same : ∀ e : String × Value, (e.1, deepMerge .null e.2) = e :=
    fun e => by rw [deepMergeNull]
  rw [deepMerge, deepMergeMembersIs, joined, List.map_congr_left fun e _ => same e, List.map_id']

theorem deepMergeEmpty (v : Value) : deepMerge (.obj []) v = v := by
  cases v with
  | obj new =>
    have none : ∀ e : String × Value, (!Entries.has e.1 ([] : Members)) = true := fun _ => rfl
    simp [deepMerge, deepMergeMembers, none]
  | _ => rfl

theorem joinedCongr {merge merge' : Value → Value → Value} {old new : Members}
    (same : ∀ e ∈ new, ∀ v, (v = .null ∨ ∃ k, (k, v) ∈ old) → merge v e.2 = merge' v e.2) :
    joined merge old new = joined merge' old new := by
  have kept : ∀ e ∈ old, mergedMember merge new e = mergedMember merge' new e := by
    intro e mem
    cases held : new.lookup e.1 with
    | none => rw [mergedNone held, mergedNone held]
    | some w =>
      rw [mergedUnder held, mergedUnder held,
        same _ (Entries.mem_of_lookup held) e.2 (.inr ⟨e.1, mem⟩)]
  have added : ∀ e ∈ new.filter fun e => !Entries.has e.1 old,
      (e.1, merge .null e.2) = (e.1, merge' .null e.2) :=
    fun e mem => by rw [same e (List.mem_of_mem_filter mem) .null (.inl rfl)]
  rw [joined, joined, List.map_congr_left kept, List.map_congr_left added]

theorem joinedAgain {merge : Value → Value → Value} {old new : Members}
    (once : (Entries.keys new).Nodup) (again : ∀ e ∈ new, ∀ v, (v = .null ∨ ∃ k, (k, v) ∈ old) →
      merge (merge v e.2) e.2 = merge v e.2) :
    joined merge (joined merge old new) new = joined merge old new := by
  have listed : ∀ e ∈ new, ¬(!Entries.has e.1 (joined merge old new)) = true := by
    intro e mem
    have there : Entries.has e.1 (joined merge old new) = true := by
      rw [Entries.hasIff, keysJoined, List.mem_append]
      cases known : Entries.has e.1 old with
      | true => exact .inl (Entries.hasIff.mp known)
      | false => exact .inr (List.mem_filter.mpr ⟨List.mem_map_of_mem mem, by simp [known]⟩)
    simp [there]
  have same : ∀ e ∈ joined merge old new, mergedMember merge new e = e := by
    intro e mem
    rcases List.mem_append.mp mem with kept | added
    · obtain ⟨e, inside, rfl⟩ := List.mem_map.mp kept
      cases there : new.lookup e.1 with
      | none => rw [mergedNone there, mergedNone there]
      | some w =>
        rw [mergedUnder there, mergedUnder (e := (e.1, merge e.2 w)) there,
          again _ (Entries.mem_of_lookup there) _ (.inr ⟨e.1, inside⟩)]
    · obtain ⟨e, inside, rfl⟩ := List.mem_map.mp added
      have inside := List.mem_of_mem_filter inside
      rw [mergedUnder (e := (e.1, merge .null e.2)) (Entries.lookupOfMem once inside),
        again e inside .null (.inl rfl)]
  conv_lhs => rw [joined]
  rw [List.filter_eq_nil_iff.mpr listed, List.map_nil, List.append_nil, List.map_congr_left same,
    List.map_id']

theorem mergeDeep {target source : Value} (held : target.lawful = true) (fits : source.lawful = true)
    (plain : undirected source = true) : merge target source = deepMerge target source := by
  -- what the source holds meets null or what the target holds there, so the target is any
  induction source using Value.fromParts generalizing target with
  | items new ih =>
    have each := Value.lawfulList.mp fits
    have same : ∀ x ∈ new, merge .null x = x := fun x mem => by
      rw [ih x mem rfl (each x mem) (undirectedList.mp plain x mem), deepMergeNull]
    cases target with
    | arr old =>
      have before := Value.lawfulList.mp held
      have parts : ∀ x ∈ old ++ new, x.lawful = true :=
        fun x mem => (List.mem_append.mp mem).elim (before x) (each x)
      rw [mergeLists, deepMerge, ← addNewAll parts]
      refine congrArg Value.arr (List.foldl_ext _ _ _ fun acc x mem => ?_)
      rw [same x mem]
    | _ => rw [mergeList rfl, deepMergeList rfl, List.map_congr_left same, List.map_id']
  | members new ih =>
    obtain ⟨once, each⟩ := Value.lawfulObject.mp fits
    have keys : ∀ e ∈ new, Directive.ofKey e.1 = .plain e.1 :=
      fun e mem => (undirectedObject.mp plain e mem).1
    have old : ∃ old, target.members?.getD [] = old ∧ (Value.obj old).lawful = true ∧
        deepMerge target (.obj new) = deepMerge (.obj old) (.obj new) := by
      cases target with
      | obj old => exact ⟨old, rfl, held, rfl⟩
      | _ => exact ⟨[], rfl, rfl, (deepMergeObject rfl new).trans (deepMergeEmpty _).symm⟩
    obtain ⟨old, given, fitsOld, whole⟩ := old
    obtain ⟨once', each'⟩ := Value.lawfulObject.mp fitsOld
    rw [mergeObject, given, whole, deepMergeObjects, foldPlain once' once keys]
    refine congrArg Value.obj (joinedCongr fun e mem v there => ?_)
    refine ih e mem ?_ (each e mem) (undirectedObject.mp plain e mem).2
    rcases there with rfl | ⟨k, mem'⟩
    · rfl
    · exact each' _ mem'
  | leaf source noItems noMembers =>
    rw [mergeLeaf noItems noMembers, deepMergeLeaf noItems noMembers]

theorem mergeSame {v : Value} (fits : v.lawful = true) (plain : undirected v = true) :
    merge .null v = v := by
  rw [mergeDeep rfl fits plain, deepMergeNull]

theorem mergeAlone {v : Value} (fits : v.lawful = true) (plain : undirected v = true) :
    mergeFragments [v] = v := by
  rw [mergeFragments, List.foldl_cons, List.foldl_nil, mergeDeep rfl fits plain,
    deepMergeEmpty]

/- What the deep merge is: for two objects the old keys in their order and then the new ones, for two
lists the old elements and then the newcomers, and the source otherwise. -/
theorem mergesDeeply {target source : Value} (held : target.lawful = true)
    (fits : source.lawful = true) (plain : undirected source = true) :
    merge target source = deepMerge target source ∧ mergeFragments [source] = source :=
  ⟨mergeDeep held fits plain, mergeAlone fits plain⟩

def ratedDocument : Value :=
  .obj [("info", .obj [("title", .str "Notes"), ("rating", .arr [.num (.double ⟨false, 0⟩)])]),
    ("paths", .str "none")]

def ratedFragment : Value :=
  .obj [("paths", .obj [("/notes", .obj [("tags", .arr [.str "notes"])])]),
    ("info", .obj [("version", .str "1"),
      ("rating", .arr [.num (.whole 1), .num (.double ⟨true, 0⟩), .num (.whole 1)])])]

theorem ratedDeeply : ratedDocument.lawful = true ∧ ratedFragment.lawful = true ∧
    undirected ratedFragment = true ∧
    merge ratedDocument ratedFragment =
      .obj [("info", .obj [("title", .str "Notes"),
          ("rating", .arr [.num (.double ⟨false, 0⟩), .num (.whole 1)]), ("version", .str "1")]),
        ("paths", .obj [("/notes", .obj [("tags", .arr [.str "notes"])])])] ∧
    mergeFragments [ratedFragment] = ratedFragment := by
  have held : ratedDocument.lawful = true := by decide
  have fits : ratedFragment.lawful = true := by decide
  have plain : undirected ratedFragment = true := by decide
  obtain ⟨merged, alone⟩ := mergesDeeply held fits plain
  exact ⟨held, fits, plain, merged, alone⟩

theorem deepMergeLawful {target source : Value} (held : target.lawful = true)
    (fits : source.lawful = true) : (deepMerge target source).lawful = true := by
  induction source using Value.fromParts generalizing target with
  | items new ih =>
    cases target with
    | arr old =>
      refine Value.lawfulList.mpr fun x mem => ?_
      rcases List.mem_append.mp mem with there | listed
      · exact Value.lawfulList.mp held x there
      · exact Value.lawfulList.mp fits x (memNewcomers listed)
    | _ => exact fits
  | members new ih =>
    obtain ⟨once, each⟩ := Value.lawfulObject.mp fits
    cases target with
    | obj old =>
      obtain ⟨once', each'⟩ := Value.lawfulObject.mp held
      rw [deepMergeObjects, Value.lawfulObject, keysJoined]
      refine ⟨List.nodup_append.mpr ⟨once', once.filter _, ?_⟩, fun e mem => ?_⟩
      · rintro k there _ listed rfl
        simp [Entries.hasIff.mpr there] at listed
      · rcases List.mem_append.mp mem with kept | added
        · obtain ⟨e', inside, rfl⟩ := List.mem_map.mp kept
          cases found : new.lookup e'.1 with
          | none => rw [mergedNone found]; exact each' e' inside
          | some w =>
            rw [mergedUnder found]
            have mem' := Entries.mem_of_lookup found
            exact ih _ mem' (each' e' inside) (each _ mem')
        · obtain ⟨e', inside, rfl⟩ := List.mem_map.mp added
          rw [deepMergeNull]
          exact each e' (List.mem_of_mem_filter inside)
    | _ => exact fits
  | leaf source noItems noMembers =>
    rw [deepMergeLeaf noItems noMembers]
    exact fits

theorem deepMergeSelf {v : Value} (fits : v.lawful = true) : deepMerge v v = v := by
  induction v using Value.fromParts with
  | items xs ih =>
    have each := Value.lawfulList.mp fits
    rw [deepMerge, newcomersNone fun x mem => containsSelf (each x mem) mem, List.append_nil]
  | members es ih =>
    obtain ⟨once, each⟩ := Value.lawfulObject.mp fits
    have kept : ∀ e ∈ es, mergedMember deepMerge es e = e := fun e mem => by
      rw [mergedUnder (Entries.lookupOfMem once mem), ih e mem (each e mem)]
    have listed : ∀ e ∈ es, ¬(!Entries.has e.1 es) = true := fun e mem => by
      simp [Entries.hasIff.mpr (List.mem_map_of_mem mem)]
    rw [deepMergeObjects, joined, List.map_congr_left kept, List.filter_eq_nil_iff.mpr listed]
    simp
  | leaf v noItems noMembers => exact deepMergeLeaf noItems noMembers v

theorem deepMergeAgain {target source : Value} (held : target.lawful = true)
    (fits : source.lawful = true) :
    deepMerge (deepMerge target source) source = deepMerge target source := by
  induction source using Value.fromParts generalizing target with
  | items new ih =>
    cases target with
    | arr old =>
      have before := Value.lawfulList.mp held
      have each := Value.lawfulList.mp fits
      have parts : ∀ x ∈ old ++ new, x.lawful = true :=
        fun x mem => (List.mem_append.mp mem).elim (before x) (each x)
      have found : ∀ x ∈ new, (old ++ newcomers old new).contains x = true := fun x mem => by
        rw [newcomersContain parts (each x mem)]
        exact containsSelf (each x mem) (List.mem_append_right _ mem)
      rw [deepMerge, deepMerge, newcomersNone found, List.append_nil]
    | _ => exact deepMergeSelf fits
  | members new ih =>
    cases target with
    | obj old =>
      obtain ⟨once, each⟩ := Value.lawfulObject.mp fits
      obtain ⟨_, each'⟩ := Value.lawfulObject.mp held
      rw [deepMergeObjects, deepMergeObjects]
      refine congrArg Value.obj (joinedAgain once fun e mem v there => ih e mem ?_ (each e mem))
      rcases there with rfl | ⟨k, inside⟩
      · rfl
      · exact each' _ inside
    | _ => exact deepMergeSelf fits
  | leaf source noItems noMembers =>
    rw [deepMergeLeaf noItems noMembers, deepMergeLeaf noItems noMembers]

/- A second merge of the same fragment changes nothing. -/
theorem mergedAgain {target source : Value} (held : target.lawful = true)
    (fits : source.lawful = true) (plain : undirected source = true) :
    merge (merge target source) source = merge target source := by
  rw [mergeDeep held fits plain, mergeDeep (deepMergeLawful held fits) fits plain,
    deepMergeAgain held fits]

theorem ratedAgain : ratedDocument.lawful = true ∧ ratedFragment.lawful = true ∧
    undirected ratedFragment = true ∧
    merge (merge ratedDocument ratedFragment) ratedFragment = merge ratedDocument ratedFragment := by
  have held : ratedDocument.lawful = true := by decide
  have fits : ratedFragment.lawful = true := by decide
  have plain : undirected ratedFragment = true := by decide
  exact ⟨held, fits, plain, mergedAgain held fits plain⟩

end ApiGraph.Merge
