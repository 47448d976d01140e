import ApiGraph.Graph.Build
import ApiGraph.Proofs.Lawful

/-! Writing into a document. A write is followed down its segments: it rewrites a member or an element
on every level, or it adds the value to the end of a list. A written document is read as it is meant to
be, and what is written of a lawful document is lawful, so a build leaves one. -/
namespace ApiGraph.Tree
open Json

inductive Wrote (v : Value) : List String → Value → Value → Prop
  | here (node) : Wrote v [] node v
  | member {s r node members w} (isObject : opened node = .obj members)
      (below : Wrote v r ((members.lookup s).getD (.obj [])) w) :
      Wrote v (s :: r) node (.obj (Entries.put s w members))
  | element {s r items i item w} (named : index? s = some i) (held : items[i]? = some item)
      (below : Wrote v r item w) : Wrote v (s :: r) (.arr items) (.arr (items.set i w))
  | appended {s items} (named : index? s = some items.length) :
      Wrote v [s] (.arr items) (.arr (items ++ [v]))

theorem openedList {node : Value} {items : List Value} (isList : opened node = .arr items) :
    node = .arr items := by
  cases node <;> simp [opened] at isList
  rw [isList]

section Writes
variable {v node node' : Value} {segments : List String}

theorem writeFollowed (written : write? v segments node = some node') :
    Wrote v segments node node' := by
  induction segments generalizing node node' with
  | nil =>
    cases written
    exact .here _
  | cons s r ih =>
    unfold write? at written
    split at written
    · rename_i members isObject
      obtain ⟨w, below, rfl⟩ := Option.map_eq_some_iff.mp written
      exact .member isObject (ih below)
    · rename_i items isList
      cases openedList isList
      obtain ⟨i, named, further⟩ := Option.bind_eq_some_iff.mp written
      split at further
      · rename_i item held
        obtain ⟨w, below, rfl⟩ := Option.map_eq_some_iff.mp further
        exact .element named held (ih below)
      · split at further
        · rename_i last
          simp only [Bool.and_eq_true, decide_eq_true_eq, List.isEmpty_iff] at last
          obtain ⟨rfl, rfl⟩ := last
          cases further
          exact .appended named
        · contradiction
    · contradiction

theorem Wrote.write (wrote : Wrote v segments node node') : write? v segments node = some node' := by
  induction wrote with
  | here => rfl
  | member isObject _ ih => simp [write?, isObject, ih]
  | element named held _ ih => simp [write?, opened, named, held, ih]
  | appended named => simp [write?, opened, named]

theorem lawfulOpened {members : Members} (lawful : node.lawful = true)
    (isObject : opened node = .obj members) : (Value.obj members).lawful = true := by
  cases node <;> simp only [opened, reduceCtorEq, Value.obj.injEq] at isObject
  · exact isObject ▸ rfl
  · exact isObject ▸ lawful

theorem lawfulMember {members : Members} (lawful : (Value.obj members).lawful = true)
    (s : String) : ((members.lookup s).getD (.obj [])).lawful = true := by
  cases held : members.lookup s with
  | none => rfl
  | some x => exact (Value.lawfulObject.mp lawful).2 _ (Entries.mem_of_lookup held)

theorem lawfulObjectPut {members : Members} {key : String} (lawful : (Value.obj members).lawful = true)
    (fits : v.lawful = true) : (Value.obj (Entries.put key v members)).lawful = true := by
  obtain ⟨once, each⟩ := Value.lawfulObject.mp lawful
  refine Value.lawfulObject.mpr ⟨Entries.nodupPut _ _ once, fun e mem => ?_⟩
  rcases Entries.memPut mem with rfl | old
  · exact fits
  · exact each e old

theorem lawfulListSet {items : List Value} {i : Nat} (lawful : (Value.arr items).lawful = true)
    (fits : v.lawful = true) : (Value.arr (items.set i v)).lawful = true := by
  refine Value.lawfulList.mpr fun x mem => ?_
  rcases List.mem_or_eq_of_mem_set mem with old | rfl
  · exact Value.lawfulList.mp lawful x old
  · exact fits

theorem lawfulListAppend {items : List Value} (lawful : (Value.arr items).lawful = true)
    (fits : v.lawful = true) : (Value.arr (items ++ [v])).lawful = true := by
  refine Value.lawfulList.mpr fun x mem => ?_
  rcases List.mem_append.mp mem with old | new
  · exact Value.lawfulList.mp lawful x old
  · exact List.mem_singleton.mp new ▸ fits

theorem Wrote.lawful (wrote : Wrote v segments node node') (fits : v.lawful = true)
    (before : node.lawful = true) : node'.lawful = true := by
  induction wrote with
  | here => exact fits
  | @member s r node members w isObject _ ih =>
    have opened := lawfulOpened before isObject
    exact lawfulObjectPut opened (ih (lawfulMember opened s))
  | element named held _ ih =>
    have each := Value.lawfulList.mp before
    exact lawfulListSet before (ih (each _ (List.mem_of_getElem? held)))
  | appended => exact lawfulListAppend before fits

theorem Wrote.reads (wrote : Wrote v segments node node') : walk? segments node' = some v := by
  induction wrote with
  | here => rfl
  | member isObject _ ih => simpa [walk?, step?] using ih
  | element named held _ ih =>
    obtain ⟨inside, _⟩ := List.getElem?_eq_some_iff.mp held
    simpa [walk?, step?, named, inside] using ih
  | appended named => simp [walk?, step?, named]

theorem Wrote.others {s k : String} {r : List String} (wrote : Wrote v (s :: r) node node')
    (other : k ≠ s) : node'.get? k = node.get? k := by
  cases wrote with
  | member isObject _ =>
    rw [Value.get?, Entries.lookupPutOther other]
    cases node <;> simp only [opened, reduceCtorEq, Value.obj.injEq] at isObject
    · exact isObject ▸ rfl
    · exact isObject ▸ rfl
  | element => rfl
  | appended => rfl

end Writes

theorem lawfulSet {l : Location} {v doc doc' : Value} (fits : v.lawful = true)
    (lawful : doc.lawful = true) (written : set? l v doc = some doc') : doc'.lawful = true :=
  (writeFollowed written).lawful fits lawful

theorem setReads {l : Location} {v doc doc' : Value} (written : set? l v doc = some doc') :
    get? l doc' = some v :=
  (writeFollowed written).reads

theorem setLawful {l : Location} {v doc : Value} (fits : v.lawful = true) (lawful : doc.lawful = true) :
    (Tree.set l v doc).lawful = true := by
  rw [Tree.set]
  cases written : set? l v doc with
  | none => exact lawful
  | some doc' => exact lawfulSet fits lawful written

end ApiGraph.Tree

namespace ApiGraph.Declaration
open Json ApiGraph.Tree
variable {c : Config} {doc doc' : Value} {n : Nat}

theorem writeIdsLawful {ids : List (Location × String)} (lawful : doc.lawful = true) :
    (writeIds ids doc).1.lawful = true := by
  unfold writeIds
  refine List.foldlRecOn (motive := fun acc : Value × Nat => acc.1.lawful = true) ids _ lawful
    fun acc lawful e _ => ?_
  cases written : Tree.set? e.1 (.str e.2) acc.1 with
  | none => exact lawful
  | some doc' => exact lawfulSet rfl lawful written

theorem writeTagsLawful {names : List String} (lawful : doc.lawful = true) :
    (writeTags names doc).lawful = true := by
  have added : ∀ x ∈ names.map fun name => Value.obj [("name", .str name)], x.lawful = true := by
    intro x mem
    obtain ⟨name, _, rfl⟩ := List.mem_map.mp mem
    rfl
  unfold writeTags
  split
  · exact lawful
  · refine setLawful (Value.lawfulList.mpr fun x mem => ?_) lawful
    rcases List.mem_append.mp mem with old | new
    · split at old
      · rename_i items held
        exact Value.lawfulList.mp (lawfulAt lawful held) x old
      · contradiction
    · exact added x new

theorem declareLawful (lawful : doc.lawful = true) (run : declare c doc = .ok (doc', n)) :
    doc'.lawful = true := by
  simp only [declare, bind, Except.bind] at run
  split at run
  · contradiction
  split at run
  · contradiction
  cases run
  exact writeTagsLawful (writeIdsLawful lawful)

end ApiGraph.Declaration

namespace ApiGraph.Build
open Json

theorem buildLawful {c : Config} {doc doc' : Value} {result : Except Failure Graph}
    (lawful : doc.lawful = true) (run : build c doc = (doc', result)) : doc'.lawful = true := by
  unfold build at run
  split at run
  · cases run
    exact lawful
  · rename_i told
    cases run
    exact Declaration.declareLawful lawful told

end ApiGraph.Build
