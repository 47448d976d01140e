import ApiGraph.Canonical.Exclusion
import ApiGraph.Proofs.Writes
import Mathlib.Data.List.Nodup

/-! What exclusion takes out. A path is followed in what the paths before it have left, so it may come
to another place of the document than it names there: elements of a list move up when one before them
is taken out. Counted back to the document, the places that the paths come to are taken out, all at
once and nothing else. Where no path moves what a later one goes through, these are the places named. -/
namespace ApiGraph.Exclusion
open Json ApiGraph.Tree

def below (gone : List Step → Bool) (t : Step) : List Step → Bool := fun p => gone (t :: p)

/- The value without what stands at the places that are gone, and without what is inside. The value
itself always stays. -/
mutual
def without (gone : List Step → Bool) : Value → Value
  | .arr items => .arr (itemsWithout gone 0 items)
  | .obj members => .obj (membersWithout gone members)
  | v => v
termination_by structural v => v
def itemsWithout (gone : List Step → Bool) (i : Nat) : List Value → List Value
  | [] => []
  | x :: r =>
    if gone [.index i] then itemsWithout gone (i + 1) r
    else without (below gone (.index i)) x :: itemsWithout gone (i + 1) r
termination_by structural xs => xs
def membersWithout (gone : List Step → Bool) : List (String × Value) → List (String × Value)
  | [] => []
  | (k, x) :: r =>
    if gone [.key k] then membersWithout gone r
    else (k, without (below gone (.key k)) x) :: membersWithout gone r
termination_by structural xs => xs
end

def left (gone : List Step → Bool) (items : List Value) : List (Value × Nat) :=
  items.zipIdx.filter fun e => !gone [.index e.2]

section Left
variable {gone : List Step → Bool} {members : Members} {items : List Value} {k : String}

theorem itemsLeft (gone : List Step → Bool) (items : List Value) : itemsWithout gone 0 items =
    (left gone items).map fun e => without (below gone (.index e.2)) e.1 := by
  have counted : ∀ n, itemsWithout gone n items =
      ((items.zipIdx n).filter fun e => !gone [.index e.2]).map
        fun e => without (below gone (.index e.2)) e.1 := by
    induction items with
    | nil => exact fun _ => rfl
    | cons x r ih =>
      intro n
      cases out : gone [.index n] <;> simp [itemsWithout, out, ih]
  exact counted 0

theorem membersLeft (gone : List Step → Bool) (members : Members) : membersWithout gone members =
    (members.filter fun e => !gone [.key e.1]).map
      fun e => (e.1, without (below gone (.key e.1)) e.2) := by
  induction members with
  | nil => rfl
  | cons e r ih => cases out : gone [.key e.1] <;> simp [membersWithout, out, ih]

theorem keysLeft (gone : List Step → Bool) (members : Members) :
    Entries.keys (membersWithout gone members) =
      (Entries.keys members).filter fun k => !gone [.key k] := by
  rw [membersLeft, Entries.keys, List.map_map, Entries.keys, List.filter_map]
  rfl

theorem lookupLeft (gone : List Step → Bool) (members : Members) (k : String) :
    (membersWithout gone members).lookup k =
      if gone [.key k] then none
      else (members.lookup k).map (without (below gone (.key k))) := by
  induction members with
  | nil => simp [membersWithout]
  | cons e r ih =>
    obtain ⟨k', x⟩ := e
    by_cases here : k = k'
    · subst here
      cases out : gone [.key k] <;> simp [membersWithout, out, ih]
    · have other : (k == k') = false := beq_eq_false_iff_ne.mpr here
      cases out : gone [.key k'] <;> simp [membersWithout, out, ih, List.lookup_cons, other]

end Left

theorem leftSource {gone : List Step → Bool} {items : List Value} {i : Nat} {e : Value × Nat}
    (held : (left gone items)[i]? = some e) : items[e.2]? = some e.1 ∧ gone [.index e.2] = false := by
  obtain ⟨listed, stays⟩ := List.mem_filter.mp (List.mem_of_getElem? held)
  exact ⟨List.mem_zipIdx_iff_getElem?.mp listed, by simpa using stays⟩

def adding (gone : List Step → Bool) (p : List Step) : List Step → Bool := fun q => gone q || q == p

theorem belowAdding (gone : List Step → Bool) (t : Step) (p : List Step) :
    below (adding gone (t :: p)) t = adding (below gone t) p := by
  funext q
  simp [below, adding]

theorem belowOther {gone : List Step → Bool} {t t' : Step} (other : t ≠ t') (p : List Step) :
    below (adding gone (t' :: p)) t = below gone t := by
  funext q
  simp [below, adding, other]

section Keyed
variable {α β κ : Type} {key : α → κ} {xs : List α} {i : Nat} {x : α}

theorem keyOther (once : (xs.map key).Nodup) (held : xs[i]? = some x) {j : Nat} {y : α}
    (other : i ≠ j) (there : xs[j]? = some y) : key y ≠ key x := by
  intro same
  have small : j < (xs.map key).length := by
    rw [List.length_map]
    exact (List.getElem?_eq_some_iff.mp there).1
  refine other ((List.getElem?_inj small once).mp ?_).symm
  rw [List.getElem?_map, List.getElem?_map, there, held, Option.map_some, Option.map_some, same]

theorem mapSet (once : (xs.map key).Nodup) (held : xs[i]? = some x) {f g : α → β}
    (others : ∀ y ∈ xs, key y ≠ key x → g y = f y) : (xs.map f).set i (g x) = xs.map g := by
  refine List.ext_getElem? fun j => ?_
  rw [List.getElem?_set, List.getElem?_map, List.getElem?_map, List.length_map]
  split
  · rename_i same
    subst same
    rw [if_pos (List.getElem?_eq_some_iff.mp held).1, held, Option.map_some]
  · rename_i other
    cases there : xs[j]? with
    | none => rfl
    | some y =>
      rw [Option.map_some, Option.map_some,
        others y (List.mem_of_getElem? there) (keyOther once held other there)]

variable [DecidableEq κ]

theorem erasedFilter (once : (xs.map key).Nodup) (held : xs[i]? = some x) :
    xs.eraseIdx i = xs.filter fun y => key y != key x := by
  induction xs generalizing i with
  | nil => simp at held
  | cons y r ih =>
    obtain ⟨fresh, rest⟩ := List.nodup_cons.mp once
    cases i with
    | zero =>
      cases held
      have others : ∀ y ∈ r, (key y != key x) = true := by
        intro y mem
        rw [bne_iff_ne]
        exact fun same => fresh (List.mem_map.mpr ⟨y, mem, same⟩)
      simp [List.filter_eq_self.mpr others]
    | succ i =>
      have mem : x ∈ r := List.mem_of_getElem? held
      have other : key y ≠ key x := fun same => fresh (List.mem_map.mpr ⟨x, mem, same.symm⟩)
      simp [other, ih rest held]

end Keyed

theorem indicesOnce (gone : List Step → Bool) (items : List Value) :
    ((left gone items).map Prod.snd).Nodup := by
  refine List.Nodup.sublist (List.filter_sublist.map Prod.snd) ?_
  rw [List.zipIdx_map_snd]
  exact List.nodup_range'

theorem erasedEntry {β : Type} {es : List (String × β)} (once : (Entries.keys es).Nodup) (k : String) :
    Entries.erase k es = es.filter fun e => e.1 != k := by
  induction es with
  | nil => rfl
  | cons e r ih =>
    obtain ⟨fresh, rest⟩ := List.nodup_cons.mp once
    by_cases here : e.1 = k
    · have others : ∀ e' ∈ r, (e'.1 != k) = true := by
        intro e' mem
        rw [bne_iff_ne, ← here]
        exact fun same => fresh (List.mem_map.mpr ⟨e', mem, same⟩)
      simp [Entries.erase, here, List.filter_eq_self.mpr others]
    · have more := ih rest
      rw [Entries.erase] at more ⊢
      simp [here, more]

theorem addingHere (gone : List Step → Bool) (t t' : Step) :
    adding gone [t'] [t] = (gone [t] || t == t') := by
  simp [adding]

theorem addingInside (gone : List Step → Bool) (t t' : Step) {p : List Step} (inside : p ≠ []) :
    adding gone (t' :: p) [t] = gone [t] := by
  simp [adding, inside]

section More
variable {gone : List Step → Bool} {members : Members} {items : List Value} {k : String} {x : Value}
  {p : List Step}

theorem membersOnce (gone : List Step → Bool) (once : (Entries.keys members).Nodup) :
    (Entries.keys (membersWithout gone members)).Nodup := by
  rw [keysLeft]
  exact once.filter _

theorem membersErased (once : (Entries.keys members).Nodup) :
    Entries.erase k (membersWithout gone members) = membersWithout (adding gone [.key k]) members := by
  rw [erasedEntry (membersOnce gone once), membersLeft, membersLeft, List.filter_map,
    List.filter_filter]
  have kept : ∀ e : String × Value, (!adding gone [.key k] [.key e.1]) =
      (e.1 != k && !gone [.key e.1]) := by
    intro e
    rw [addingHere]
    cases gone [.key e.1] <;> simp [bne]
  simp only [kept]
  refine List.map_congr_left fun e mem => ?_
  have other : Step.key e.1 ≠ .key k := by
    have inside := (List.mem_filter.mp mem).2
    simp only [Bool.and_eq_true, Function.comp_apply, bne_iff_ne] at inside
    simpa using inside.1
  rw [belowOther other]

theorem membersRewritten (once : (Entries.keys members).Nodup) (held : members.lookup k = some x)
    (stays : gone [.key k] = false) (inside : p ≠ []) :
    Entries.put k (without (adding (below gone (.key k)) p) x) (membersWithout gone members) =
      membersWithout (adding gone (.key k :: p)) members := by
  have there : (membersWithout gone members).lookup k = some (without (below gone (.key k)) x) := by
    rw [lookupLeft, stays, held]
    rfl
  rw [Entries.putHeld _ (membersOnce gone once) there, membersLeft, membersLeft, List.map_map]
  simp only [addingInside gone _ _ inside]
  refine List.map_congr_left fun e mem => ?_
  rw [Function.comp_apply]
  by_cases here : e.1 = k
  · have same : e.2 = x := by
      have found := Entries.lookupOfMem once (List.mem_of_mem_filter mem)
      rw [here, held] at found
      exact (Option.some.inj found).symm
    simp [here, same, belowAdding]
  · have other : Step.key e.1 ≠ .key k := by simpa using here
    simp [here, belowOther other]

theorem itemsErased {i : Nat} {e : Value × Nat} (held : (left gone items)[i]? = some e) :
    (itemsWithout gone 0 items).eraseIdx i = itemsWithout (adding gone [.index e.2]) 0 items := by
  have kept : left (adding gone [.index e.2]) items =
      (left gone items).filter fun e' => e'.2 != e.2 := by
    rw [left, left, List.filter_filter]
    refine List.filter_congr fun e' _ => ?_
    rw [addingHere]
    cases gone [.index e'.2] <;> simp [bne]
  rw [itemsLeft, itemsLeft, List.eraseIdx_map, erasedFilter (indicesOnce gone items) held, kept]
  refine List.map_congr_left fun e' mem => ?_
  have other : Step.index e'.2 ≠ .index e.2 := by simpa using (List.mem_filter.mp mem).2
  rw [belowOther other]

theorem itemsRewritten {i : Nat} {e : Value × Nat} (held : (left gone items)[i]? = some e)
    (inside : p ≠ []) :
    (itemsWithout gone 0 items).set i (without (adding (below gone (.index e.2)) p) e.1) =
      itemsWithout (adding gone (.index e.2 :: p)) 0 items := by
  have kept : left (adding gone (.index e.2 :: p)) items = left gone items := by
    rw [left, left]
    refine List.filter_congr fun e' _ => ?_
    rw [addingInside gone _ _ inside]
  rw [itemsLeft, itemsLeft, kept, ← belowAdding]
  refine mapSet (indicesOnce gone items) held
    (g := fun e' => without (below (adding gone (.index e.2 :: p)) (.index e'.2)) e'.1)
    fun e' _ apart => ?_
  have other : Step.index e'.2 ≠ .index e.2 := by simpa using apart
  rw [belowOther other]

end More

/- The place of the document that a path comes to when the places that are gone have been left out. -/
def origin (gone : List Step → Bool) : List String → Value → Option (List Step)
  | [], _ => some []
  | s :: r, .obj members =>
    if gone [.key s] then none
    else (members.lookup s).bind fun x => (origin (below gone (.key s)) r x).map (.key s :: ·)
  | s :: r, .arr items =>
    (index? s).bind fun i => (left gone items)[i]?.bind fun e =>
      (origin (below gone (.index e.2)) r e.1).map (.index e.2 :: ·)
  | _ :: _, _ => none

section Origin
variable {gone : List Step → Bool} {s : String} {r : List String} {p : List Step}

theorem originMember {members : Members} (comes : origin gone (s :: r) (.obj members) = some p) :
    ∃ x q, gone [.key s] = false ∧ members.lookup s = some x ∧
      origin (below gone (.key s)) r x = some q ∧ p = .key s :: q := by
  rw [origin] at comes
  split at comes
  · contradiction
  · rename_i stays
    obtain ⟨x, held, further⟩ := Option.bind_eq_some_iff.mp comes
    obtain ⟨q, rest, rfl⟩ := Option.map_eq_some_iff.mp further
    exact ⟨x, q, by simpa using stays, held, rest, rfl⟩

theorem originElement {items : List Value} (comes : origin gone (s :: r) (.arr items) = some p) :
    ∃ i e q, index? s = some i ∧ (left gone items)[i]? = some e ∧
      origin (below gone (.index e.2)) r e.1 = some q ∧ p = .index e.2 :: q := by
  obtain ⟨i, named, further⟩ := Option.bind_eq_some_iff.mp comes
  obtain ⟨e, held, further⟩ := Option.bind_eq_some_iff.mp further
  obtain ⟨q, rest, rfl⟩ := Option.map_eq_some_iff.mp further
  exact ⟨i, e, q, named, held, rest, rfl⟩

theorem originLength {l : List String} {v : Value} (comes : origin gone l v = some p) :
    p.length = l.length := by
  induction l generalizing gone v p with
  | nil => cases comes; rfl
  | cons s r ih =>
    cases v with
    | obj members =>
      obtain ⟨_, q, _, _, rest, rfl⟩ := originMember comes
      simp [ih rest]
    | arr items =>
      obtain ⟨_, _, q, _, _, rest, rfl⟩ := originElement comes
      simp [ih rest]
    | _ => contradiction

theorem originInside {v : Value} (comes : origin gone r v = some p) (inner : r ≠ []) : p ≠ [] := by
  rw [← List.length_pos_iff, originLength comes]
  exact List.length_pos_iff.mpr inner

end Origin

theorem takenInside (f : Value → Value) (taken : Option (Value × Value)) :
    (taken.map fun t => (t.1, f t.2)).map Prod.snd = (taken.map Prod.snd).map f := by
  cases taken <;> rfl

theorem takeLeft {gone : List Step → Bool} {l : List String} {v : Value} (lawful : v.lawful = true)
    (filled : l ≠ []) : (take? l (without gone v)).map Prod.snd =
      (origin gone l v).map fun p => without (adding gone p) v := by
  induction l generalizing gone v with
  | nil => contradiction
  | cons s r ih =>
    cases v with
    | obj members =>
      obtain ⟨once, each⟩ := Value.lawfulObject.mp lawful
      rw [without, take?, lookupLeft, origin]
      cases out : gone [.key s] with
      | true => simp
      | false =>
        cases held : members.lookup s with
        | none => simp
        | some x =>
          cases r with
          | nil => simp [origin, without, membersErased once]
          | cons s' r' =>
            have inner := List.cons_ne_nil s' r'
            have deeper := @ih (below gone (.key s)) x (each _ (Entries.mem_of_lookup held)) inner
            simp only [Bool.false_eq_true, if_false, Option.map_some, Option.bind_some,
              List.isEmpty_cons]
            rw [takenInside fun w => .obj (Entries.put s w (membersWithout gone members)), deeper,
              Option.map_map, Option.map_map]
            refine Option.map_congr fun p comes => ?_
            simp [without, membersRewritten once held out (originInside comes inner)]
    | arr items =>
      have each := Value.lawfulList.mp lawful
      rw [without, take?, origin]
      cases named : index? s with
      | none => rfl
      | some i =>
        have there : (itemsWithout gone 0 items)[i]? = (left gone items)[i]?.map
            fun e => without (below gone (.index e.2)) e.1 := by
          rw [itemsLeft, List.getElem?_map]
        rw [Option.bind_some, Option.bind_some, there]
        cases held : (left gone items)[i]? with
        | none => rfl
        | some e =>
          cases r with
          | nil => simp [origin, without, itemsErased held]
          | cons s' r' =>
            have inner := List.cons_ne_nil s' r'
            have mem : e.1 ∈ items := List.mem_of_getElem? (leftSource held).1
            have deeper := @ih (below gone (.index e.2)) e.1 (each _ mem) inner
            simp only [Bool.false_eq_true, if_false, Option.map_some, Option.bind_some,
              List.isEmpty_cons]
            rw [takenInside fun w => .arr ((itemsWithout gone 0 items).set i w), deeper,
              Option.map_map, Option.map_map]
            refine Option.map_congr fun p comes => ?_
            simp [without, itemsRewritten held (originInside comes inner)]
    | _ => rfl

def placeTaken (doc : Value) (gone : List (List Step)) (path : String) : List (List Step) :=
  match origin gone.contains (ofDotted path).segments doc with
  | some (t :: p) => gone ++ [t :: p]
  | _ => gone

def placesTaken (doc : Value) (paths : List String) : List (List Step) :=
  paths.foldl (placeTaken doc) []

theorem takenSnoc (doc : Value) (paths : List String) (path : String) :
    placesTaken doc (paths ++ [path]) = placeTaken doc (placesTaken doc paths) path := by
  simp [placesTaken]

theorem withoutNothing (v : Value) : without (fun _ => false) v = v := by
  induction v using Value.fromParts with
  | items xs ih =>
    have same : ∀ n, itemsWithout (fun _ => false) n xs = xs := by
      induction xs with
      | nil => exact fun _ => rfl
      | cons x r rest =>
        intro n
        have here := ih x List.mem_cons_self
        simp only [itemsWithout, Bool.false_eq_true, if_false, List.cons.injEq]
        exact ⟨here, rest (fun y mem => ih y (List.mem_cons_of_mem _ mem)) (n + 1)⟩
    rw [without, same]
  | members es ih =>
    have same : membersWithout (fun _ => false) es = es := by
      induction es with
      | nil => rfl
      | cons e r rest =>
        have here := ih e List.mem_cons_self
        simp only [membersWithout, Bool.false_eq_true, if_false, List.cons.injEq]
        exact ⟨Prod.ext rfl here, rest fun y mem => ih y (List.mem_cons_of_mem _ mem)⟩
    rw [without, same]
  | leaf v noItems noMembers => cases v <;> first | rfl | contradiction

theorem addingContains (gone : List (List Step)) (p : List Step) :
    adding gone.contains p = (gone ++ [p]).contains := by
  funext q
  simp [adding, beq_eq_decide]

theorem excludeOne {doc : Value} (lawful : doc.lawful = true) (gone : List (List Step)) (path : String) :
    (match remove? (ofDotted path) (without gone.contains doc) with
      | some (_, doc') => (doc', gone.length + 1)
      | none => (without gone.contains doc, gone.length)) =
      (without (placeTaken doc gone path).contains doc, (placeTaken doc gone path).length) := by
  unfold remove? placeTaken
  cases root : (ofDotted path).segments with
  | nil => rfl
  | cons s r =>
    have takes := @takeLeft gone.contains (s :: r) doc lawful (List.cons_ne_nil s r)
    cases comes : origin gone.contains (s :: r) doc with
    | none =>
      rw [comes, Option.map_none, Option.map_eq_none_iff] at takes
      rw [takes]
    | some p =>
      have inside := originInside comes (List.cons_ne_nil s r)
      rw [comes, Option.map_some] at takes
      obtain ⟨⟨x, doc'⟩, taken, rfl⟩ := Option.map_eq_some_iff.mp takes
      cases p with
      | nil => contradiction
      | cons t p => rw [taken]; simp [addingContains]

theorem excludeTakes {doc : Value} (lawful : doc.lawful = true) (paths : List String) :
    exclude paths doc =
      (without (placesTaken doc paths).contains doc, (placesTaken doc paths).length) := by
  have from_ : ∀ gone : List (List Step), paths.foldl (fun acc path =>
      match remove? (ofDotted path) acc.1 with
        | some (_, doc') => (doc', acc.2 + 1)
        | none => acc) (without gone.contains doc, gone.length) =
      (without (paths.foldl (placeTaken doc) gone).contains doc,
        (paths.foldl (placeTaken doc) gone).length) := by
    induction paths with
    | nil => exact fun _ => rfl
    | cons path paths ih =>
      intro gone
      rw [List.foldl_cons, List.foldl_cons, ← ih (placeTaken doc gone path), ← excludeOne lawful]
  have start := from_ []
  have nothing : ([] : List (List Step)).contains = fun _ => false := rfl
  rw [nothing, withoutNothing] at start
  exact start

def Covered (gone : List Step → Bool) (p : List Step) : Prop :=
  ∃ q, q ≠ [] ∧ q <+: p ∧ gone q = true

section Covering
variable {gone gone' : List Step → Bool} {t : Step} {p : List Step}

theorem coveredCons : Covered gone (t :: p) ↔ gone [t] = true ∨ Covered (below gone t) p := by
  constructor
  · rintro ⟨q, filled, inside, out⟩
    cases q with
    | nil => contradiction
    | cons t' q =>
      obtain ⟨rfl, further⟩ := List.cons_prefix_cons.mp inside
      cases q with
      | nil => exact .inl out
      | cons t' q => exact .inr ⟨t' :: q, List.cons_ne_nil _ _, further, out⟩
  · rintro (out | ⟨q, _, inside, out⟩)
    · exact ⟨[t], List.cons_ne_nil _ _, by simp, out⟩
    · exact ⟨t :: q, List.cons_ne_nil _ _, List.cons_prefix_cons.mpr ⟨rfl, inside⟩, out⟩

theorem coveredNil : ¬ Covered gone [] := by
  rintro ⟨q, filled, inside, _⟩
  exact filled (List.prefix_nil.mp inside)

theorem coveredOne : Covered gone [t] ↔ gone [t] = true := by
  rw [coveredCons, or_iff_left coveredNil]

def CoverAlike (v : Value) (gone gone' : List Step → Bool) : Prop :=
  ∀ l x, walk? l v = some x → (Covered gone (position v l) ↔ Covered gone' (position v l))

theorem CoverAlike.part {v x : Value} {s : String} (alike : CoverAlike v gone gone')
    (held : step? v s = some x) (placed : ∀ l, position v (s :: l) = t :: position x l) :
    gone [t] = gone' [t] ∧ (gone [t] = false → CoverAlike x (below gone t) (below gone' t)) := by
  have here := alike [s] x (by simp [walk?, held])
  rw [placed, positionNil, coveredOne, coveredOne] at here
  have same : gone [t] = gone' [t] := Bool.eq_iff_iff.mpr here
  refine ⟨same, fun stays l y found => ?_⟩
  have there := alike (s :: l) y (by simp [walk?, held, found])
  rw [placed, coveredCons, coveredCons, ← same, stays] at there
  simpa using there

theorem elementNamed {items : List Value} {i : Nat} {x : Value}
    (found : items[i]? = some x) :
    index? (toString i) = some i ∧ step? (.arr items) (toString i) = some x :=
  ⟨indexOfNumeral i, by rw [step?, indexOfNumeral, Option.bind_some, found]⟩

theorem withoutCongr {v : Value} (lawful : v.lawful = true) (alike : CoverAlike v gone gone') :
    without gone v = without gone' v := by
  induction v using Value.fromParts generalizing gone gone' with
  | items xs ih =>
    have each := Value.lawfulList.mp lawful
    have part : ∀ e ∈ xs.zipIdx, gone [.index e.2] = gone' [.index e.2] ∧ (gone [.index e.2] = false →
        without (below gone (.index e.2)) e.1 = without (below gone' (.index e.2)) e.1) := by
      intro e mem
      have found := List.mem_zipIdx_iff_getElem?.mp mem
      obtain ⟨named, held⟩ := elementNamed found
      obtain ⟨same, deeper⟩ := alike.part held fun l => positionElement named found l
      have mem := List.mem_of_getElem? found
      exact ⟨same, fun stays => ih e.1 mem (each e.1 mem) (deeper stays)⟩
    rw [without, without, itemsLeft, itemsLeft, left, left,
      List.filter_congr fun e mem => by rw [(part e mem).1]]
    refine congrArg _ (List.map_congr_left fun e mem => ?_)
    obtain ⟨inside, stays⟩ := List.mem_filter.mp mem
    exact (part e inside).2 (by rw [(part e inside).1]; simpa using stays)
  | members es ih =>
    obtain ⟨once, each⟩ := Value.lawfulObject.mp lawful
    have part : ∀ e ∈ es, gone [.key e.1] = gone' [.key e.1] ∧ (gone [.key e.1] = false →
        without (below gone (.key e.1)) e.2 = without (below gone' (.key e.1)) e.2) := by
      intro e mem
      have found := Entries.lookupOfMem once mem
      obtain ⟨same, deeper⟩ := alike.part (v := .obj es) found fun l => positionMember found l
      exact ⟨same, fun stays => ih e mem (each e mem) (deeper stays)⟩
    rw [without, without, membersLeft, membersLeft,
      List.filter_congr fun e mem => by rw [(part e mem).1]]
    refine congrArg _ (List.map_congr_left fun e mem => ?_)
    obtain ⟨inside, stays⟩ := List.mem_filter.mp mem
    rw [(part e inside).2 (by rw [(part e inside).1]; simpa using stays)]
  | leaf v noItems noMembers => cases v <;> first | rfl | contradiction

end Covering

section Taken
variable {gone : List Step → Bool} {doc v : Value} {p : List Step} {l paths : List String}

theorem originThere (lawful : v.lawful = true) (comes : origin gone l v = some p) :
    ∃ l' x, walk? l' v = some x ∧ position v l' = p := by
  induction l generalizing gone v p with
  | nil => cases comes; exact ⟨[], v, rfl, positionNil v⟩
  | cons s r ih =>
    cases v with
    | obj members =>
      obtain ⟨x, q, _, held, rest, rfl⟩ := originMember comes
      obtain ⟨l', y, found, placed⟩ :=
        ih ((Value.lawfulObject.mp lawful).2 _ (Entries.mem_of_lookup held)) rest
      exact ⟨s :: l', y, by simp [walk?, step?, held, found], by rw [positionMember held, placed]⟩
    | arr items =>
      obtain ⟨_, e, q, _, held, rest, rfl⟩ := originElement comes
      obtain ⟨found, _⟩ := leftSource held
      obtain ⟨named, step⟩ := elementNamed found
      have each := Value.lawfulList.mp lawful
      obtain ⟨l', y, deeper, placed⟩ := ih (each _ (List.mem_of_getElem? found)) rest
      refine ⟨toString e.2 :: l', y, ?_, by rw [positionElement named found, placed]⟩
      rw [walk?, step, Option.bind_some, deeper]
    | _ => contradiction

theorem originUncovered (comes : origin gone l v = some p) : ¬ Covered gone p := by
  induction l generalizing gone v p with
  | nil => cases comes; exact coveredNil
  | cons s r ih =>
    cases v with
    | obj members =>
      obtain ⟨_, _, stays, _, rest, rfl⟩ := originMember comes
      rw [coveredCons, not_or, stays]
      exact ⟨Bool.false_ne_true, ih rest⟩
    | arr items =>
      obtain ⟨_, e, _, _, held, rest, rfl⟩ := originElement comes
      rw [coveredCons, not_or, (leftSource held).2]
      exact ⟨Bool.false_ne_true, ih rest⟩
    | _ => contradiction

theorem takenCases (doc : Value) (gone : List (List Step)) (path : String) :
    placeTaken doc gone path = gone ∨
      ∃ p, p ≠ [] ∧ origin gone.contains (ofDotted path).segments doc = some p ∧
        placeTaken doc gone path = gone ++ [p] := by
  unfold placeTaken
  split
  · rename_i t p comes
    exact .inr ⟨t :: p, List.cons_ne_nil _ _, comes, rfl⟩
  · exact .inl rfl

theorem takenThere (lawful : doc.lawful = true) (taken : p ∈ placesTaken doc paths) :
    ∃ l x, walk? l doc = some x ∧ position doc l = p := by
  induction paths using List.reverseRecOn with
  | nil => contradiction
  | append_singleton paths path ih =>
    rw [takenSnoc] at taken
    rcases takenCases doc (placesTaken doc paths) path with same | ⟨q, _, comes, more⟩
    · exact ih (same ▸ taken)
    · rw [more, List.mem_append, List.mem_singleton] at taken
      rcases taken with before | rfl
      · exact ih before
      · exact originThere lawful comes

theorem takenOnce (doc : Value) (paths : List String) :
    (placesTaken doc paths).Pairwise fun p q => ¬ p <+: q := by
  suffices filled : (∀ p ∈ placesTaken doc paths, p ≠ []) ∧
      (placesTaken doc paths).Pairwise fun p q => ¬ p <+: q from filled.2
  induction paths using List.reverseRecOn with
  | nil => exact ⟨nofun, .nil⟩
  | append_singleton paths path ih =>
    obtain ⟨filled, once⟩ := ih
    rw [takenSnoc]
    rcases takenCases doc (placesTaken doc paths) path with same | ⟨q, new, comes, more⟩
    · rw [same]
      exact ⟨filled, once⟩
    · rw [more]
      refine ⟨fun p mem => ?_, List.pairwise_append.mpr ⟨once, List.pairwise_singleton _ _, ?_⟩⟩
      · rcases List.mem_append.mp mem with before | last
        · exact filled p before
        · rwa [List.mem_singleton.mp last]
      · intro p mem q' last inside
        rw [List.mem_singleton.mp last] at inside
        exact originUncovered comes ⟨p, filled p mem, inside, List.contains_iff_mem.mpr mem⟩

end Taken

/- Of the lists that `m` goes through, no element is gone up to the one that it goes through, except for
that one if it is the last. -/
def Firm (gone : List Step → Bool) (v : Value) (m : List String) : Prop :=
  ∀ q s r items i j, m = q ++ s :: r → walk? q v = some (.arr items) → index? s = some j →
    j < items.length → i ≤ j → gone (position v q ++ [.index i]) = true →
    i = j ∧ j + 1 = items.length

section Firm
variable {gone : List Step → Bool} {v x : Value} {s : String} {r : List String} {t : Step}

theorem Firm.part (firm : Firm gone v (s :: r)) (held : step? v s = some x)
    (placed : ∀ l, position v (s :: l) = t :: position x l) : Firm (below gone t) x r := by
  intro q k rest items i j split list named small early out
  refine firm (s :: q) k rest items i j (by rw [split]; rfl) (by simp [walk?, held, list]) named small
    early ?_
  rw [placed]
  exact out

theorem leftFirst {items : List Value} {j : Nat} (held : items[j]? = some x)
    (stay : ∀ i ≤ j, gone [.index i] = false) : (left gone items)[j]? = some (x, j) := by
  have counted : ∀ n, (∀ i ≤ j, gone [.index (n + i)] = false) →
      ((items.zipIdx n).filter fun e => !gone [.index e.2])[j]? = some (x, n + j) := by
    clear stay
    induction items generalizing j with
    | nil => simp at held
    | cons y r ih =>
      intro n stay
      have here : gone [.index n] = false := stay 0 (Nat.zero_le _)
      rw [List.zipIdx_cons, List.filter_cons_of_pos (by simp [here])]
      cases j with
      | zero => cases held; rfl
      | succ j =>
        have more := ih held (n + 1) fun i small => by
          rw [Nat.add_assoc, Nat.add_comm 1 i]
          exact stay (i + 1) (by omega)
        rw [List.getElem?_cons_succ, more, Nat.add_assoc, Nat.add_comm 1 j]
  have from_ := counted 0 (by simpa using stay)
  rwa [Nat.zero_add] at from_

theorem leftShort {items : List Value} {i : Nat} (small : i < items.length)
    (out : gone [.index i] = true) : (left gone items).length < items.length := by
  have mem : (items[i], i) ∈ items.zipIdx :=
    List.mem_zipIdx_iff_getElem?.mpr (List.getElem?_eq_getElem small)
  rw [left, ← List.length_zipIdx (l := items) (i := 0)]
  exact List.length_filter_lt_length_iff_exists.mpr ⟨_, mem, by simp [out]⟩

theorem leftFirm {items : List Value} {j : Nat} (firm : Firm gone (.arr items) (s :: r))
    (named : index? s = some j) (held : items[j]? = some x) :
    gone [.index j] = false ∧ (left gone items)[j]? = some (x, j) ∨
      gone [.index j] = true ∧ (left gone items)[j]? = none := by
  have small := (List.getElem?_eq_some_iff.mp held).1
  have before : ∀ i ≤ j, gone [.index i] = true → i = j ∧ j + 1 = items.length := fun i early out =>
    firm [] s r items i j rfl rfl named small early (by simpa using out)
  cases out : gone [.index j] with
  | false =>
    refine .inl ⟨rfl, leftFirst held fun i early => ?_⟩
    by_contra early'
    have same := (before i early (by simpa using early')).1
    simp [same, out] at early'
  | true =>
    have short := leftShort small out
    have last := (before j (Nat.le_refl j) out).2
    exact .inr ⟨rfl, List.getElem?_eq_none_iff.mpr (by omega)⟩

theorem leftPast {items : List Value} {j : Nat} (absent : items[j]? = none) :
    (left gone items)[j]? = none := by
  have few : (left gone items).length ≤ items.zipIdx.length := List.length_filter_le _ _
  rw [List.length_zipIdx] at few
  have := List.getElem?_eq_none_iff.mp absent
  exact List.getElem?_eq_none_iff.mpr (by omega)

theorem originFirm {m : List String} (firm : Firm gone v m) :
    origin gone m v = some (position v m) ∨
      origin gone m v = none ∧ (walk? m v = none ∨ Covered gone (position v m)) := by
  induction m generalizing gone v with
  | nil => exact .inl (by rw [positionNil]; cases v <;> rfl)
  | cons s r ih =>
    cases v with
    | obj members =>
      rw [origin]
      cases out : gone [.key s] with
      | true =>
        refine .inr ⟨rfl, .inr ?_⟩
        rw [positionCons]
        exact coveredCons.mpr (.inl out)
      | false =>
        cases held : members.lookup s with
        | none => exact .inr ⟨rfl, .inl (by simp [walk?, step?, held])⟩
        | some x =>
          rw [positionMember held]
          rcases ih (firm.part (v := .obj members) held fun l => positionMember held l) with
            comes | ⟨nowhere, absent | covered⟩
          · exact .inl (by simp [comes])
          · exact .inr ⟨by simp [nowhere], .inl (by simp [walk?, step?, held, absent])⟩
          · exact .inr ⟨by simp [nowhere], .inr (coveredCons.mpr (.inr covered))⟩
    | arr items =>
      rw [origin]
      cases named : index? s with
      | none => exact .inr ⟨rfl, .inl (by simp [walk?, step?, named])⟩
      | some j =>
        rw [Option.bind_some]
        cases held : items[j]? with
        | none =>
          rw [leftPast held]
          exact .inr ⟨rfl, .inl (by simp [walk?, step?, named, held])⟩
        | some x =>
          have step : step? (.arr items) s = some x := by simp [step?, named, held]
          rw [positionElement named held]
          rcases leftFirm firm named held with ⟨_, found⟩ | ⟨out, found⟩
          · rw [found, Option.bind_some]
            rcases ih (firm.part step fun l => positionElement named held l) with
              comes | ⟨nowhere, absent | covered⟩
            · exact .inl (by simp [comes])
            · exact .inr ⟨by simp [nowhere], .inl (by simp [walk?, step, absent])⟩
            · exact .inr ⟨by simp [nowhere], .inr (coveredCons.mpr (.inr covered))⟩
          · rw [found]
            exact .inr ⟨rfl, .inr (coveredCons.mpr (.inl out))⟩
    | _ => exact .inr ⟨rfl, .inl rfl⟩

end Firm

/- What `l` takes out moves what `m` goes through: both go on in one list, `l` ends at an element of it,
and `m` goes through a later one, or through the same one when there are others behind it. -/
inductive Shifts (doc : Value) (l : List String) : List String → Prop
  | intro {q s r items i j} (list : walk? q doc = some (.arr items)) (named : index? s = some j)
      (held : j < items.length) (ends : position doc l = position doc q ++ [.index i])
      (moved : i < j ∨ i = j ∧ j + 1 < items.length) : Shifts doc l (q ++ s :: r)

theorem Shifts.last {doc : Value} {l m : List String} (shifts : Shifts doc l m) :
    ∃ i, (position doc l).getLast? = some (.index i) := by
  obtain ⟨_, _, _, ends, _⟩ := shifts
  exact ⟨_, by rw [ends, List.getLast?_concat]⟩

def shiftsAt (doc : Value) (l m : List String) (n : Nat) : Bool :=
  match walk? (m.take n) doc, (m[n]?).bind index?, (position doc l).getLast? with
  | some (.arr items), some j, some (.index i) =>
    (position doc l).dropLast == position doc (m.take n) && decide (j < items.length) &&
      (decide (i < j) || decide (i = j ∧ j + 1 < items.length))
  | _, _, _ => false

theorem shiftsIff {doc : Value} {l m : List String} :
    Shifts doc l m ↔ ∃ n, n < m.length ∧ shiftsAt doc l m n = true := by
  constructor
  · rintro ⟨list, named, held, ends, moved⟩
    rename_i q s r items i j
    refine ⟨q.length, by simp, ?_⟩
    simp [shiftsAt, list, named, ends, held, moved]
  · rintro ⟨n, small, at_⟩
    unfold shiftsAt at at_
    split at at_
    · rename_i items j i list named last
      obtain ⟨s, found, named⟩ := Option.bind_eq_some_iff.mp named
      obtain ⟨_, rfl⟩ := List.getElem?_eq_some_iff.mp found
      simp only [Bool.and_eq_true, Bool.or_eq_true, decide_eq_true_eq, beq_iff_eq] at at_
      obtain ⟨⟨around, held⟩, moved⟩ := at_
      have ends : position doc l = position doc (m.take n) ++ [.index i] := by
        rw [← around, List.dropLast_append_getLast? _ last]
      have whole : m = m.take n ++ m[n] :: m.drop (n + 1) := by simp
      rw [whole]
      exact .intro list named held ends moved
    · contradiction

instance (doc : Value) (l m : List String) : Decidable (Shifts doc l m) :=
  decidable_of_iff _ shiftsIff.symm

def Steady (doc : Value) (paths : List String) : Prop :=
  paths.Pairwise fun a b => ¬ Shifts doc (ofDotted a).segments (ofDotted b).segments

instance (doc : Value) (paths : List String) : Decidable (Steady doc paths) :=
  inferInstanceAs (Decidable (List.Pairwise _ _))

def placesNamed (doc : Value) (paths : List String) : List (List Step) :=
  paths.map fun path => position doc (ofDotted path).segments

section Steadiness
variable {doc : Value} {paths : List String}

theorem coveredSnoc {places : List (List Step)} {p q : List Step} :
    Covered (places ++ [p]).contains q ↔ Covered places.contains q ∨ p ≠ [] ∧ p <+: q := by
  constructor
  · rintro ⟨r, filled, inside, listed⟩
    rw [List.contains_iff_mem, List.mem_append, List.mem_singleton] at listed
    rcases listed with old | rfl
    · exact .inl ⟨r, filled, inside, List.contains_iff_mem.mpr old⟩
    · exact .inr ⟨filled, inside⟩
  · rintro (⟨r, filled, inside, listed⟩ | ⟨filled, inside⟩)
    · exact ⟨r, filled, inside, by simpa using .inl (List.contains_iff_mem.mp listed)⟩
    · exact ⟨p, filled, inside, by simp⟩

theorem Covered.inside {gone : List Step → Bool} {p q : List Step} (covered : Covered gone p)
    (inside : p <+: q) : Covered gone q := by
  obtain ⟨r, filled, further, out⟩ := covered
  exact ⟨r, filled, further.trans inside, out⟩

theorem steadyFirm {gone : List (List Step)} {m : List String} (taken : gone ⊆ placesNamed doc paths)
    (steady : ∀ path ∈ paths, ¬ Shifts doc (ofDotted path).segments m) : Firm gone.contains doc m := by
  intro q s r items i j split list named small early out
  obtain ⟨path, mem, ends⟩ := List.mem_map.mp (taken (List.contains_iff_mem.mp out))
  have still : ¬ (i < j ∨ i = j ∧ j + 1 < items.length) := fun moved =>
    steady path mem (split ▸ .intro list named small ends moved)
  omega

theorem steadyTakes (steady : Steady doc paths) : placesTaken doc paths ⊆ placesNamed doc paths ∧
    CoverAlike doc (placesTaken doc paths).contains (placesNamed doc paths).contains := by
  induction paths using List.reverseRecOn with
  | nil => exact ⟨List.Subset.refl _, fun _ _ _ => .rfl⟩
  | append_singleton paths path ih =>
    obtain ⟨before, _, last⟩ := List.pairwise_append.mp steady
    obtain ⟨taken, alike⟩ := ih before
    have firm := steadyFirm taken fun a mem => last a mem path (List.mem_singleton_self _)
    have named : placesNamed doc (paths ++ [path]) =
        placesNamed doc paths ++ [position doc (ofDotted path).segments] := by simp [placesNamed]
    rw [named, takenSnoc, placeTaken]
    rcases originFirm firm with comes | ⟨nowhere, missing⟩
    · rw [comes]
      cases place : position doc (ofDotted path).segments with
      | nil =>
        refine ⟨List.Subset.trans taken (List.subset_append_left _ _), fun l x held => ?_⟩
        rw [coveredSnoc, alike l x held]
        simp
      | cons t p =>
        have still := List.Subset.trans taken (List.subset_append_left _ [t :: p])
        refine ⟨List.append_subset.mpr ⟨still, List.subset_append_right _ _⟩, fun l x held => ?_⟩
        rw [coveredSnoc, coveredSnoc, alike l x held]
    · rw [nowhere]
      refine ⟨List.Subset.trans taken (List.subset_append_left _ _), fun l x held => ?_⟩
      rw [coveredSnoc, ← alike l x held, iff_self_or]
      rintro ⟨_, inside⟩
      rcases missing with absent | covered
      · obtain ⟨y, there⟩ := positionAround inside held
        rw [absent] at there
        contradiction
      · exact covered.inside inside

theorem steadyMembers
    (members : ∀ path ∈ paths, ∀ i, (position doc (ofDotted path).segments).getLast? ≠ some (.index i)) :
    Steady doc paths := by
  refine List.pairwise_iff_forall_sublist.mpr fun {a b} inside shifts => ?_
  obtain ⟨i, last⟩ := shifts.last
  exact members a (inside.subset (by simp)) i last

theorem namedAlike {paths' : List String} (same : ∀ path, path ∈ paths' ↔ path ∈ paths) :
    (placesNamed doc paths').contains = (placesNamed doc paths).contains := by
  funext p
  rw [Bool.eq_iff_iff, List.contains_iff_mem, List.contains_iff_mem]
  simp only [placesNamed, List.mem_map, same]

end Steadiness

/- What is excluded of a document: places of it, none inside of one that went before. `named`,
`reordered` and `members` say when these are the places named. -/
structure Excluded (doc : Value) (paths : List String) : Prop where
  taken : exclude paths doc =
    (without (placesTaken doc paths).contains doc, (placesTaken doc paths).length)
  there : ∀ p ∈ placesTaken doc paths, ∃ l x, walk? l doc = some x ∧ position doc l = p
  once : (placesTaken doc paths).Pairwise fun p q => ¬ p <+: q
  named : Steady doc paths → (exclude paths doc).1 = without (placesNamed doc paths).contains doc
  reordered : ∀ paths', Steady doc paths → Steady doc paths' → (∀ path, path ∈ paths' ↔ path ∈ paths) →
    (exclude paths' doc).1 = (exclude paths doc).1
  members : (∀ path ∈ paths, ∀ i, (position doc (ofDotted path).segments).getLast? ≠ some (.index i)) →
    Steady doc paths

theorem exclusionRemoves {doc : Value} (lawful : doc.lawful = true) (paths : List String) :
    Excluded doc paths := by
  have taken := excludeTakes lawful
  have named : ∀ paths, Steady doc paths →
      (exclude paths doc).1 = without (placesNamed doc paths).contains doc := by
    intro paths steady
    rw [taken paths]
    exact withoutCongr lawful (steadyTakes steady).2
  refine ⟨taken paths, fun _ => takenThere lawful, takenOnce doc paths, named paths, ?_, steadyMembers⟩
  intro paths' steady steady' same
  rw [named paths' steady', named paths steady, namedAlike same]

def guide : Value :=
  .obj [("tags", .arr [.str "a", .str "b", .str "c"]), ("info", .obj [("title", .str "t")])]

/- From the later element to the earlier one nothing is moved, wherever the members are named. -/
theorem guideExcluded :
    (exclude ["tags[1]", "info.title", "tags[0]", "info"] guide).1 = .obj [("tags", .arr [.str "c"])] ∧
    (exclude ["info", "tags[1]", "info.title", "tags[0]"] guide).1 =
      (exclude ["tags[1]", "info.title", "tags[0]", "info"] guide).1 ∧
    Steady guide ["info.title", "info"] := by
  have excluded := @exclusionRemoves guide (by decide +kernel)
    ["tags[1]", "info.title", "tags[0]", "info"]
  have inside := @exclusionRemoves guide (by decide +kernel) ["info.title", "info"]
  refine ⟨?_, ?_, inside.members fun path mem i => ?_⟩
  · rw [excluded.named (by decide +kernel)]
    rfl
  · exact excluded.reordered _ (by decide +kernel) (by decide +kernel) fun path => by
      simp only [List.mem_cons]
      tauto
  · simp only [List.mem_cons, List.not_mem_nil, or_false] at mem
    rcases mem with rfl | rfl <;> nofun

/- From the earlier one to the later one, the second path comes to an element that no path names. -/
theorem guideMoved :
    (exclude ["tags[0]", "tags[1]"] guide).1 =
      .obj [("tags", .arr [.str "b"]), ("info", .obj [("title", .str "t")])] ∧
    without (placesNamed guide ["tags[0]", "tags[1]"]).contains guide =
      .obj [("tags", .arr [.str "c"]), ("info", .obj [("title", .str "t")])] ∧
    (exclude ["tags[1]", "tags[0]"] guide).1 =
      .obj [("tags", .arr [.str "c"]), ("info", .obj [("title", .str "t")])] := ⟨rfl, rfl, rfl⟩

end ApiGraph.Exclusion
