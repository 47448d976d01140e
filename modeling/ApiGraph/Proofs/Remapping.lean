import ApiGraph.Bundle
import ApiGraph.Proofs.Writes

/-! How sources get their pointers. The ledger only grows: a source keeps its pointer, two sources
have different ones, and a source whose slot was free is copied once. Once it is known which pointers
are given out in the end, the rewriting of a value is a renaming of its outermost references. -/
namespace ApiGraph.Bundle
open Json ApiGraph.Tree Location

mutual
def outer : Value → List String
  | .arr items => outerItems items
  | .obj members => match refOf (.obj members) with
    | some text => [text]
    | none => outerMembers members
  | _ => []
termination_by structural v => v
def outerItems : List Value → List String
  | [] => []
  | x :: r => outer x ++ outerItems r
termination_by structural xs => xs
def outerMembers : List (String × Value) → List String
  | [] => []
  | (_, x) :: r => outer x ++ outerMembers r
termination_by structural xs => xs
end

mutual
def renamed (assigned : List (Key × String)) (base : Option String) : Value → Value
  | .arr items => .arr (renamedItems assigned base items)
  | .obj members => match refOf (.obj members) with
    | some text => match sourceOf base text with
      | .ok (some s) =>
        .obj (Entries.put "$ref" (.str ((assigned.lookup s.key).getD text)) members)
      | _ => .obj members
    | none => .obj (renamedMembers assigned base members)
  | v => v
termination_by structural v => v
def renamedItems (assigned : List (Key × String)) (base : Option String) : List Value → List Value
  | [] => []
  | x :: r => renamed assigned base x :: renamedItems assigned base r
termination_by structural xs => xs
def renamedMembers (assigned : List (Key × String)) (base : Option String) :
    List (String × Value) → List (String × Value)
  | [] => []
  | (k, x) :: r => (k, renamed assigned base x) :: renamedMembers assigned base r
termination_by structural xs => xs
end

def Extends (assigned assigned' : List (Key × String)) : Prop :=
  ∀ k q, assigned.lookup k = some q → assigned'.lookup k = some q

def Covered (assigned : List (Key × String)) (base : Option String) (texts : List String) : Prop :=
  ∀ text ∈ texts, ∃ source, sourceOf base text = .ok source ∧
    ∀ s, source = some s → ∃ q, assigned.lookup s.key = some q

theorem Extends.refl (assigned : List (Key × String)) : Extends assigned assigned := fun _ _ h => h

theorem Extends.trans {a b c : List (Key × String)} (h : Extends a b) (h' : Extends b c) :
    Extends a c := fun k q held => h' k q (h k q held)

theorem bindOk {ε α β : Type} {x : Except ε α} {f : α → Except ε β} {b : β} :
    (x >>= f) = .ok b ↔ ∃ a, x = .ok a ∧ f a = .ok b := by
  cases x <;> simp [bind, Except.bind]

theorem sourceSpelled {base : Option String} {text : String} {s : Source}
    (named : sourceOf base text = .ok (some s)) : s.place.Spelled := by
  unfold sourceOf at named
  dsimp only at named
  split at named
  · cases named
  · split at named
    · cases named
    · cases named
      exact ofPointerSpelled _

theorem keySource {s s' : Source} (spelled : s.place.Spelled) (spelled' : s'.place.Spelled)
    (same : s.key = s'.key) : s = s' := by
  obtain ⟨file, place⟩ := s
  obtain ⟨file', place'⟩ := s'
  simp only [Source.key, Key.mk.injEq] at same
  have back := congrArg ofPointer same.2
  rw [pointerRoundTrip spelled, pointerRoundTrip spelled'] at back
  exact congrArg₂ Source.mk same.1 back

theorem siblingSpelled {l t : Location} {n : Nat} (spelled : l.Spelled)
    (beside : sibling l n = .ok t) : t.Spelled := by
  unfold sibling at beside
  split at beside
  · rename_i parent name above last
    cases beside
    intro s mem
    rcases List.mem_append.mp mem with old | new
    · unfold parent? at above
      split at above
      · contradiction
      · cases above
        exact spelled s (List.dropLast_subset _ old)
    · rw [List.mem_singleton.mp new]
      simp
  · contradiction

inductive Slot (files : Files) (k : Key) (q : String) : Prop
  | intro {s : Source} {v : Value} {target : Location} (source : s.key = k)
      (spelled : s.place.Spelled) (value : files.value s = .ok v) (pointer : target.toPointer = q)
      (readable : target.Spelled)
      (fits : ∀ held, Tree.get? target files.root = some held → (held == v) = true)

theorem slotFound {files : Files} {owners : List (String × Key)} {l t target : Location} {v : Value}
    {tries n : Nat} {reuse : Bool} (spelled : l.Spelled) (spelled' : target.Spelled)
    (found : findSlot files owners l v tries n target = .ok (t, reuse)) :
    t.Spelled ∧ Entries.has t.toPointer owners = false ∧
      (reuse = false ↔ Tree.get? t files.root = none) ∧
      ∀ held, Tree.get? t files.root = some held → (held == v) = true := by
  induction tries generalizing n target with
  | zero => simp [findSlot] at found
  | succ tries ih =>
    unfold findSlot at found
    dsimp only at found
    split at found
    · obtain ⟨next, beside, further⟩ := bindOk.mp found
      exact ih (siblingSpelled spelled beside) further
    · rename_i free
      split at found
      · rename_i absent
        cases found
        exact ⟨spelled', by simpa using free, by simp [absent], by simp [absent]⟩
      · rename_i w there
        split at found
        · rename_i same
          cases found
          refine ⟨spelled', by simpa using free, by simp [there], fun held again => ?_⟩
          cases there.symm.trans again
          exact same
        · obtain ⟨next, beside, further⟩ := bindOk.mp found
          exact ih (siblingSpelled spelled beside) further

structure Sound (files : Files) (done : List Key) (l : Ledger) : Prop where
  slots : ∀ k q, l.assigned.lookup k = some q → Slot files k q ∧ Entries.has q l.owners = true
  apart : ∀ k k' q, l.assigned.lookup k = some q → l.assigned.lookup k' = some q → k = k'
  pending : ∀ p ∈ l.pending, p.source.place.Spelled ∧ p.target.Spelled ∧
    l.assigned.lookup p.source.key = some p.target.toPointer ∧
      Tree.get? p.target files.root = none
  once : (done ++ l.pending.map fun p => p.source.key).Nodup
  seen : ∀ k ∈ done, ∃ q, l.assigned.lookup k = some q
  each : ∀ k q, l.assigned.lookup k = some q → Tree.get? (ofPointer q) files.root = none →
    k ∈ done ∨ ∃ p ∈ l.pending, p.source.key = k

section Assign
variable {files : Files} {done : List Key} {l : Ledger} {s : Source} {target : Location} {reuse : Bool}

def Ledger.assign (l : Ledger) (s : Source) (target : Location) (reuse : Bool) : Ledger where
  assigned := Entries.put s.key target.toPointer l.assigned
  owners := Entries.put target.toPointer s.key l.owners
  pending := if reuse then l.pending else ⟨target, s⟩ :: l.pending

theorem pendingKept {p : Placement} (mem : p ∈ l.pending) : p ∈ (l.assign s target reuse).pending := by
  cases reuse with
  | true => exact mem
  | false => exact List.mem_cons_of_mem _ mem

theorem assignExtends (unknown : l.assigned.lookup s.key = none) :
    Extends l.assigned (l.assign s target reuse).assigned := by
  intro k q held
  rw [Ledger.assign, Entries.lookupPutOther, held]
  rintro rfl
  cases unknown.symm.trans held

theorem Sound.unseen (sound : Sound files done l) (unknown : l.assigned.lookup s.key = none) :
    s.key ∉ done ++ l.pending.map fun p => p.source.key := by
  intro mem
  rcases List.mem_append.mp mem with seen | waits
  · obtain ⟨q, held⟩ := sound.seen _ seen
    cases unknown.symm.trans held
  · obtain ⟨p, mem, same⟩ := List.mem_map.mp waits
    have held := (sound.pending p mem).2.2.1
    rw [same, unknown] at held
    contradiction

theorem Sound.assign (sound : Sound files done l) (spelled : s.place.Spelled)
    (unknown : l.assigned.lookup s.key = none) (free : Entries.has target.toPointer l.owners = false)
    (readable : target.Spelled) (slot : Slot files s.key target.toPointer)
    (absent : reuse = false ↔ Tree.get? target files.root = none) :
    Sound files done (l.assign s target reuse) := by
  have kept : Extends l.assigned (l.assign s target reuse).assigned := assignExtends unknown
  have stale : ∀ {k}, l.assigned.lookup k ≠ some target.toPointer := by
    intro k held
    have owned := (sound.slots k _ held).2
    rw [free] at owned
    contradiction
  refine ⟨fun k q held => ?_, fun k k' q held held' => ?_, fun p mem => ?_, ?_, fun k mem => ?_,
    fun k q held free' => ?_⟩
  · rcases Entries.lookupPutCases held with ⟨rfl, rfl⟩ | ⟨_, old⟩
    · exact ⟨slot, by simp [Ledger.assign, Entries.has]⟩
    · exact ⟨(sound.slots k q old).1, Entries.hasPut (sound.slots k q old).2⟩
  · rcases Entries.lookupPutCases held with ⟨rfl, rfl⟩ | ⟨_, old⟩ <;>
      rcases Entries.lookupPutCases held' with ⟨rfl, same⟩ | ⟨_, old'⟩
    · rfl
    · exact absurd old' stale
    · exact absurd (same ▸ old) stale
    · exact sound.apart k k' q old old'
  · have waits : p ∈ l.pending → p.source.place.Spelled ∧ p.target.Spelled ∧
        (l.assign s target reuse).assigned.lookup p.source.key = some p.target.toPointer ∧
          Tree.get? p.target files.root = none := fun old =>
      ⟨(sound.pending p old).1, (sound.pending p old).2.1, kept _ _ (sound.pending p old).2.2.1,
        (sound.pending p old).2.2.2⟩
    cases reuse with
    | true => exact waits mem
    | false =>
      rcases List.mem_cons.mp mem with rfl | old
      · exact ⟨spelled, readable, Entries.lookupPut _ _ _, absent.mp rfl⟩
      · exact waits old
  · cases reuse with
    | true => exact sound.once
    | false =>
      simp only [Ledger.assign, Bool.false_eq_true, if_false]
      rw [List.map_cons, List.nodup_middle, List.nodup_cons]
      exact ⟨sound.unseen unknown, sound.once⟩
  · obtain ⟨q, held⟩ := sound.seen k mem
    exact ⟨q, kept k q held⟩
  · rcases Entries.lookupPutCases held with ⟨rfl, rfl⟩ | ⟨_, old⟩
    · rw [pointerRoundTrip readable] at free'
      cases absent.mpr free'
      exact .inr ⟨_, List.mem_cons_self, rfl⟩
    · rcases sound.each k q old free' with copied | ⟨p, mem, same⟩
      · exact .inl copied
      · exact .inr ⟨p, pendingKept mem, same⟩

theorem placed {l' : Ledger} {q : String} (spelled : s.place.Spelled) (sound : Sound files done l)
    (run : place files l s = .ok (q, l')) :
    Sound files done l' ∧ Extends l.assigned l'.assigned ∧ l'.assigned.lookup s.key = some q := by
  unfold place at run
  split at run
  · rename_i pointer known
    cases run
    exact ⟨sound, .refl _, known⟩
  · rename_i unknown
    obtain ⟨v, value, run⟩ := bindOk.mp run
    obtain ⟨⟨target, reuse⟩, found, run⟩ := bindOk.mp run
    cases run
    obtain ⟨readable, free, absent, fits⟩ := slotFound spelled spelled found
    have slot : Slot files s.key target.toPointer := .intro rfl spelled value rfl readable fits
    exact ⟨sound.assign spelled unknown free readable slot absent, assignExtends unknown,
      Entries.lookupPut _ _ _⟩

end Assign

/- A part of the rewriting: `texts` are its outermost references, and `renames` is what comes out by
the pointers of the end. -/
structure Rewrites (files : Files) (done : List Key) (base : Option String) (l l' : Ledger)
    (texts : List String) (renames : List (Key × String) → Prop) : Prop where
  sound : Sound files done l'
  grown : Extends l.assigned l'.assigned
  renames : ∀ final, Extends l'.assigned final → renames final
  covered : ∀ final, Extends l'.assigned final → Covered final base texts

namespace Rewrites
variable {files : Files} {done : List Key} {base : Option String} {l m l' : Ledger}
  {texts texts' : List String} {P P' : List (Key × String) → Prop}

theorem nothing (sound : Sound files done l) (holds : ∀ final, P final) :
    Rewrites files done base l l [] P :=
  ⟨sound, .refl _, fun final _ => holds final, fun _ _ _ mem => nomatch mem⟩

theorem both (h : Rewrites files done base l m texts P)
    (h' : Rewrites files done base m l' texts' P') :
    Rewrites files done base l l' (texts ++ texts') fun final => P final ∧ P' final where
  sound := h'.sound
  grown := h.grown.trans h'.grown
  renames final more := ⟨h.renames final (h'.grown.trans more), h'.renames final more⟩
  covered final more text mem := (List.mem_append.mp mem).elim
    (h.covered final (h'.grown.trans more) text) (h'.covered final more text)

theorem weaken (h : Rewrites files done base l l' texts P) (weaker : ∀ final, P final → P' final) :
    Rewrites files done base l l' texts P' :=
  { h with renames := fun final more => weaker final (h.renames final more) }

theorem reference {members : Members} {text q : String} {s : Source} (sound : Sound files done l)
    (named : refOf (.obj members) = some text) (source : sourceOf base text = .ok (some s))
    (run : place files l s = .ok (q, l')) : Rewrites files done base l l' [text] fun final =>
      renamed final base (.obj members) = .obj (Entries.put "$ref" (.str q) members) := by
  obtain ⟨sound', grown, held⟩ := placed (sourceSpelled source) sound run
  refine ⟨sound', grown, fun final more => ?_, fun final more text' mem => ?_⟩
  · rw [renamed]
    simp only [named, source, more _ _ held, Option.getD_some]
  · cases List.mem_singleton.mp mem
    refine ⟨some s, source, ?_⟩
    rintro _ ⟨⟩
    exact ⟨q, more _ _ held⟩

end Rewrites

mutual
theorem remapped {files : Files} {done : List Key} {base : Option String} {l l' : Ledger}
    {v v' : Value} (sound : Sound files done l)
    (run : remap files base l v = .ok (v', l')) :
    Rewrites files done base l l' (outer v) fun final => renamed final base v = v' := by
  match v with
  | .arr items =>
    obtain ⟨⟨items', m⟩, inner, last⟩ := bindOk.mp (by simpa only [remap] using run)
    cases last
    exact (remappedItems sound inner).weaken fun final same => by rw [renamed, same]
  | .obj members =>
    rw [remap] at run
    split at run
    · rename_i text named
      have outermost : outer (.obj members) = [text] := by rw [outer]; simp only [named]
      rw [outermost]
      obtain ⟨source, told, run⟩ := bindOk.mp run
      cases source with
      | none =>
        cases run
        refine ⟨sound, .refl _, fun final _ => ?_, fun final _ text' mem => ?_⟩
        · rw [renamed]
          simp only [named, told]
        · cases List.mem_singleton.mp mem
          exact ⟨none, told, nofun⟩
      | some s =>
        obtain ⟨⟨q, m⟩, put, last⟩ := bindOk.mp run
        cases last
        exact .reference sound named told put
    · rename_i plain
      have outermost : outer (.obj members) = outerMembers members := by rw [outer]; simp only [plain]
      rw [outermost]
      obtain ⟨⟨members', m⟩, inner, last⟩ := bindOk.mp run
      cases last
      refine (remappedMembers sound inner).weaken fun final same => ?_
      rw [renamed]
      simp only [plain, same]
  | .null =>
    cases run
    exact .nothing sound fun _ => rfl
  | .bool _ =>
    cases run
    exact .nothing sound fun _ => rfl
  | .num _ =>
    cases run
    exact .nothing sound fun _ => rfl
  | .str _ =>
    cases run
    exact .nothing sound fun _ => rfl
theorem remappedItems {files : Files} {done : List Key} {base : Option String} {l l' : Ledger}
    {items items' : List Value} (sound : Sound files done l)
    (run : remapItems files base l items = .ok (items', l')) :
    Rewrites files done base l l' (outerItems items) fun final =>
      renamedItems final base items = items' := by
  match items with
  | [] =>
    cases run
    exact .nothing sound fun _ => rfl
  | x :: r =>
    obtain ⟨⟨x', m⟩, first, run⟩ := bindOk.mp (by simpa only [remapItems] using run)
    obtain ⟨⟨r', m'⟩, rest, last⟩ := bindOk.mp run
    cases last
    have head := remapped sound first
    refine (head.both (remappedItems head.sound rest)).weaken ?_
    rintro final ⟨same, same'⟩
    rw [renamedItems, same, same']
theorem remappedMembers {files : Files} {done : List Key} {base : Option String} {l l' : Ledger}
    {members members' : Members} (sound : Sound files done l)
    (run : remapMembers files base l members = .ok (members', l')) :
    Rewrites files done base l l' (outerMembers members) fun final =>
      renamedMembers final base members = members' := by
  match members with
  | [] =>
    cases run
    exact .nothing sound fun _ => rfl
  | (k, x) :: r =>
    obtain ⟨⟨x', m⟩, first, run⟩ := bindOk.mp (by simpa only [remapMembers] using run)
    obtain ⟨⟨r', m'⟩, rest, last⟩ := bindOk.mp run
    cases last
    have head := remapped sound first
    refine (head.both (remappedMembers head.sound rest)).weaken ?_
    rintro final ⟨same, same'⟩
    rw [renamedMembers, same, same']
end

def exposed : List String → Value → Bool
  | [], _ => true
  | s :: r, v => (refOf v).isNone && (step? v s).all (exposed r)

section Renamed
variable {final : List (Key × String)} {base : Option String} {v x : Value} {l : List String}

theorem outerReference {text : String} (named : refOf v = some text) : outer v = [text] := by
  cases v with
  | obj members =>
    rw [outer]
    simp only [named]
  | _ => simp [refOf, Value.textAt?, Value.get?] at named

theorem renamedItemsMap (items : List Value) :
    renamedItems final base items = items.map (renamed final base) := by
  induction items with
  | nil => rfl
  | cons x r ih => rw [renamedItems, ih, List.map_cons]

theorem renamedLookup (members : Members) (k : String) :
    (renamedMembers final base members).lookup k = (members.lookup k).map (renamed final base) := by
  induction members with
  | nil => rfl
  | cons e r ih =>
    obtain ⟨k', x⟩ := e
    by_cases same : k == k' <;> simp [renamedMembers, List.lookup_cons, same, ih]

theorem renamedObject {members : Members} (plain : refOf (.obj members) = none) :
    renamed final base (.obj members) = .obj (renamedMembers final base members) := by
  rw [renamed]
  simp only [plain]

theorem renamedLocal {text : String} (named : refOf v = some text)
    (mine : sourceOf base text = .ok none) : renamed final base v = v := by
  cases v with
  | obj members =>
    rw [renamed]
    simp only [named, mine]
  | _ => simp [refOf, Value.textAt?, Value.get?] at named

theorem renamedReference (final : List (Key × String)) (base : Option String) {members : Members}
    {text : String} (named : refOf (.obj members) = some text) :
    ∃ q, renamed final base (.obj members) = .obj (Entries.put "$ref" (.str q) members) ∨
      renamed final base (.obj members) = .obj members := by
  rw [renamed]
  simp only [named]
  split
  · exact ⟨_, .inl rfl⟩
  · exact ⟨text, .inr rfl⟩

theorem renamedText (v : Value) : (renamed final base v).str? = v.str? := by
  cases v with
  | obj members =>
    cases named : refOf (.obj members) with
    | none =>
      rw [renamedObject named]
      rfl
    | some text =>
      obtain ⟨q, same | same⟩ := renamedReference final base named <;> rw [same]
      rfl
  | _ => rfl

theorem renamedSource {text q : String} {s : Source} (named : refOf v = some text)
    (source : sourceOf base text = .ok (some s)) (known : final.lookup s.key = some q) :
    refOf (renamed final base v) = some q := by
  cases v with
  | obj members =>
    rw [renamed]
    simp only [named, source, known, Option.getD_some]
    simp [refOf, Value.textAt?, Value.get?, Value.str?]
  | _ => simp [refOf, Value.textAt?, Value.get?] at named

theorem renamedPlain (plain : refOf v = none) : refOf (renamed final base v) = none := by
  cases v with
  | obj members =>
    rw [renamedObject plain]
    simp only [refOf, Value.textAt?, Value.get?, renamedLookup] at plain ⊢
    rw [Option.bind_map]
    exact (congrArg _ (funext renamedText)).trans plain
  | _ => exact plain

theorem renamedStep (plain : refOf v = none) (s : String) :
    step? (renamed final base v) s = (step? v s).map (renamed final base) := by
  cases v with
  | obj members =>
    rw [renamedObject plain]
    exact renamedLookup members s
  | arr items =>
    rw [renamed, renamedItemsMap]
    simp only [step?]
    cases index? s with
    | none => rfl
    | some i => simp
  | _ => rfl

theorem renamedWalk (open_ : exposed l v = true) :
    walk? l (renamed final base v) = (walk? l v).map (renamed final base) := by
  induction l generalizing v with
  | nil => rfl
  | cons s r ih =>
    rw [exposed, Bool.and_eq_true, Option.isNone_iff_eq_none] at open_
    rw [walk?, walk?, renamedStep open_.1]
    cases held : step? v s with
    | none => rfl
    | some x =>
      rw [held] at open_
      exact ih open_.2

theorem outerItem {items : List Value} (mem : x ∈ items) : outer x ⊆ outerItems items := by
  induction items with
  | nil => cases mem
  | cons y r ih =>
    rw [outerItems]
    rcases List.mem_cons.mp mem with rfl | rest
    · exact List.subset_append_left _ _
    · exact List.Subset.trans (ih rest) (List.subset_append_right _ _)

theorem outerMember {members : Members} {k : String} (mem : (k, x) ∈ members) :
    outer x ⊆ outerMembers members := by
  induction members with
  | nil => cases mem
  | cons e r ih =>
    obtain ⟨k', y⟩ := e
    rw [outerMembers]
    rcases List.mem_cons.mp mem with same | rest
    · cases same
      exact List.subset_append_left _ _
    · exact List.Subset.trans (ih rest) (List.subset_append_right _ _)

theorem outerStep {s : String} (plain : refOf v = none) (held : step? v s = some x) :
    outer x ⊆ outer v := by
  cases v with
  | obj members =>
    rw [outer]
    simp only [plain]
    exact outerMember (Entries.mem_of_lookup (show members.lookup s = some x from held))
  | arr items =>
    obtain ⟨i, _, found⟩ := Option.bind_eq_some_iff.mp held
    exact outerItem (List.mem_of_getElem? found)
  | _ => simp [step?] at held

theorem outerWalk (open_ : exposed l v = true) (held : walk? l v = some x) : outer x ⊆ outer v := by
  induction l generalizing v with
  | nil =>
    cases held
    exact List.Subset.refl _
  | cons s r ih =>
    obtain ⟨y, step, rest⟩ := Option.bind_eq_some_iff.mp held
    rw [exposed, Bool.and_eq_true, Option.isNone_iff_eq_none, step] at open_
    exact List.Subset.trans (ih open_.2 rest) (outerStep open_.1 step)

theorem renamedPosition (v : Value) (l : List String) :
    position (renamed final base v) l = position v l := by
  induction l generalizing v with
  | nil => simp
  | cons s r ih =>
    cases v with
    | obj members =>
      cases named : refOf (.obj members) with
      | none =>
        rw [renamedObject named]
        simp only [position, renamedLookup]
        cases members.lookup s with
        | none => rfl
        | some x => simp [ih]
      | some text =>
        obtain ⟨q, same | same⟩ := renamedReference final base named
        · rw [same]
          by_cases key : s = "$ref"
          · subst key
            have held : (members.lookup "$ref").bind Value.str? = some text := named
            obtain ⟨x, there, told⟩ := Option.bind_eq_some_iff.mp held
            cases x <;> simp [Value.str?] at told
            simp only [position, there, Entries.lookupPut]
            cases r <;> simp [position]
          · simp only [position, Entries.lookupPutOther key]
        · rw [same]
    | arr items =>
      rw [renamed, renamedItemsMap]
      simp only [position, List.getElem?_map]
      cases index? s with
      | none => rfl
      | some i => cases held : items[i]? <;> simp [ih, held]
    | _ => rfl

end Renamed
end ApiGraph.Bundle
