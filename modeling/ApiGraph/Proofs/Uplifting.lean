import ApiGraph.Proofs.PathItems
import ApiGraph.Proofs.Relocation

/-! What uplifting keeps of the meaning of a document. An entry that is a reference takes over the
item it leads to; an item from outside of the paths gives way to a reference to the entry. Each of
the two writes leaves every place where it is and what it means that is not strictly inside the
written one. As long as no reference is to such a place, all patterns and references mean what they
meant. -/
namespace ApiGraph.Entries
variable {α : Type u} {β : Type v} [BEq α] [LawfulBEq α]

theorem putComm {k j : α} (other : k ≠ j) {es : List (α × β)} (mem : k ∈ keys es) (v w : β) :
    put j w (put k v es) = put k v (put j w es) := by
  induction es with
  | nil => simp [keys] at mem
  | cons e r ih =>
    obtain ⟨i, u⟩ := e
    by_cases first : i = k
    · subst first
      simp [put, other]
    · have inside : k ∈ keys r := by simpa [keys, Ne.symm first] using mem
      by_cases second : i = j
      · subst second
        simp [put, first]
      · simp [put, first, second, ih inside]

end ApiGraph.Entries

namespace ApiGraph.Tree
open Json

theorem writesSwap {members : Members} {k k' : String} {r r' : List String} {v w c b : Value}
    (other : k ≠ k') (there : k ∈ Entries.keys members)
    (first : write? v (k :: r) (.obj members) = some c)
    (second : write? w (k' :: r') c = some b) :
    ∃ a, write? w (k' :: r') (.obj members) = some a ∧ write? v (k :: r) a = some b := by
  obtain ⟨x, below, rfl⟩ := Option.map_eq_some_iff.mp first
  obtain ⟨y, below', rfl⟩ := Option.map_eq_some_iff.mp second
  rw [Entries.lookupPutOther (Ne.symm other)] at below'
  refine ⟨.obj (Entries.put k' y members), by simp [write?, opened, below'], ?_⟩
  simp only [write?, opened, Entries.lookupPutOther other, below, Option.map_some]
  rw [Entries.putComm other there]

theorem headObject {v : Value} (object : v.isObject = true) (s : String) : head v s = .key s := by
  cases v <;> simp [Value.isObject, head] at object ⊢

theorem keysApart {v : Value} (object : v.isObject = true) {k k' : String} (other : k ≠ k')
    (r r' : List String) : Apart v (k :: r) (k' :: r') := by
  rw [Apart, positionCons, positionCons, headObject object, headObject object]
  simp [List.cons_prefix_cons, other, Ne.symm other]

theorem writtenObject {v node node' : Value} {k : String} {r : List String}
    (object : node.isObject = true) (written : write? v (k :: r) node = some node') :
    node'.isObject = true := by
  cases node with
  | obj members =>
    obtain ⟨x, _, rfl⟩ := Option.map_eq_some_iff.mp written
    rfl
  | _ => cases object

end ApiGraph.Tree

namespace ApiGraph.Resolve
open Json

theorem followLocal {doc : Value} {steps : Nat} {seen : List String} {pointer : String}
    {r : Resolved} (h : follow doc steps seen pointer = .ok r) :
    ∃ p, r.pointer = some p ∧ p.startsWith "#" = true := by
  induction steps generalizing seen pointer with
  | zero => simp [follow] at h
  | succ steps ih =>
    simp only [follow] at h
    split at h
    · contradiction
    · split at h
      · contradiction
      · rename_i v found
        split at h
        · exact ih h
        · cases h
          exact ⟨pointer, rfl, (lookupSource found).1⟩

end ApiGraph.Resolve

namespace ApiGraph.Uplift
open Json ApiGraph.Tree Meaning Resolve
open Hoist (SameMeaning)

structure Lift where
  pattern : String
  source : Location
  item : Value

namespace Lift

def slot (m : Lift) : Location := pathsRoot.child m.pattern

/- An item from under the paths is copied, any other is moved. -/
def moves (m : Lift) : Bool := !m.source.startsWith pathsRoot

def places (m : Lift) : List Location := m.slot :: if m.moves then [m.source] else []

def apply (m : Lift) (doc : Value) : Value :=
  Tree.set m.slot m.item
    (if m.moves then Tree.set m.source (reference m.slot.toPointer) doc else doc)

end Lift

def liftOf? (pattern : String) (doc : Value) : Option Lift := do
  let entry ← Tree.get? (pathsRoot.child pattern) doc
  let r ← (resolve doc entry).toOption
  let source ← r.location?
  some ⟨pattern, source, r.value⟩

def lifts : List String → Value → List Lift
  | [], _ => []
  | pattern :: more, doc => match liftOf? pattern doc with
    | none => lifts more doc
    | some m => m :: lifts more (m.apply doc)

def lifted (doc : Value) : List Lift :=
  match doc.membersAt? "paths" with
  | some entries => lifts (Entries.keys entries) doc
  | none => []

section Source
variable {pattern : String} {doc doc' : Value} {m : Lift}

structure LiftSource (pattern : String) (doc : Value) (m : Lift) : Prop where
  pattern : m.pattern = pattern
  entry : ∃ e, Tree.get? m.slot doc = some e ∧ (∃ p, refOf e = some p) ∧
    (Reader.ofDocument doc).Leads ((), e) ((), m.item)
  source : ∃ p ∈ doc.pointers, p.startsWith "#" = true ∧ m.source = .ofPointer p
  item : Tree.get? m.source doc = some m.item

theorem liftSource (made : liftOf? pattern doc = some m) : LiftSource pattern doc m := by
  simp only [liftOf?, Option.bind_eq_bind, Option.bind_eq_some_iff, Option.some.injEq] at made
  obtain ⟨e, at_, r, found, source, named, rfl⟩ := made
  have resolved : resolve doc e = .ok r := by
    cases told : resolve doc e <;> simp_all [Except.toOption]
  rcases resolvedSource resolved with ⟨_, rfl⟩ | ⟨l, named', item⟩
  · simp [Resolved.location?] at named
  · cases named.symm.trans named'
    cases first : refOf e with
    | none =>
      rw [resolve, first] at resolved
      cases resolved
      simp [Resolved.location?] at named
    | some q =>
      rcases resolvedListed at_ resolved with ⟨plain, _⟩ | ⟨p, mem, last⟩
      · simp [first] at plain
      rw [resolve, first] at resolved
      obtain ⟨p', last', hash⟩ := followLocal resolved
      cases last.symm.trans last'
      refine ⟨rfl, ⟨e, at_, ⟨q, first⟩, resolves.mp ⟨r, ?_, rfl⟩⟩, ⟨p, mem, hash, ?_⟩, item⟩
      · rw [resolve, first]
        exact resolved
      · simpa [Resolved.location?, last] using named.symm

theorem upliftEntryLift {moved : Bool} (run : upliftEntry pattern doc = .ok (doc', moved)) :
    doc' = match liftOf? pattern doc with
      | none => doc
      | some m => m.apply doc := by
  simp only [upliftEntry] at run
  cases at_ : Tree.get? (pathsRoot.child pattern) doc with
  | none =>
    simp only [at_, Except.ok.injEq, Prod.mk.injEq] at run
    rw [← run.1]
    simp [liftOf?, at_]
  | some e =>
    simp only [at_] at run
    cases resolved : resolve doc e with
    | error => simp [resolved] at run
    | ok r =>
      simp only [resolved] at run
      cases named : r.location? with
      | none =>
        simp only [named, Except.ok.injEq, Prod.mk.injEq] at run
        rw [← run.1]
        simp [liftOf?, at_, resolved, Except.toOption, named]
      | some source =>
        have made : liftOf? pattern doc = some ⟨pattern, source, r.value⟩ := by
          simp [liftOf?, at_, resolved, Except.toOption, named]
        have item := (liftSource made).item
        simp only [named] at run item
        rw [made]
        simp only [Lift.apply, Lift.slot, Lift.moves]
        split at run
        · rename_i under
          rw [item] at run
          cases run
          simp [under]
        · rename_i outside
          rw [item] at run
          cases run
          simp [outside]

end Source

def Watched (doc : Value) (l : List String) : Prop :=
  ∀ m ∈ lifted doc, ∀ s ∈ m.places, position doc s.segments <+: position doc l →
    position doc l = position doc s.segments

/- No local reference of the document is to a place strictly inside one that is written. No item is a
text, and none of those that move is the whole document or goes to the pattern without characters. -/
structure Undisturbed (doc : Value) : Prop where
  watched : ∀ p ∈ doc.pointers, p.startsWith "#" = true → Watched doc (Location.ofPointer p).segments
  items : ∀ m ∈ lifted doc, m.item.str? = none
  moved : ∀ m ∈ lifted doc, m.moves = true → m.pattern ≠ "" ∧ m.source ≠ .root

theorem slotSpelled {m : Lift} (filled : m.pattern ≠ "") : m.slot.Spelled := by
  intro s mem
  simp only [Lift.slot, pathsRoot, Location.child, List.cons_append, List.nil_append,
    List.mem_cons, List.not_mem_nil, or_false] at mem
  rcases mem with rfl | rfl
  · rfl
  · simpa using filled

theorem movesFrom {m : Lift} (moves : m.moves = true) (inner : m.source ≠ .root) :
    ∃ k r, k ≠ "paths" ∧ m.source.segments = k :: r := by
  obtain ⟨pattern, ⟨segments⟩, item⟩ := m
  cases segments with
  | nil => exact absurd rfl inner
  | cons k r =>
    refine ⟨k, r, ?_, rfl⟩
    rintro rfl
    simp [Lift.moves, Location.startsWith, pathsRoot] at moves

section Run
variable {doc now : Value} {m : Lift}

theorem slotWatched (calm : Undisturbed doc) (object : doc.isObject = true) (p : String) :
    Watched doc ["paths", p] := by
  intro m mem s place inside
  simp only [Lift.places, List.mem_cons] at place
  rcases place with rfl | rest
  · exact (inside.eq_of_length (by simp [positionLength, Lift.slot, pathsRoot, Location.child])).symm
  · split at rest
    · rename_i moves
      cases List.mem_singleton.mp rest
      obtain ⟨k, r, other, same⟩ := movesFrom moves (calm.moved m mem moves).2
      rw [same] at inside
      exact absurd inside (keysApart object other r [p]).1
    · cases rest

/- What a document has become: its references are those it had and others to entries of the paths. -/
structure Underway (doc now : Value) : Prop where
  lawful : now.lawful = true
  object : now.isObject = true
  pointers : ∀ q ∈ now.pointers,
    q ∈ doc.pointers ∨ ∃ m : Lift, m.pattern ≠ "" ∧ q = m.slot.toPointer
  stands : ∀ l, Watched doc l → position now l = position doc l ∧ SameMeaning doc now l

namespace Underway

theorem reads (h : Underway doc now) (calm : Undisturbed doc) {q : String} (mem : q ∈ now.pointers)
    (hash : q.startsWith "#" = true) : Watched doc (Location.ofPointer q).segments ∨
      ∃ p, (Location.ofPointer q).segments = ["paths", p] := by
  rcases h.pointers q mem with old | ⟨m, filled, rfl⟩
  · exact .inl (calm.watched q old hash)
  · refine .inr ⟨m.pattern, ?_⟩
    rw [Location.pointerRoundTrip (slotSpelled filled)]
    rfl

theorem outside (h : Underway doc now) (mem : m ∈ lifted doc) {s : Location} (place : s ∈ m.places)
    (known : Watched doc s.segments) {l : List String} (watched : Watched doc l)
    (inside : position now s.segments <+: position now l) :
    position now l = position now s.segments := by
  rw [(h.stands l watched).1, (h.stands _ known).1] at inside ⊢
  exact watched m mem s place inside

theorem took (h : Underway doc now) (calm : Undisturbed doc) (object : doc.isObject = true)
    (mem : m ∈ lifted doc) {pattern : String} (source : LiftSource pattern now m) {mid : Value}
    (written : set? m.slot m.item now = some mid) : Underway doc mid := by
  obtain ⟨e, at_, named, leads⟩ := source.entry
  have wrote := writeFollowed written
  have quiet := calm.items m mem
  have known := slotWatched calm object m.pattern
  have slotPlace : m.slot ∈ m.places := List.mem_cons_self
  have takes : TakesOver m.slot.segments e m.item now mid := by
    refine ⟨at_, named, leads, quiet, wrote, fun q inside hash within => ?_⟩
    rcases h.reads calm inside hash with watched | ⟨p, same⟩
    · exact h.outside mem slotPlace known watched within
    · refine (within.eq_of_length ?_).symm
      rw [positionLength, positionLength, same]
      rfl
  refine ⟨lawfulSet (lawfulAt h.lawful source.item) h.lawful written,
    writtenObject h.object written, fun q inside => ?_, fun l watched => ?_⟩
  · rcases wrote.pointers quiet inside with old | new
    · exact h.pointers q old
    · exact h.pointers q (takes.inside new)
  · obtain ⟨placed, meant⟩ := h.stands l watched
    have outside := h.outside mem slotPlace known watched
    obtain ⟨swapped, placed'⟩ := wrote.beside at_ outside
    exact ⟨placed'.trans placed,
      meant.trans (.swapped swapped fun x y before after => takes.means before after outside)⟩

theorem left {mid : Value} (h : Underway doc mid) (calm : Undisturbed doc)
    (mem : m ∈ lifted doc) (moves : m.moves = true) (known : Watched doc m.source.segments)
    (plain : refOf m.item = none) (here : Tree.get? m.slot mid = some m.item)
    (there : Tree.get? m.source mid = some m.item) {now' : Value}
    (written : set? m.source (reference m.slot.toPointer) mid = some now') :
    Underway doc now' := by
  obtain ⟨filled, inner⟩ := calm.moved m mem moves
  obtain ⟨k, r, other, same⟩ := movesFrom moves inner
  have spelled := slotSpelled filled
  have wrote := writeFollowed written
  have place : m.source ∈ m.places := by simp [Lift.places, moves]
  have apart : ∀ p, ¬ position mid m.source.segments <+: position mid ["paths", p] := by
    intro p
    rw [same]
    exact (keysApart h.object other r [p]).1
  have gives : GivesWay m.source.segments m.slot.toPointer m.item m.item mid now' := by
    refine ⟨h.lawful, there, calm.items m mem, plain, wrote, fun q inside hash within => ?_,
      lookupAt spelled here, sameRefl _ (lawfulAt h.lawful there), ?_⟩
    · rcases h.reads calm inside hash with watched | ⟨p, slot⟩
      · exact h.outside mem place known watched within
      · rw [slot] at within
        exact absurd within (apart p)
    · rw [Location.pointerRoundTrip spelled]
      exact apart m.pattern
  refine ⟨lawfulSet rfl h.lawful written, ?_, fun q inside => ?_, fun l watched => ?_⟩
  · rw [set?, same] at written
    exact writtenObject h.object written
  · rcases wrote.pointers rfl inside with old | new
    · exact h.pointers q old
    · refine .inr ⟨m, filled, ?_⟩
      simpa [reference, Value.pointers, Value.pointersOfMembers, refOf, Value.textAt?,
        Value.get?, Value.str?] using new
  · obtain ⟨placed, meant⟩ := h.stands l watched
    have outside := h.outside mem place known watched
    obtain ⟨swapped, placed'⟩ := wrote.beside there outside
    exact ⟨placed'.trans placed,
      meant.trans (.swapped swapped fun x y before after => gives.means before after outside)⟩

theorem step (h : Underway doc now) (calm : Undisturbed doc) (object : doc.isObject = true)
    (mem : m ∈ lifted doc) {pattern : String} (made : liftOf? pattern now = some m) :
    Underway doc (m.apply now) := by
  have source := liftSource made
  obtain ⟨e, at_, _, leads⟩ := source.entry
  obtain ⟨mid, written, _⟩ := writeThere at_ m.item
  have mid_ : set? m.slot m.item now = some mid := written
  have taken := h.took calm object mem source mid_
  cases moves : m.moves with
  | false => simpa [Lift.apply, moves, Tree.set, mid_] using taken
  | true =>
    obtain ⟨filled, inner⟩ := calm.moved m mem moves
    obtain ⟨k, r, other, same⟩ := movesFrom moves inner
    have known : Watched doc m.source.segments := by
      obtain ⟨q, inside, hash, place⟩ := source.source
      rcases h.reads calm inside hash with watched | ⟨p, slot⟩
      · exact place ▸ watched
      · rw [← place, same] at slot
        exact absurd (List.cons.inj slot).1 other
    have apart : Apart now m.slot.segments m.source.segments := by
      rw [same]
      exact keysApart h.object (Ne.symm other) [m.pattern] r
    have there : Tree.get? m.source mid = some m.item :=
      ((writeFollowed mid_).apart apart).1.trans source.item
    obtain ⟨now', back, _⟩ := writeThere there (reference m.slot.toPointer)
    have left := taken.left calm mem moves known leads.plain (setReads mid_) there back
    obtain ⟨members, rfl⟩ : ∃ members, now = .obj members := by
      cases now with
      | obj members => exact ⟨members, rfl⟩
      | _ => cases h.object
    -- the program makes the two writes the other way round
    have entries : "paths" ∈ Entries.keys members := by
      obtain ⟨entries, first, _⟩ := Option.bind_eq_some_iff.mp at_
      exact List.mem_map_of_mem (Entries.mem_of_lookup first)
    rw [same] at back
    obtain ⟨between, first, second⟩ := writesSwap (Ne.symm other) entries written back
    have first_ : set? m.source (reference m.slot.toPointer) (.obj members) = some between := by
      rw [set?, same]
      exact first
    have second_ : set? m.slot m.item between = some now' := second
    simpa [Lift.apply, moves, Tree.set, first_, second_] using left

end Underway

theorem upliftEntriesUnderway (calm : Undisturbed doc) (object : doc.isObject = true)
    {patterns : List String} {count n : Nat} {doc' : Value} (h : Underway doc now)
    (known : lifts patterns now ⊆ lifted doc)
    (run : upliftEntries patterns count now = (doc', .ok n)) : Underway doc doc' := by
  induction patterns generalizing count now with
  | nil =>
    cases run
    exact h
  | cons pattern more ih =>
    simp only [upliftEntries] at run
    cases one : upliftEntry pattern now with
    | error e => simp [one] at run
    | ok result =>
      obtain ⟨next, moved⟩ := result
      simp only [one] at run
      have same := upliftEntryLift one
      rw [lifts] at known
      cases made : liftOf? pattern now with
      | none =>
        simp only [made] at same known
        subst same
        exact ih h known run
      | some m =>
        simp only [made] at same known
        subst same
        obtain ⟨mem, later⟩ := List.cons_subset.mp known
        exact ih (h.step calm object mem made) later run

end Run

structure Preserved (doc doc' : Value) : Prop where
  patterns : ∀ p, SameMeaning doc doc' ["paths", p]
  references : ∀ p ∈ doc.pointers, ∀ r, resolve doc (reference p) = .ok r →
    ∃ r', resolve doc' (reference p) = .ok r' ∧
      Means (Reader.ofDocument doc) (Reader.ofDocument doc') ((), r.value) ((), r'.value)

/- Uplifting keeps the meaning of a document if no reference is to something strictly inside of what
it writes: an entry that is a reference, or an item that moves. -/
theorem upliftPreserves {doc doc' : Value} {n : Nat} (lawful : doc.lawful = true)
    (calm : Undisturbed doc) (run : uplift doc = (doc', .ok n)) : Preserved doc doc' := by
  unfold uplift at run
  cases entries : doc.membersAt? "paths" with
  | none =>
    simp only [entries] at run
    cases run
    exact ⟨fun p => .refl doc _, fun p _ r resolved => ⟨r, resolved, .refl _ _⟩⟩
  | some found =>
    simp only [entries] at run
    have object : doc.isObject = true := by
      cases doc <;> simp [Value.membersAt?, Value.get?, Value.isObject] at entries ⊢
    have start : Underway doc doc :=
      ⟨lawful, object, fun q mem => .inl mem, fun l _ => ⟨rfl, .refl doc l⟩⟩
    have known : lifts (Entries.keys found) doc ⊆ lifted doc := by simp [lifted, entries]
    have ended := upliftEntriesUnderway calm object start known run
    refine ⟨fun p => (ended.stands _ (slotWatched calm object p)).2, fun p mem r resolved => ?_⟩
    exact SameMeaning.resolved (fun hash => (ended.stands _ (calm.watched p mem hash)).2) resolved

theorem upliftRun {doc : Value} {n : Nat} (counted : (uplift doc).2.toOption = some n) :
    uplift doc = ((uplift doc).1, .ok n) := by
  refine Prod.ext rfl ?_
  cases ended : (uplift doc).2 <;> simp_all [Except.toOption]

def aliasedDocument : Value :=
  .obj [("paths", .obj [("/a", reference "#/x-items/S"), ("/b", reference "#/x-items/S")]),
    ("x-items", .obj [("S", .obj [("get", .obj [("operationId", .str "s")])])]),
    ("x-use", reference "#/x-items/S")]

theorem aliasesPreserved : aliasedDocument.lawful = true ∧ Undisturbed aliasedDocument ∧
    ∃ doc', uplift aliasedDocument = (doc', .ok 2) ∧ Preserved aliasedDocument doc' := by
  have pointers : aliasedDocument.pointers =
      ["#/x-items/S", "#/x-items/S", "#/x-items/S"] := by decide +kernel
  have calm : Undisturbed aliasedDocument := by
    refine ⟨?_, by decide +kernel, by decide +kernel⟩
    rw [pointers]
    intro p mem _
    simp only [List.mem_cons, List.not_mem_nil, or_false, or_self] at mem
    subst mem
    unfold Watched
    decide +kernel
  have run : uplift aliasedDocument = ((uplift aliasedDocument).1, .ok 2) :=
    upliftRun (by decide +kernel)
  exact ⟨by decide, calm, _, run, upliftPreserves (by decide) calm run⟩

def insideDocument : Value :=
  .obj [("paths", .obj [("/a", reference "#/x-items/S")]),
    ("x-items", .obj [("S", .obj [("get", .obj [("operationId", .str "s")])])]),
    ("x-use", reference "#/x-items/S/get")]

theorem insideLost : insideDocument.lawful = true ∧
    ∃ doc' n, uplift insideDocument = (doc', .ok n) ∧ ¬ Preserved insideDocument doc' := by
  have run : uplift insideDocument = ((uplift insideDocument).1, .ok 1) :=
    upliftRun (by decide +kernel)
  refine ⟨by decide, _, _, run, fun kept => ?_⟩
  have listed : "#/x-items/S/get" ∈ insideDocument.pointers := by decide +kernel
  have before : (resolve insideDocument (reference "#/x-items/S/get")).toOption.isSome = true := by
    decide +kernel
  have after : (resolve (uplift insideDocument).1 (reference "#/x-items/S/get")).toOption.isNone =
      true := by decide +kernel
  cases resolved : resolve insideDocument (reference "#/x-items/S/get") with
  | error e => simp [resolved, Except.toOption] at before
  | ok r =>
    obtain ⟨r', resolved', _⟩ := kept.references _ listed r resolved
    simp [resolved', Except.toOption] at after

end ApiGraph.Uplift
