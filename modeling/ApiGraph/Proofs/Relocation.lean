import ApiGraph.Proofs.Settling
import ApiGraph.Proofs.Substitution

/-! What a run keeps of the meaning of a document. A place that is watched is neither strictly inside
a schema that moves, nor around the definitions, nor in a definition that is added; every step leaves
it where it is and what it means. As long as all references are to watched places, the entries of the
document and its references mean what they meant. -/
namespace ApiGraph.Hoist
open Json ApiGraph.Tree Meaning Resolve
variable {names : List (String × String)} {doc : Value}

theorem Held.canonical {v x : Value} {s : Slot} {path : List String} (h : Held v s path x)
    (lawful : v.lawful = true) : canonical v path = path := by
  cases v with
  | obj members =>
    have each := (Value.lawfulObject.mp lawful).2
    cases h with
    | one form held =>
      have inside : members.lookup s.key = some x := held
      rw [Tree.canonical, positionMember inside, positionNil]
      rfl
    | @item items i x form held found =>
      have inside : members.lookup s.key = some (.arr items) := held
      rw [Tree.canonical, positionMember inside, positionElement (indexOfNumeral i) found, positionNil]
      rfl
    | @member inner name x form held found =>
      have inside : members.lookup s.key = some (.obj inner) := held
      have once := (Value.lawfulObject.mp (each _ (Entries.mem_of_lookup inside))).1
      rw [Tree.canonical, positionMember inside,
        positionMember (Entries.lookupOfMem once found), positionNil]
      rfl
  | _ => cases h <;> simp [Value.get?] at *

theorem Reach.canonical {role σ : Role} {v y : Value} {path : List String} (h : Reach role v path σ y)
    (lawful : v.lawful = true) : canonical v path = path := by
  induction h with
  | here => simp [Tree.canonical]
  | part mem _ ih =>
    obtain ⟨_, s, _, _, held⟩ := memParts.mp mem
    have reads := held.reads lawful
    have first := held.canonical lawful
    have rest := ih (lawfulAt (l := ⟨_⟩) lawful reads)
    rw [Tree.canonical] at first rest ⊢
    rw [positionAppend reads, List.map_append, first, rest]

theorem definitionPosition (unlisted : Unlisted doc) (name : String) :
    position doc (definitionAt name).segments = (definitionAt name).segments.map .key := by
  have word : ∀ {k : String}, index? k = none → ∀ (v : Value) (r : List String),
      position v (k :: r) = .key k :: position ((v.get? k).getD (.obj [])) r :=
    fun word v r => by rw [positionWord word, stepWord word]
  rw [definitionAt, word (by decide), word (by decide), List.map_cons, List.map_cons]
  refine congrArg _ (congrArg _ ?_)
  cases held : (((doc.get? "components").getD (.obj [])).get? "schemas").getD (.obj []) with
  | obj members => cases there : members.lookup name <;> simp [position, there]
  | arr items => exact absurd (belowListed held) (unlisted items)
  | _ => simp [position]

structure Watched (doc : Value) (moved : List Moved) (l : List String) : Prop where
  narrow : ¬ l <+: ["components", "schemas"]
  defined : ∀ m ∈ moved, Tree.get? (definitionAt m.name) doc = none →
    ¬ (definitionAt m.name).segments <+: l
  outside : ∀ m ∈ moved, m.source.segments <+: canonical doc l → canonical doc l = m.source.segments

theorem watchedDefinition {moved : List Moved} {name : String} {x : Value}
    (deep : ∀ m ∈ moved, 4 ≤ m.source.segments.length)
    (there : Tree.get? (definitionAt name) doc = some x) :
    Watched doc moved (definitionAt name).segments where
  narrow := by simp [definitionAt, List.cons_prefix_cons]
  defined m _ absent inside := by
    have same : definitionAt m.name = definitionAt name :=
      congrArg Location.mk (inside.eq_of_length rfl)
    rw [same, there] at absent
    contradiction
  outside m mem inside := by
    have long := deep m mem
    have short := inside.length_le
    rw [canonicalLength, definitionAt, List.length_cons, List.length_cons, List.length_cons] at short
    simp at short
    omega

def SameMeaning (doc doc' : Value) (l : List String) : Prop :=
  Option.Rel (fun x y => Means (Reader.ofDocument doc) (Reader.ofDocument doc') ((), x) ((), y))
    (walk? l doc) (walk? l doc')

theorem SameMeaning.refl (doc : Value) (l : List String) : SameMeaning doc doc l := by
  unfold SameMeaning
  cases walk? l doc with
  | none => exact .none
  | some x => exact .some (.refl _ _)

theorem SameMeaning.trans {doc mid doc' : Value} {l : List String} (h : SameMeaning doc mid l)
    (h' : SameMeaning mid doc' l) : SameMeaning doc doc' l :=
  relTrans h h' fun _ _ _ _ _ _ first second => first.trans second

theorem SameMeaning.swapped {doc doc' old new : Value} {l : List String}
    (swapped : Option.Rel (Swapped old new) (walk? l doc) (walk? l doc'))
    (each : ∀ x y, walk? l doc = some x → walk? l doc' = some y →
      Means (Reader.ofDocument doc) (Reader.ofDocument doc') ((), x) ((), y)) :
    SameMeaning doc doc' l :=
  relBack (relBack swapped fun _ _ _ _ h => h) fun y x after before _ => each x y before after

theorem SameMeaning.resolved {doc doc' : Value} {p : String} {r : Resolved}
    (kept : p.startsWith "#" = true → SameMeaning doc doc' (Location.ofPointer p).segments)
    (resolved : resolve doc (reference p) = .ok r) :
    ∃ r', resolve doc' (reference p) = .ok r' ∧
      Means (Reader.ofDocument doc) (Reader.ofDocument doc') ((), r.value) ((), r'.value) := by
  have leads := resolves.mp ⟨r, resolved, rfl⟩
  obtain ⟨⟨_, x⟩, read, rest⟩ := leads.next (referenceRef p)
  obtain ⟨hash, found⟩ := lookupIff.mp (readDocument.mp read)
  have reads : walk? (Location.ofPointer p).segments doc = some x := found
  have same := kept hash
  rw [SameMeaning, reads] at same
  obtain ⟨y, found', means⟩ := relFrom same
  obtain ⟨⟨_, b⟩, ends⟩ := means.ends.mp ⟨_, rest⟩
  have further : (Reader.ofDocument doc').Leads ((), reference p) ((), b) :=
    .step (x := ((), y)) (referenceRef p) (readDocument.mpr (lookupIff.mpr ⟨hash, found'⟩)) ends
  obtain ⟨r', resolved', rfl⟩ := resolves.mpr further
  exact ⟨r', resolved', means.atEnds rest ends⟩

/- What a document has become as far as references tell: those it had are as they were, and the
others are to definitions that were given out. -/
structure Faithful (doc : Value) (moved given : List Moved) (now : Value) : Prop where
  lawful : now.lawful = true
  opens : Open now
  pointers : ∀ p ∈ now.pointers,
    p ∈ doc.pointers ∨ ∃ m ∈ given, p = (definitionAt m.name).toPointer
  given : ∀ m ∈ given, m.name ≠ "" ∧ ∃ held, Tree.get? (definitionAt m.name) now = some held
  stands : ∀ l, Watched doc moved l → position now l = position doc l ∧ SameMeaning doc now l

namespace Faithful
variable {moved given : List Moved} {now : Value} {m : Moved}

theorem spelled {name : String} (filled : name ≠ "") : (definitionAt name).Spelled := by
  intro s mem
  simp only [definitionAt, List.mem_cons, List.not_mem_nil, or_false] at mem
  rcases mem with rfl | rfl | rfl
  · rfl
  · rfl
  · simpa using filled

theorem reads (h : Faithful doc moved given now)
    (watched : ∀ p ∈ doc.pointers, p.startsWith "#" = true →
      Watched doc moved (Location.ofPointer p).segments)
    {p : String} (mem : p ∈ now.pointers) (hash : p.startsWith "#" = true) :
    Watched doc moved (Location.ofPointer p).segments ∨
      ∃ m ∈ given, Location.ofPointer p = definitionAt m.name := by
  rcases h.pointers p mem with old | ⟨m, listed, rfl⟩
  · exact .inl (watched p old hash)
  · exact .inr ⟨m, listed, Location.pointerRoundTrip (spelled (h.given m listed).1)⟩

theorem new (h : Faithful doc moved given now) (deep : ∀ m ∈ moved, 4 ≤ m.source.segments.length)
    {name : String} (absent : Tree.get? (definitionAt name) now = none) :
    Tree.get? (definitionAt name) doc = none := by
  cases there : Tree.get? (definitionAt name) doc with
  | none => rfl
  | some x =>
    obtain ⟨y, held⟩ := (relHeld (h.stands _ (watchedDefinition deep there)).2).mp ⟨x, there⟩
    cases absent.symm.trans held

theorem apart (h : Faithful doc moved given now) (deep : ∀ m ∈ moved, 4 ≤ m.source.segments.length)
    {m : Moved} (listed : m ∈ moved) (absent : Tree.get? (definitionAt m.name) now = none)
    {l : List String} (place : Watched doc moved l ∨
      ∃ m ∈ given, l = (definitionAt m.name).segments) :
    Apart now (definitionAt m.name).segments l := by
  have keys := definitionPosition h.opens.unlisted m.name
  have other : ¬ (definitionAt m.name).segments <+: l ∧ ¬ l <+: (definitionAt m.name).segments := by
    rcases place with watched | ⟨m', mem, rfl⟩
    · have within := watched.defined m listed (h.new deep absent)
      refine ⟨within, fun around => ?_⟩
      have split : (definitionAt m.name).segments = ["components", "schemas"] ++ [m.name] := rfl
      rw [split, List.prefix_concat_iff] at around
      rcases around with whole | short
      · exact within (split ▸ whole ▸ List.prefix_rfl)
      · exact watched.narrow short
    · have differ : (definitionAt m.name).segments ≠ (definitionAt m'.name).segments := by
        intro same
        obtain ⟨held, there⟩ := (h.given m' mem).2
        have equal : definitionAt m.name = definitionAt m'.name := congrArg Location.mk same
        rw [equal, there] at absent
        contradiction
      exact ⟨fun inside => differ (inside.eq_of_length rfl),
        fun inside => differ (inside.eq_of_length rfl).symm⟩
  exact ⟨fun inside => other.1 (keysInside (keys ▸ inside)),
    fun inside => other.2 (keysAround (keys ▸ inside))⟩

theorem added (h : Faithful doc moved given now) (deep : ∀ m ∈ moved, 4 ≤ m.source.segments.length)
    (watched : ∀ p ∈ doc.pointers, p.startsWith "#" = true →
      Watched doc moved (Location.ofPointer p).segments)
    {m : Moved} (listed : m ∈ moved) (named : m.name ≠ "") {v mid : Value}
    (fits : v.lawful = true) (inside : v.pointers ⊆ now.pointers) (object : v.isObject = true)
    (absent : Tree.get? (definitionAt m.name) now = none)
    (written : set? (definitionAt m.name) v now = some mid) :
    Faithful doc moved (given ++ [m]) mid := by
  have wrote := writeFollowed written
  have quiet := Value.objectQuiet object
  have apart := fun {l} => h.apart deep listed absent (l := l)
  have before : ∀ p ∈ mid.pointers, p ∈ now.pointers := fun p mem =>
    (wrote.pointers quiet mem).elim id fun mine => inside mine
  have unread : ∀ p ∈ now.pointers, p.startsWith "#" = true →
      Tree.get? (.ofPointer p) mid = Tree.get? (.ofPointer p) now := by
    intro p mem hash
    refine (wrote.apart (apart ?_)).1
    rcases h.reads watched mem hash with place | ⟨m, mem, same⟩
    · exact .inl place
    · exact .inr ⟨m, mem, congrArg _ same⟩
  refine ⟨lawfulSet fits h.lawful written, openAdded h.opens written, fun p mem => ?_,
    fun m' mem => ?_, fun l place => ?_⟩
  · rcases h.pointers p (before p mem) with old | ⟨m', mem, same⟩
    · exact .inl old
    · exact .inr ⟨m', List.mem_append_left _ mem, same⟩
  · rcases List.mem_append.mp mem with old | new
    · obtain ⟨filled, held, there⟩ := h.given m' old
      exact ⟨filled, held, (wrote.apart (apart (.inr ⟨m', old, rfl⟩))).1.trans there⟩
    · cases List.mem_singleton.mp new
      exact ⟨named, v, setReads written⟩
  · obtain ⟨reads, at_⟩ := wrote.apart (apart (.inl place))
    obtain ⟨placed, meant⟩ := h.stands l place
    refine ⟨at_.trans placed, meant.trans ?_⟩
    unfold SameMeaning
    rw [reads]
    cases held : walk? l now with
    | none => exact .none
    | some x => exact .some (meansUnread unread (walkMeasures held).2)

theorem reused (h : Faithful doc moved given now) (named : m.name ≠ "") {held : Value}
    (there : Tree.get? (definitionAt m.name) now = some held) :
    Faithful doc moved (given ++ [m]) now := by
  refine ⟨h.lawful, h.opens, fun p mem => ?_, fun m' mem => ?_, h.stands⟩
  · rcases h.pointers p mem with old | ⟨m', listed, same⟩
    · exact .inl old
    · exact .inr ⟨m', List.mem_append_left _ listed, same⟩
  · rcases List.mem_append.mp mem with old | new
    · exact h.given m' old
    · cases List.mem_singleton.mp new
      exact ⟨named, held, there⟩

theorem outside (h : Faithful doc moved given now) (listed : m ∈ moved) {v : Value}
    (site : IsSite now m.source v) {l : List String} (place : Watched doc moved l)
    (inside : position now m.source.segments <+: position now l) :
    position now l = position now m.source.segments := by
  have placed := (h.stands l place).1
  have spelled : m.source.segments <+: canonical doc l := by
    rw [← site.reached.canonical h.lawful, canonical, canonical, ← placed]
    exact List.IsPrefix.map _ inside
  have same := congrArg List.length (place.outside m listed spelled)
  rw [canonicalLength] at same
  exact (inside.eq_of_length (by rw [positionLength, positionLength, same])).symm

theorem gives (h : Faithful doc moved given now)
    (watched : ∀ p ∈ doc.pointers, p.startsWith "#" = true →
      Watched doc moved (Location.ofPointer p).segments)
    (listed : m ∈ moved) (here : m ∈ given) {v held now' : Value}
    (site : IsSite now m.source v) (there : Tree.get? (definitionAt m.name) now = some held)
    (equal : held.same v = true) (wrote : Wrote (leftBehind m.name) m.source.segments now now') :
    GivesWay m.source.segments (definitionAt m.name).toPointer v held now now' := by
  have named := spelled (h.given m here).1
  refine ⟨h.lawful, (site.reads h.lawful).1, Value.objectQuiet site.object.1, site.object.2,
    wrote,
    fun p mem hash => ?_, lookupAt named there, equal, fun inside => ?_⟩
  · rcases h.reads watched mem hash with place | ⟨m', _, same⟩
    · exact h.outside listed site place
    · rw [same]
      exact site.outside (by simp [definitionAt])
  · rw [Location.pointerRoundTrip named] at inside
    have short := inside.length_le
    rw [positionLength, positionLength] at short
    have deep := site.deep
    simp only [definitionAt, List.length_cons, List.length_nil] at short
    omega

theorem left (h : Faithful doc moved given now)
    (watched : ∀ p ∈ doc.pointers, p.startsWith "#" = true →
      Watched doc moved (Location.ofPointer p).segments)
    (listed : m ∈ moved) (here : m ∈ given) {v held now' : Value}
    (site : IsSite now m.source v) (there : Tree.get? (definitionAt m.name) now = some held)
    (equal : held.same v = true) (written : set? m.source (leftBehind m.name) now = some now') :
    Faithful doc moved given now' := by
  have wrote := writeFollowed written
  have reads := (site.reads h.lawful).1
  have gives := h.gives watched listed here site there equal wrote
  refine ⟨lawfulSet rfl h.lawful written, openLeft h.opens h.lawful site written, fun p mem => ?_,
    fun m' mem => ?_, fun l place => ?_⟩
  · rcases wrote.pointers rfl mem with old | new
    · exact h.pointers p old
    · refine .inr ⟨m, here, ?_⟩
      simpa [leftBehind, reference, Value.pointers, Value.pointersOfMembers, refOf, Value.textAt?,
        Value.get?, Value.str?] using new
  · obtain ⟨filled, x, there'⟩ := h.given m' mem
    have beside := (wrote.beside reads (site.outside (l := (definitionAt m'.name).segments)
      (by simp [definitionAt]))).1
    have found : walk? (definitionAt m'.name).segments now = some x := there'
    rw [found] at beside
    obtain ⟨y, again, _⟩ := relFrom beside
    exact ⟨filled, y, again⟩
  · obtain ⟨placed, meant⟩ := h.stands l place
    obtain ⟨beside, at_⟩ := wrote.beside reads (h.outside listed site place)
    exact ⟨at_.trans placed, meant.trans (.swapped beside fun x y before after =>
      gives.means before after (h.outside listed site place))⟩

end Faithful

def movedBy (names : List (String × String)) (doc : Value) : List Moved :=
  (hoist (.apply names) doc).2.hoisted

theorem movedSites (names : List (String × String)) (doc : Value) :
    ∀ m ∈ movedBy names doc, ∃ s ∈ sites doc, s.location = m.source := by
  refine (hoistInduction (P := fun rest now => rest ⊆ sites doc ∧
    ∀ m ∈ now.2.hoisted, ∃ s ∈ sites doc, s.location = m.source)
    ⟨List.Subset.refl _, fun m mem => nomatch mem⟩ ?_).2
  rintro s rest ⟨now, report⟩ ⟨known, moved⟩
  obtain ⟨here, later⟩ := List.cons_subset.mp known
  refine ⟨later, fun m mem => ?_⟩
  rcases movedOrStays names now report s with ⟨⟨name, grown⟩, _⟩ | ⟨⟨report', done, same⟩, _⟩
  · rw [grown] at mem
    rcases List.mem_append.mp mem with old | new
    · exact moved m old
    · exact ⟨s, here, by rw [List.mem_singleton.mp new]⟩
  · rw [done, same] at mem
    exact moved m mem

theorem movedDeep (names : List (String × String)) (doc : Value) :
    ∀ m ∈ movedBy names doc, 4 ≤ m.source.segments.length := by
  intro m mem
  obtain ⟨s, listed, same⟩ := movedSites names doc m mem
  obtain ⟨y, site, _⟩ := memSites.mp listed
  exact same ▸ site.deep

/- No reference of the document is to a place that the run disturbs. -/
structure Undisturbed (names : List (String × String)) (doc : Value) : Prop where
  unlisted : Unlisted doc
  named : ∀ m ∈ movedBy names doc, m.name ≠ ""
  watched : ∀ p ∈ doc.pointers, p.startsWith "#" = true →
    Watched doc (movedBy names doc) (Location.ofPointer p).segments

structure Underway (names : List (String × String)) (doc : Value) (rest : List Site)
    (now : Value × Report) : Prop where
  ends : rest.foldl (applySite names) now = hoist (.apply names) doc
  remaining : Remaining now.1 rest
  faithful : Faithful doc (movedBy names doc) now.2.hoisted now.1

theorem Underway.step (calm : Undisturbed names doc) {s : Site} {rest : List Site}
    {now : Value × Report} (h : Underway names doc (s :: rest) now) :
    Underway names doc rest (applySite names now s) := by
  obtain ⟨now, report⟩ := now
  obtain ⟨ends, remaining, faithful⟩ := h
  simp only at remaining faithful
  rw [List.foldl_cons] at ends
  have listed : (applySite names (now, report) s).2.hoisted ⊆ movedBy names doc := by
    rw [movedBy, ← ends]
    exact (hoistedGrows names rest _).subset
  obtain ⟨v, found, told⟩ := remaining.stand s List.mem_cons_self
  have reads := found.reads faithful.lawful
  have step := stepped names s now report
  generalize applySite names (now, report) s = after at step ends listed
  cases step with
  | gone => exact ⟨ends, remaining.tail, faithful⟩
  | unnamed => exact ⟨ends, remaining.tail, faithful⟩
  | conflict => exact ⟨ends, remaining.tail, faithful⟩
  | blocked => exact ⟨ends, remaining.tail, faithful⟩
  | @moved _ name mid reads' asked defined =>
    cases reads.1.symm.trans reads'
    have relocated := relocatedBy faithful.lawful found defined
    refine ⟨ends, remaining.next relocated faithful.lawful, ?_⟩
    have mine : ⟨s.location, name⟩ ∈ movedBy names doc := listed (by simp)
    have between : Faithful doc (movedBy names doc) (report.hoisted ++ [⟨s.location, name⟩]) mid ∧
        ∃ held, Tree.get? (definitionAt name) mid = some held ∧ held.same v = true := by
      cases defined with
      | @reused held there same =>
        exact ⟨faithful.reused (m := ⟨s.location, name⟩) (calm.named _ mine) there, held, there, same⟩
      | added absent written =>
        exact ⟨faithful.added (movedDeep names doc) calm.watched (m := ⟨s.location, name⟩) mine
          (calm.named _ mine) reads.2 (walkMeasures reads.1).2 found.object.1 absent written,
          v, setReads written, sameRefl v reads.2⟩
    obtain ⟨faithful', held, there, equal⟩ := between
    exact faithful'.left calm.watched (m := ⟨s.location, name⟩) mine (by simp)
      (relocated.midSite found) there equal relocated.left

theorem watchedKept (lawful : doc.lawful = true) (calm : Undisturbed names doc) {l : List String}
    (watched : Watched doc (movedBy names doc) l) :
    SameMeaning doc (hoist (.apply names) doc).1 l := by
  rcases openOrShut calm.unlisted with opens | shut
  · have start : Underway names doc (sites doc) (doc, Report.none) :=
      ⟨rfl, .start lawful, lawful, opens, fun p mem => .inl mem, (fun m mem => nomatch mem),
        fun l _ => ⟨rfl, .refl doc l⟩⟩
    have ended := hoistInduction start fun _ _ _ h => h.step calm
    exact (ended.faithful.stands l watched).2
  · rw [settledLeft (shutSettled shut)]
    exact .refl doc l

structure Preserved (doc doc' : Value) : Prop where
  paths : ∀ p x, Tree.get? ⟨["paths", p]⟩ doc = some x →
    ∃ x', Tree.get? ⟨["paths", p]⟩ doc' = some x' ∧
      Means (Reader.ofDocument doc) (Reader.ofDocument doc') ((), x) ((), x')
  components : ∀ s n x, Tree.get? ⟨["components", s, n]⟩ doc = some x →
    ∃ x', Tree.get? ⟨["components", s, n]⟩ doc' = some x' ∧
      Means (Reader.ofDocument doc) (Reader.ofDocument doc') ((), x) ((), x')
  references : ∀ p ∈ doc.pointers, ∀ r, resolve doc (reference p) = .ok r →
    (∀ l, r.location? = some l → ¬ l.segments <+: ["components", "schemas"]) →
      ∃ r', resolve doc' (reference p) = .ok r' ∧
        Means (Reader.ofDocument doc) (Reader.ofDocument doc') ((), r.value) ((), r'.value)

theorem watchedEntry (names : List (String × String)) {l : Location} {x : Value}
    (there : Tree.get? l doc = some x) (short : l.segments.length < 4)
    (narrow : ¬ l.segments <+: ["components", "schemas"]) :
    Watched doc (movedBy names doc) l.segments where
  narrow := narrow
  defined m _ absent inside := by
    have whole : definitionAt m.name = l := by
      refine congrArg Location.mk (inside.eq_of_length ?_)
      have := inside.length_le
      simp only [definitionAt, List.length_cons, List.length_nil] at this ⊢
      omega
    rw [whole, there] at absent
    contradiction
  outside m mem inside := by
    have := inside.length_le
    rw [canonicalLength] at this
    have := movedDeep names doc m mem
    omega

/- A run keeps the meaning of a document if no reference is to a place that it disturbs: to the
definitions as a whole or what is around them, to a definition that is not there yet and is added,
or strictly into a schema that moves. -/
theorem hoistPreserves (names : List (String × String)) (lawful : doc.lawful = true)
    (calm : Undisturbed names doc) : Preserved doc (hoist (.apply names) doc).1 where
  paths p x there := by
    have watched := watchedEntry names there (by simp) (by simp [List.cons_prefix_cons])
    have kept := watchedKept lawful calm watched
    have reads : walk? ["paths", p] doc = some x := there
    rw [SameMeaning, reads] at kept
    exact relFrom kept
  components s n x there := by
    have watched := watchedEntry names there (by simp) (by simp [List.cons_prefix_cons])
    have kept := watchedKept lawful calm watched
    have reads : walk? ["components", s, n] doc = some x := there
    rw [SameMeaning, reads] at kept
    exact relFrom kept
  references p mem r resolved _ := by
    have leads := resolves.mp ⟨r, resolved, rfl⟩
    obtain ⟨⟨_, x⟩, read, rest⟩ := leads.next (referenceRef p)
    obtain ⟨hash, found⟩ := lookupIff.mp (readDocument.mp read)
    have kept := watchedKept lawful calm (calm.watched p mem hash)
    have reads : walk? (Location.ofPointer p).segments doc = some x := found
    rw [SameMeaning, reads] at kept
    obtain ⟨y, found', means⟩ := relFrom kept
    obtain ⟨⟨_, b⟩, ends⟩ := means.ends.mp ⟨_, rest⟩
    have further : (Reader.ofDocument (hoist (.apply names) doc).1).Leads ((), reference p) ((), b) :=
      .step (x := ((), y)) (referenceRef p) (readDocument.mpr (lookupIff.mpr ⟨hash, found'⟩)) ends
    obtain ⟨r', resolved', rfl⟩ := resolves.mpr further
    exact ⟨r', resolved', means.atEnds rest ends⟩

def usedDocument : Value :=
  let thing : Value := .obj [("type", .str "object"),
    ("properties", .obj [("id", .obj [("type", .str "string")])])]
  .obj [("components", .obj [("schemas", .obj [
      ("Box", .obj [("properties", .obj [("left", thing)])])])]),
    ("x-use", reference "#/components/schemas/Box/properties/left")]

theorem usedPreserved : usedDocument.lawful = true ∧ Undisturbed [("Oid", "Thing")] usedDocument ∧
    Preserved usedDocument (hoist (.apply [("Oid", "Thing")]) usedDocument).1 := by
  have moved : movedBy [("Oid", "Thing")] usedDocument =
      [⟨⟨["components", "schemas", "Box", "properties", "left"]⟩, "Thing"⟩] := by decide +kernel
  have pointers : usedDocument.pointers = ["#/components/schemas/Box/properties/left"] := by
    decide +kernel
  have place : Location.ofPointer "#/components/schemas/Box/properties/left" =
      ⟨["components", "schemas", "Box", "properties", "left"]⟩ := by decide +kernel
  have calm : Undisturbed [("Oid", "Thing")] usedDocument := by
    refine ⟨(fun items list => nomatch list), ?_, ?_⟩
    · rw [moved]
      decide
    · rw [moved, pointers]
      intro p mem _
      rw [List.mem_singleton.mp mem, place]
      exact ⟨by decide, by decide +kernel, by decide +kernel⟩
  exact ⟨by decide, calm, hoistPreserves _ (by decide) calm⟩

def innerDocument : Value :=
  let thing : Value := .obj [("type", .str "object"),
    ("properties", .obj [("id", .obj [("type", .str "string")])])]
  .obj [("components", .obj [("schemas", .obj [
      ("Box", .obj [("properties", .obj [("left", thing)])])])]),
    ("x-id", reference "#/components/schemas/Box/properties/left/properties/id")]

def innerPointer : String := "#/components/schemas/Box/properties/left/properties/id"

theorem innerBreaks : innerDocument.lawful = true ∧
    ¬ Preserved innerDocument (hoist (.apply [("Oid", "Thing")]) innerDocument).1 := by
  refine ⟨by decide, fun kept => ?_⟩
  have listed : innerPointer ∈ innerDocument.pointers := by decide +kernel
  have before : (resolve innerDocument (reference innerPointer)).toOption.map Resolved.location? =
      some (some ⟨["components", "schemas", "Box", "properties", "left", "properties", "id"]⟩) := by
    decide +kernel
  have after : (resolve (hoist (.apply [("Oid", "Thing")]) innerDocument).1
      (reference innerPointer)).toOption.isNone = true := by decide +kernel
  cases resolved : resolve innerDocument (reference innerPointer) with
  | error e => simp [resolved, Except.toOption] at before
  | ok r =>
    simp only [resolved, Except.toOption, Option.map_some, Option.some.injEq] at before
    obtain ⟨r', resolved', _⟩ := kept.references innerPointer listed r resolved fun l at_ => by
      cases before.symm.trans at_
      decide
    simp [resolved', Except.toOption] at after

end ApiGraph.Hoist
