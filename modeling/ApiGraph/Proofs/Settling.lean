import ApiGraph.Proofs.Sweep

/-! A second run over what the first has made. It leaves everything exactly if no schema that is left
can move, and what it moves after all has a name that was in conflict the first time: the definition
of this name may have changed since it was compared. -/
namespace ApiGraph.Hoist
open Json ApiGraph.Tree Fingerprint
variable {names : List (String × String)} {doc : Value}

def Idempotent (names : List (String × String)) (doc : Value) : Prop :=
  let once := hoist (.apply names) doc
  let twice := hoist (.apply names) once.1
  twice.1 = once.1 ∧ twice.2.hoisted = []

/- A schema stays where it is if it has no name, if its name is that of another schema, or if it
cannot be defined. -/
def Stays (names : List (String × String)) (doc : Value) (site : Site) : Prop :=
  ∀ v name, Tree.get? site.location doc = some v → nameFor names site v = some name →
    match Tree.get? (definitionAt name) doc with
    | some held => (held == v) = false
    | none => set? (definitionAt name) v doc = none

def Settled (names : List (String × String)) (doc : Value) : Prop :=
  ∀ site ∈ sites doc, Stays names doc site

theorem movedOrStays (names : List (String × String)) (doc : Value) (report : Report) (site : Site) :
    (∃ name, (applySite names (doc, report) site).2.hoisted =
        report.hoisted ++ [⟨site.location, name⟩]) ∧ ¬ Stays names doc site ∨
      (∃ report', applySite names (doc, report) site = (doc, report') ∧
        report'.hoisted = report.hoisted) ∧ Stays names doc site := by
  have step := stepped names site doc report
  -- what a site asks for is what it asks for at the value that stands there
  have only : ∀ {v name w name'}, Tree.get? site.location doc = some v →
      nameFor names site v = some name → Tree.get? site.location doc = some w →
      nameFor names site w = some name' → w = v ∧ name' = name := by
    intro v name w name' reads asked reads' asked'
    cases reads.symm.trans reads'
    exact ⟨rfl, Option.some.inj (asked'.symm.trans asked)⟩
  generalize applySite names (doc, report) site = after at step
  cases step with
  | gone absent =>
    refine .inr ⟨⟨report, rfl, rfl⟩, fun w name reads => ?_⟩
    rw [absent] at reads
    contradiction
  | unnamed reads nameless =>
    refine .inr ⟨⟨report, rfl, rfl⟩, fun w name reads' asked => ?_⟩
    cases reads.symm.trans reads'
    rw [nameless] at asked
    contradiction
  | @moved v name mid reads asked defined =>
    refine .inl ⟨⟨name, rfl⟩, fun stays => ?_⟩
    have stuck := stays v name reads asked
    cases defined with
    | reused there same => simp [there, same] at stuck
    | added absent written => simp [absent, written] at stuck
  | conflict reads asked there other =>
    refine .inr ⟨⟨_, rfl, rfl⟩, fun w name' reads' asked' => ?_⟩
    obtain ⟨rfl, rfl⟩ := only reads asked reads' asked'
    rw [there]
    exact other
  | blocked reads asked absent refused =>
    refine .inr ⟨⟨report, rfl, rfl⟩, fun w name' reads' asked' => ?_⟩
    obtain ⟨rfl, rfl⟩ := only reads asked reads' asked'
    rw [absent]
    exact refused

theorem hoistedGrows (names : List (String × String)) (left : List Site) (now : Value × Report) :
    now.2.hoisted <+: (left.foldl (applySite names) now).2.hoisted := by
  induction left generalizing now with
  | nil => exact List.prefix_rfl
  | cons site rest ih =>
    refine List.IsPrefix.trans ?_ (ih _)
    rcases movedOrStays names now.1 now.2 site with ⟨⟨name, moved⟩, _⟩ | ⟨⟨report', done, same⟩, _⟩
    · exact moved ▸ List.prefix_append _ _
    · simp [done, same]

theorem nothingMoves (left : List Site) (report : Report) :
    (left.foldl (applySite names) (doc, report)).2.hoisted = report.hoisted ↔
      ∀ site ∈ left, Stays names doc site := by
  induction left generalizing report with
  | nil => simp
  | cons site rest ih =>
    rw [List.foldl_cons, List.forall_mem_cons]
    rcases movedOrStays names doc report site with
      ⟨⟨name, moved⟩, goes⟩ | ⟨⟨report', done, same⟩, stays⟩
    · refine ⟨fun quiet => ?_, fun h => absurd h.1 goes⟩
      have longer := (hoistedGrows names rest (applySite names (doc, report) site)).length_le
      rw [quiet, moved, List.length_append, List.length_singleton] at longer
      omega
    · rw [done, ← same, ih]
      simp [stays]

theorem staysAll {left : List Site} (stay : ∀ site ∈ left, Stays names doc site) (report : Report) :
    (left.foldl (applySite names) (doc, report)).1 = doc := by
  induction left generalizing report with
  | nil => rfl
  | cons site rest ih =>
    obtain ⟨here, later⟩ := List.forall_mem_cons.mp stay
    rcases movedOrStays names doc report site with ⟨_, goes⟩ | ⟨⟨report', done, _⟩, _⟩
    · exact absurd here goes
    · rw [List.foldl_cons, done]
      exact ih later report'

theorem settledIff : (hoist (.apply names) doc).2.hoisted = [] ↔ Settled names doc :=
  nothingMoves (sites doc) Report.none

theorem settledLeft (settled : Settled names doc) : (hoist (.apply names) doc).1 = doc :=
  staysAll settled Report.none

theorem idempotentIff : Idempotent names doc ↔ Settled names (hoist (.apply names) doc).1 :=
  ⟨fun h => settledIff.mp h.2, fun settled => ⟨settledLeft settled, settledIff.mpr settled⟩⟩

def Asked (names : List (String × String)) (doc : Value) (name : String) : Prop :=
  ∃ l v, IsSite doc l v ∧ called names v = some name

/- Of the sites that have a name, those that are not still to come have one that was in conflict. No
step brings up a new name. -/
structure Named (names : List (String × String)) (doc : Value) (rest : List Site)
    (now : Value × Report) : Prop where
  lawful : now.1.lawful = true
  opens : Open now.1
  remaining : Remaining now.1 rest
  origin : ∀ name, Asked names now.1 name → Asked names doc name
  hoisted : ∀ m ∈ now.2.hoisted, Asked names doc m.name
  settled : ∀ l v name, IsSite now.1 l v → called names v = some name →
    (∃ s ∈ rest, s.location = l) ∨ ∃ c ∈ now.2.conflicts, c.name = name

theorem Named.start (lawful : doc.lawful = true) (opens : Open doc) :
    Named names doc (sites doc) (doc, Report.none) where
  lawful := lawful
  opens := opens
  remaining := .start lawful
  origin _ asked := asked
  hoisted _ mem := nomatch mem
  settled l v name found known := by
    obtain ⟨fp, told, _⟩ := Option.bind_eq_some_iff.mp known
    exact .inl ⟨⟨l, fp⟩, memSites.mpr ⟨v, found, told⟩, rfl⟩

theorem Named.moved {s : Site} {rest : List Site} {now mid doc' v : Value} {report : Report}
    {name : String} (h : Named names doc (s :: rest) (now, report))
    (asked : called names v = some name) (relocated : Relocated s.location name v now mid doc') :
    Named names doc rest
      (doc', { report with hoisted := report.hoisted ++ [⟨s.location, name⟩] }) := by
  obtain ⟨lawful, opens, remaining, origin, hoisted, settled⟩ := h
  simp only at lawful opens remaining origin hoisted settled
  have ordered := (List.pairwise_cons.mp remaining.ordered).1
  have unlisted := opens.unlisted
  refine ⟨relocated.lawful lawful, relocated.opens opens lawful,
    remaining.next relocated lawful, ?_, fun m mem => ?_, fun l y' name at_ known => ?_⟩
  · rintro name ⟨l, y', at_, known⟩
    obtain ⟨before, y, held, same, _⟩ := relocated.reached lawful unlisted at_
    exact origin name ⟨before, y, held, (same.called names).symm.trans known⟩
  · rcases List.mem_append.mp mem with old | new
    · exact hoisted m old
    · rw [List.mem_singleton.mp new]
      exact origin _ ⟨_, v, relocated.site, asked⟩
  · obtain ⟨before, y, held, same, way⟩ := relocated.reached lawful unlisted at_
    rw [same.called] at known
    rcases settled before y name held known with ⟨t, mem, rfl⟩ | conflict
    · rcases List.mem_cons.mp mem with rfl | later
      · rcases way with ⟨rfl, apart⟩ | ⟨_, other⟩
        · exact absurd List.prefix_rfl apart
        · exact absurd rfl other
      · rcases way with ⟨rfl, _⟩ | ⟨inside, _⟩
        · exact .inl ⟨t, later, rfl⟩
        · exact absurd inside (ordered t later)
    · exact .inr conflict

theorem Named.step {s : Site} {rest : List Site} {now : Value × Report}
    (h : Named names doc (s :: rest) now) : Named names doc rest (applySite names now s) := by
  obtain ⟨now, report⟩ := now
  have lawful : now.lawful = true := h.lawful
  have opens : Open now := h.opens
  have remaining : Remaining now (s :: rest) := h.remaining
  obtain ⟨v, found, told⟩ := remaining.stand s List.mem_cons_self
  have reads := (found.reads lawful).1
  -- where the document stays, its other sites are settled as they were
  have others : ∀ {conflicts}, report.conflicts ⊆ conflicts →
      (∀ name, called names v = some name → ∃ c ∈ conflicts, c.name = name) →
      ∀ l y name, IsSite now l y → called names y = some name →
        (∃ t ∈ rest, t.location = l) ∨ ∃ c ∈ conflicts, c.name = name := by
    intro conflicts more mine l y name at_ known
    rcases h.settled l y name at_ known with ⟨t, mem, rfl⟩ | ⟨c, listed, same⟩
    · rcases List.mem_cons.mp mem with rfl | later
      · cases reads.symm.trans (at_.reads lawful).1
        exact .inr (mine name known)
      · exact .inl ⟨t, later, rfl⟩
    · exact .inr ⟨c, more listed, same⟩
  have step := stepped names s now report
  generalize applySite names (now, report) s = after at step
  cases step with
  | gone absent =>
    rw [reads] at absent
    contradiction
  | unnamed reads' nameless =>
    cases reads.symm.trans reads'
    rw [← nameOfSite told] at nameless
    refine ⟨lawful, opens, remaining.tail, h.origin, h.hoisted, others (List.Subset.refl _) ?_⟩
    simp [nameless]
  | @conflict _ name _ reads' asked there other =>
    cases reads.symm.trans reads'
    rw [← nameOfSite told] at asked
    refine ⟨lawful, opens, remaining.tail, h.origin, h.hoisted,
      others (List.subset_append_left _ _) fun name' known => ?_⟩
    cases asked.symm.trans known
    exact ⟨_, List.mem_append_right _ (List.mem_singleton.mpr rfl), rfl⟩
  | @blocked _ name _ _ _ refused =>
    obtain ⟨mid, written⟩ := opens.free name _
    rw [refused] at written
    contradiction
  | moved reads' asked defined =>
    cases reads.symm.trans reads'
    rw [← nameOfSite told] at asked
    exact h.moved asked (relocatedBy lawful found defined)

theorem namedRun (names : List (String × String)) (lawful : doc.lawful = true) (opens : Open doc) :
    Named names doc [] (hoist (.apply names) doc) :=
  hoistInduction (Named.start lawful opens) fun _ _ _ h => h.step

theorem shutSettled (shut : ∀ name v, Tree.get? (definitionAt name) doc = none ∧
    set? (definitionAt name) v doc = none) : Settled names doc := by
  intro site _ v name _ _
  rw [(shut name v).1]
  exact (shut name v).2

theorem movedAgain (names : List (String × String)) (lawful : doc.lawful = true)
    (unlisted : Unlisted doc) :
    ∀ m ∈ (hoist (.apply names) (hoist (.apply names) doc).1).2.hoisted,
      ∃ c ∈ (hoist (.apply names) doc).2.conflicts, c.name = m.name := by
  intro m mem
  rcases openOrShut unlisted with opens | shut
  · have first := namedRun names lawful opens
    obtain ⟨l, v, found, known⟩ := (namedRun names first.lawful first.opens).hoisted m mem
    rcases first.settled l v _ found known with ⟨s, none, _⟩ | conflict
    · exact nomatch none
    · exact conflict
  · have settled : Settled names doc := shutSettled shut
    rw [settledLeft settled, settledIff.mpr settled] at mem
    exact nomatch mem

/- A second run leaves the document exactly if the first leaves no schema that can move; so it is
when no name was in conflict. -/
theorem hoistIdempotent (names : List (String × String)) (lawful : doc.lawful = true) :
    (Idempotent names doc ↔ Settled names (hoist (.apply names) doc).1) ∧
    (Unlisted doc →
      (∀ m ∈ (hoist (.apply names) (hoist (.apply names) doc).1).2.hoisted,
        ∃ c ∈ (hoist (.apply names) doc).2.conflicts, c.name = m.name) ∧
      ((hoist (.apply names) doc).2.conflicts = [] → Idempotent names doc)) := by
  refine ⟨idempotentIff, fun unlisted => ?_⟩
  have again := movedAgain names lawful unlisted
  refine ⟨again, fun none => idempotentIff.mpr (settledIff.mp ?_)⟩
  refine List.eq_nil_iff_forall_not_mem.mpr fun m mem => ?_
  obtain ⟨c, listed, _⟩ := again m mem
  rw [none] at listed
  exact nomatch listed

def pairDocument : Value :=
  let thing : Value := .obj [("type", .str "object"),
    ("properties", .obj [("id", .obj [("type", .str "string")])])]
  .obj [("components", .obj [("schemas", .obj [
    ("Pair", .obj [("properties", .obj [("left", thing), ("right", thing)])])])])]

theorem pairSettled : pairDocument.lawful = true ∧ Idempotent [("Oid", "Thing")] pairDocument := by
  have lawful : pairDocument.lawful = true := by decide
  have once := hoistIdempotent [("Oid", "Thing")] lawful
  refine ⟨lawful, (once.2 fun items list => ?_).2 (by decide +kernel)⟩
  exact nomatch list

def boxDocument : Value :=
  let state : Value := .obj [("type", .str "string"), ("enum", .arr [.str "on", .str "off"])]
  let item : Value := .obj [("type", .str "object"), ("properties", .obj [("state", state)])]
  .obj [("components", .obj [("schemas", .obj [
    ("Box", .obj [("type", .str "object"), ("properties", .obj [("item", item)])]),
    ("Item", item)])])]

def boxNames : List (String × String) := [("Ostate", "Item"), ("Eoffon", "State")]

/- When `Box` is searched its enum has moved and that of `Item` has not, so the two differ; after
the run they are equal. -/
theorem boxMovesLate : boxDocument.lawful = true ∧
    (hoist (.apply boxNames) (hoist (.apply boxNames) boxDocument).1).2.hoisted =
      [⟨⟨["components", "schemas", "Box", "properties", "item"]⟩, "Item"⟩] ∧
    ¬ Idempotent boxNames boxDocument := by
  have late : (hoist (.apply boxNames) (hoist (.apply boxNames) boxDocument).1).2.hoisted =
      [⟨⟨["components", "schemas", "Box", "properties", "item"]⟩, "Item"⟩] := by decide +kernel
  refine ⟨by decide, late, fun again => ?_⟩
  have none := again.2
  rw [late] at none
  contradiction

end ApiGraph.Hoist
