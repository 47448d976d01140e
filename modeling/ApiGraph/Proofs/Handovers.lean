import ApiGraph.Proofs.Relocation

/-! Nothing is lost in a run. The definitions that were there stay, changed at most where inner schemas
have given way to references; a schema that moves is what its definition holds at that moment; one that
is in conflict stays where it is, and a run that moves nothing changes nothing. -/
namespace ApiGraph.Hoist
open Json ApiGraph.Tree Resolve Meaning Relation

section Move
variable {doc mid doc' v : Value} {source : Location} {name : String}

theorem Defined.held (d : Defined name v doc mid) (fits : v.lawful = true) :
    ∃ held, Tree.get? (definitionAt name) mid = some held ∧ held.same v = true := by
  cases d with
  | reused there same => exact ⟨_, there, same⟩
  | added absent written => exact ⟨v, setReads written, sameRefl v fits⟩

theorem apartOrSame (doc : Value) {l l' : List String} (long : l.length = l'.length) :
    Apart doc l l' ∨ position doc l = position doc l' := by
  have equal : (position doc l).length = (position doc l').length := by
    rw [positionLength, positionLength, long]
  by_cases same : position doc l = position doc l'
  · exact .inr same
  · exact .inl ⟨fun inside => same (inside.eq_of_length equal),
      fun inside => same (inside.eq_of_length equal.symm).symm⟩

theorem Defined.others (d : Defined name v doc mid) {other : String} {y : Value}
    (there : Tree.get? (definitionAt other) doc = some y) :
    Tree.get? (definitionAt other) mid = some y := by
  cases d with
  | reused => exact there
  | added absent written =>
    have long : (definitionAt name).segments.length = (definitionAt other).segments.length := rfl
    rcases apartOrSame doc long with apart | same
    · exact ((writeFollowed written).apart apart).1.trans there
    · obtain ⟨x, found⟩ := positionAround (same ▸ List.prefix_rfl :
        position doc (definitionAt name).segments <+: position doc (definitionAt other).segments) there
      have held : Tree.get? (definitionAt name) doc = some x := found
      rw [absent] at held
      cases held

theorem Relocated.apart (r : Relocated source name v doc mid doc') (lawful : doc.lawful = true) :
    Apart mid source.segments (definitionAt name).segments := by
  have site := r.midSite r.site
  obtain ⟨reads, fits⟩ := site.reads (r.midLawful lawful)
  have deep := site.deep
  have short : (definitionAt name).segments.length = 3 := rfl
  refine ⟨fun inside => ?_, fun inside => ?_⟩
  · have long := inside.length_le
    rw [positionLength, positionLength] at long
    omega
  · obtain ⟨held, there, same⟩ := r.defined.held fits
    obtain ⟨q, long, walked⟩ := positionInside inside there
    have within : walk? q held = some v := walked.symm.trans reads
    have less := walkDeeper within (by rintro rfl; simp at long; omega)
    have even := Value.sameDepth held same
    omega

theorem siteBelow {l : Location} {y : Value} (site : IsSite doc l y)
    (below : ["components", "schemas"] <+: l.segments) : Unlisted doc := by
  intro items list
  obtain ⟨s, slot, way, x, rest, path, held, inner⟩ := documentReach site.reached
  obtain ⟨r, begins⟩ := held.headed
  rw [path, begins, List.cons_append, List.cons_prefix_cons] at below
  cases slotUnique slot (show componentsSlot ∈ slots .document by decide) below.1.symm
  cases held with
  | one form held =>
    obtain ⟨t, slot', way', z, rest', rfl, held', _⟩ := componentsReach inner
    obtain ⟨r', begins'⟩ := held'.headed
    cases begins
    rw [begins', List.nil_append, List.cons_append, List.cons_prefix_cons] at below
    cases slotUnique slot' (show schemasSlot ∈ slots .components by decide) below.2.1.symm
    exact listedShut list held held'
  | item form => simp [componentsSlot] at form
  | member form => simp [componentsSlot] at form

theorem siteInside {l : Location} {y : Value} (site : IsSite doc l y)
    (inside : position doc (definitionAt name).segments <+: position doc l.segments) :
    (definitionAt name).segments <+: l.segments := by
  have keys : (["components", "schemas"].map Step.key) <+: position doc l.segments := by
    refine List.IsPrefix.trans ?_ inside
    rw [definitionAt, positionWord (by decide), positionWord (by decide)]
    simp [List.cons_prefix_cons]
  have unlisted := siteBelow site (keysInside keys)
  rw [definitionPosition unlisted] at inside
  exact keysInside inside

end Move

inductive GivenWay (moved : List Moved) (base : List String) (w w' : Value) : Prop
  | inner {m : Moved} {q : List String} {x : Value} (listed : m ∈ moved)
      (placed : m.source.segments = base ++ q) (strictly : q ≠ []) (stood : walk? q w = some x)
      (schema : entered .schema x = true) (wrote : write? (leftBehind m.name) q w = some w')

theorem Relocated.entry {doc mid doc' v y : Value} {source : Location} {name other : String}
    (r : Relocated source name v doc mid doc') (lawful : doc.lawful = true)
    (there : Tree.get? (definitionAt other) doc = some y) {moved : List Moved}
    (listed : ⟨source, name⟩ ∈ moved) :
    ∃ y', Tree.get? (definitionAt other) doc' = some y' ∧
      (y' = y ∨ GivenWay moved (definitionAt other).segments y y') := by
  have site := r.midSite r.site
  have lawful' := r.midLawful lawful
  have reads := (site.reads lawful').1
  have held : walk? (definitionAt other).segments mid = some y := r.defined.others there
  have wrote := writeFollowed r.left
  by_cases inside : position mid (definitionAt other).segments <+: position mid source.segments
  · obtain ⟨q, placed⟩ := siteInside site inside
    rw [← placed] at wrote
    obtain ⟨y', inner, outer⟩ := wrote.split held
    have stood : walk? q y = some v := by
      have walked : walk? source.segments mid = some v := reads
      rwa [← placed, walk?_append, held] at walked
    refine ⟨y', outer.reads, .inr (.inner listed placed.symm ?_ stood site.open_ inner.write)⟩
    rintro rfl
    have deep := site.deep
    rw [← placed] at deep
    simp [definitionAt] at deep
  · have outside : ¬ position mid source.segments <+: position mid (definitionAt other).segments := by
      intro around
      have long := around.length_le
      have deep := site.deep
      rw [positionLength, positionLength] at long
      simp only [definitionAt, List.length_cons, List.length_nil] at long
      omega
    exact ⟨y, (wrote.apart ⟨outside, inside⟩).1.trans held, .inl rfl⟩

def Moment (names : List (String × String)) (doc : Value) (site : Site) (now : Value × Report) : Prop :=
  ∃ before after, sites doc = before ++ site :: after ∧
    now = before.foldl (applySite names) (doc, Report.none)

inductive Treated (names : List (String × String)) (site : Site) (v doc : Value) (report : Report) :
    Value × Report → Prop
  | stays : Treated names site v doc report (doc, report)
  | conflict {name held} (there : Tree.get? (definitionAt name) doc = some held)
      (other : held.same v = false) : Treated names site v doc report
        (doc, { report with conflicts := report.conflicts ++ [⟨site.location, name⟩] })
  | moved {name mid doc'} (relocated : Relocated site.location name v doc mid doc') :
      Treated names site v doc report
        (doc', { report with hoisted := report.hoisted ++ [⟨site.location, name⟩] })

section Moments
variable {names : List (String × String)} {doc : Value} {site : Site} {now : Value × Report}

theorem treated (names : List (String × String)) (report : Report) {v : Value}
    (lawful : doc.lawful = true) (found : IsSite doc site.location v) :
    Treated names site v doc report (applySite names (doc, report) site) := by
  have reads := (found.reads lawful).1
  have step := stepped names site doc report
  generalize applySite names (doc, report) site = after at step
  cases step with
  | gone | unnamed | blocked => exact .stays
  | conflict reads' asked there other =>
    cases reads.symm.trans reads'
    exact .conflict there other
  | moved reads' asked defined =>
    cases reads.symm.trans reads'
    exact .moved (relocatedBy lawful found defined)

/- What a run has kept of the definitions of `doc` when the sites in `rest` are still to come. -/
structure Intact (doc : Value) (rest : List Site) (now : Value × Report) : Prop where
  lawful : now.1.lawful = true
  remaining : Remaining now.1 rest
  kept : ∀ name y, Tree.get? (definitionAt name) doc = some y →
    ∃ y', Tree.get? (definitionAt name) now.1 = some y' ∧
      ReflTransGen (GivenWay now.2.hoisted (definitionAt name).segments) y y'

theorem Intact.start (lawful : doc.lawful = true) : Intact doc (sites doc) (doc, Report.none) :=
  ⟨lawful, .start lawful, fun _ y there => ⟨y, there, .refl⟩⟩

theorem GivenWay.more {moved : List Moved} (more : List Moved) {base : List String} {w w' : Value}
    (h : GivenWay moved base w w') : GivenWay (moved ++ more) base w w' := by
  obtain ⟨listed, placed, strictly, stood, schema, wrote⟩ := h
  exact .inner (List.mem_append_left _ listed) placed strictly stood schema wrote

theorem Intact.step {s : Site} {rest : List Site} (h : Intact doc (s :: rest) now) :
    Intact doc rest (applySite names now s) := by
  obtain ⟨now, report⟩ := now
  obtain ⟨lawful, remaining, kept⟩ := h
  simp only at lawful remaining kept
  obtain ⟨v, found, _⟩ := remaining.stand s List.mem_cons_self
  have treats := treated names report lawful found
  generalize applySite names (now, report) s = after at treats
  cases treats with
  | stays | conflict => exact ⟨lawful, remaining.tail, kept⟩
  | @moved moveName _ _ relocated =>
    refine ⟨relocated.lawful lawful, remaining.next relocated lawful, fun name y there => ?_⟩
    obtain ⟨y', there', way⟩ := kept name y there
    have grown := way.lift id fun _ _ => GivenWay.more [⟨s.location, moveName⟩]
    obtain ⟨y'', there'', same | given⟩ := relocated.entry lawful there' (List.mem_append_right _
      (List.mem_singleton.mpr rfl))
    · exact ⟨y'', there'', same ▸ grown⟩
    · exact ⟨y'', there'', grown.tail given⟩

theorem Moment.treated (moment : Moment names doc site now) (lawful : doc.lawful = true) :
    now.1.lawful = true ∧ ∃ v, IsSite now.1 site.location v ∧
      Treated names site v now.1 now.2 (applySite names now site) := by
  obtain ⟨before, after, all, rfl⟩ := moment
  have start : Intact doc (before ++ site :: after) (doc, Report.none) := all ▸ .start lawful
  have intact : Intact doc (site :: after) (before.foldl (applySite names) (doc, Report.none)) :=
    runInduction start fun _ _ _ h => h.step
  obtain ⟨v, found, _⟩ := intact.remaining.stand site List.mem_cons_self
  exact ⟨intact.lawful, v, found, Hoist.treated names _ intact.lawful found⟩

def Grows (names : List (String × String)) (list : Report → List Moved) : Prop :=
  ∀ now site, list (applySite names now site).2 = list now.2 ∨
    ∃ m, list (applySite names now site).2 = list now.2 ++ [m]

theorem reportGrows (names : List (String × String)) :
    Grows names Report.hoisted ∧ Grows names Report.conflicts := by
  have each : ∀ now site, ((applySite names now site).2.hoisted = now.2.hoisted ∨
      ∃ m, (applySite names now site).2.hoisted = now.2.hoisted ++ [m]) ∧
      ((applySite names now site).2.conflicts = now.2.conflicts ∨
      ∃ m, (applySite names now site).2.conflicts = now.2.conflicts ++ [m]) := by
    rintro ⟨doc, report⟩ site
    have step := stepped names site doc report
    generalize applySite names (doc, report) site = after at step
    cases step with
    | gone | unnamed | blocked => exact ⟨.inl rfl, .inl rfl⟩
    | moved => exact ⟨.inr ⟨_, rfl⟩, .inl rfl⟩
    | conflict => exact ⟨.inl rfl, .inr ⟨_, rfl⟩⟩
  exact ⟨fun now site => (each now site).1, fun now site => (each now site).2⟩

theorem addedAt {list : Report → List Moved} (grows : Grows names list) {m : Moved}
    {left : List Site} (mem : m ∈ list (left.foldl (applySite names) now).2)
    (new : m ∉ list now.2) : ∃ before site after, left = before ++ site :: after ∧
      list (applySite names (before.foldl (applySite names) now) site).2 =
        list (before.foldl (applySite names) now).2 ++ [m] := by
  induction left generalizing now with
  | nil => exact absurd mem new
  | cons s rest ih =>
    by_cases here : m ∈ list (applySite names now s).2
    · rcases grows now s with same | ⟨m', added⟩
      · exact absurd (same ▸ here) new
      · rw [added] at here
        rcases List.mem_append.mp here with old | last
        · exact absurd old new
        · cases List.mem_singleton.mp last
          exact ⟨[], s, rest, rfl, added⟩
    · obtain ⟨before, site, after, rfl, added⟩ := ih mem here
      exact ⟨s :: before, site, after, rfl, added⟩

theorem logged {list : Report → List Moved} (grows : Grows names list)
    (empty : list Report.none = []) {m : Moved} (mem : m ∈ list (hoist (.apply names) doc).2) :
    ∃ site now, Moment names doc site now ∧
      list (applySite names now site).2 = list now.2 ++ [m] := by
  obtain ⟨before, site, after, all, added⟩ := addedAt grows mem (by simp [empty])
  exact ⟨site, _, ⟨before, after, all, rfl⟩, added⟩

/- The value `v` that stood at the source is what the definition holds after the step, and the
reference that is left leads there, unless the name is empty. -/
structure HandedOver (before after : Value) (m : Moved) (v held : Value) : Prop where
  stood : Tree.get? m.source before = some v
  holds : Tree.get? (definitionAt m.name) after = some held
  equal : held.same v = true
  left : Tree.get? m.source after = some (leftBehind m.name)
  leads : m.name ≠ "" → ∃ r, resolve after (leftBehind m.name) = .ok r ∧ r.value = held ∧
    r.location? = some (definitionAt m.name)

structure LeftInPlace (before after : Value) (m : Moved) (v held : Value) : Prop where
  stands : Tree.get? m.source after = some v
  inline : entered .schema v = true
  taken : Tree.get? (definitionAt m.name) before = some held
  other : held.same v = false
  unchanged : after = before

theorem Relocated.handedOver {mid doc' v : Value} {source : Location} {name : String}
    (r : Relocated source name v doc mid doc') (lawful : doc.lawful = true) :
    ∃ held, HandedOver doc doc' ⟨source, name⟩ v held := by
  obtain ⟨reads, fits⟩ := r.site.reads lawful
  obtain ⟨held, there, same⟩ := r.defined.held fits
  have holds : Tree.get? (definitionAt name) doc' = some held :=
    ((writeFollowed r.left).apart (r.apart lawful)).1.trans there
  refine ⟨held, reads, holds, same, setReads r.left, fun named => ?_⟩
  have plain : refOf held = none :=
    (Value.sameRef (lawfulAt (r.midLawful lawful) there) fits same).trans r.site.object.2
  have spelled := Faithful.spelled named
  refine ⟨_, resolveReference spelled holds plain, rfl, ?_⟩
  simp [Resolved.location?, Location.pointerRoundTrip spelled]

theorem Moment.moves (moment : Moment names doc site now) (lawful : doc.lawful = true) {m : Moved}
    (added : (applySite names now site).2.hoisted = now.2.hoisted ++ [m]) :
    site.location = m.source ∧ ∃ v held, HandedOver now.1 (applySite names now site).1 m v held := by
  obtain ⟨lawful', v, found, treats⟩ := moment.treated lawful
  generalize applySite names now site = after at treats added
  cases treats with
  | stays | conflict => simp at added
  | moved relocated =>
    cases List.singleton_inj.mp (List.append_cancel_left added)
    exact ⟨rfl, v, relocated.handedOver lawful'⟩

theorem Moment.conflicts (moment : Moment names doc site now) (lawful : doc.lawful = true) {m : Moved}
    (added : (applySite names now site).2.conflicts = now.2.conflicts ++ [m]) :
    site.location = m.source ∧ ∃ v held, LeftInPlace now.1 (applySite names now site).1 m v held := by
  obtain ⟨lawful', v, found, treats⟩ := moment.treated lawful
  generalize applySite names now site = after at treats added
  cases treats with
  | stays | moved => simp at added
  | conflict there other =>
    cases List.singleton_inj.mp (List.append_cancel_left added)
    exact ⟨rfl, v, _, (found.reads lawful').1, found.open_, there, other, rfl⟩

end Moments

structure Lossless (names : List (String × String)) (doc : Value) : Prop where
  kept : ∀ name v, Tree.get? (definitionAt name) doc = some v →
    ∃ v', Tree.get? (definitionAt name) (hoist (.apply names) doc).1 = some v' ∧
      ReflTransGen (GivenWay (movedBy names doc) (definitionAt name).segments) v v'
  moved : ∀ m ∈ (hoist (.apply names) doc).2.hoisted, ∃ site now, Moment names doc site now ∧
    (applySite names now site).2.hoisted = now.2.hoisted ++ [m] ∧
    site.location = m.source ∧ ∃ v held, HandedOver now.1 (applySite names now site).1 m v held
  conflicts : ∀ m ∈ (hoist (.apply names) doc).2.conflicts, ∃ site now, Moment names doc site now ∧
    (applySite names now site).2.conflicts = now.2.conflicts ++ [m] ∧
    site.location = m.source ∧ ∃ v held, LeftInPlace now.1 (applySite names now site).1 m v held
  unmoved : (hoist (.apply names) doc).2.hoisted = [] → (hoist (.apply names) doc).1 = doc

theorem hoistLossless (names : List (String × String)) {doc : Value} (lawful : doc.lawful = true) :
    Lossless names doc where
  kept := (hoistInduction (Intact.start lawful) fun _ _ _ h => h.step).kept
  moved m mem := by
    obtain ⟨site, now, moment, added⟩ := logged (reportGrows names).1 rfl mem
    exact ⟨site, now, moment, added, moment.moves lawful added⟩
  conflicts m mem := by
    obtain ⟨site, now, moment, added⟩ := logged (reportGrows names).2 rfl mem
    exact ⟨site, now, moment, added, moment.conflicts lawful added⟩
  unmoved none := settledLeft (settledIff.mp none)

theorem boxLossless : boxDocument.lawful = true ∧ Lossless boxNames boxDocument ∧
    (hoist (.apply boxNames) boxDocument).2.hoisted.length = 2 ∧
    (hoist (.apply boxNames) boxDocument).2.conflicts.length = 1 := by
  have lawful : boxDocument.lawful = true := by decide
  exact ⟨lawful, hoistLossless boxNames lawful, by decide +kernel, by decide +kernel⟩

def looseThing : Value :=
  .obj [("type", .str "object"), ("properties", .obj [("id", .obj [("type", .str "string")])])]

def looseDocument : Value :=
  .obj [("components", .obj [("schemas", .obj [
    ("Box", .obj [("properties", .obj [("left", looseThing)])])])])]

/- Moved to the empty name the object is there, and the reference left behind reads as the definitions
as a whole. -/
theorem emptyNameUnread : looseDocument.lawful = true ∧
    let after := hoist (.apply [("Oid", "")]) looseDocument
    after.2.hoisted = [⟨⟨["components", "schemas", "Box", "properties", "left"]⟩, ""⟩] ∧
    (Tree.get? (definitionAt "") after.1).any (·.same looseThing) = true ∧
    (resolve after.1 (leftBehind "")).toOption.map Resolved.location? =
      some (some ⟨["components", "schemas"]⟩) ∧
    ¬ ∃ r, resolve after.1 (leftBehind "") = .ok r ∧ r.location? = some (definitionAt "") := by
  have leads : (resolve (hoist (.apply [("Oid", "")]) looseDocument).1 (leftBehind "")).toOption.map
      Resolved.location? = some (some ⟨["components", "schemas"]⟩) := by decide +kernel
  refine ⟨by decide, by decide +kernel, by decide +kernel, leads, ?_⟩
  rintro ⟨r, resolved, slot⟩
  simp [resolved, Except.toOption, slot, definitionAt] at leads

end ApiGraph.Hoist
