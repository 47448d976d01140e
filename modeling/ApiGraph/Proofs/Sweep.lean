import ApiGraph.Proofs.SiteEdits

/-! One run over the sites of a document. A step leaves the document as it is or moves one schema: it
is written to its definition, unless an equal one stands there, and a reference takes its place. The
sites that are still to come stay sites, and nothing but them is a new one. -/
namespace ApiGraph.Hoist
open Json ApiGraph.Tree Fingerprint

def called (names : List (String × String)) (v : Value) : Option String :=
  (fingerprint v).bind fun fp => nameFor names ⟨.root, fp⟩ v

theorem SameSite.called {y y' : Value} (same : SameSite y y') (names : List (String × String)) :
    called names y' = called names y := by
  simp only [Hoist.called, nameFor, same.fingerprint, same.preset]

def leftBehind (name : String) : Value := reference (definitionAt name).toPointer

/- A schema is defined: under its name an equal one stands already, or none does and it is added. -/
inductive Defined (name : String) (v doc : Value) : Value → Prop
  | reused {held} (there : Tree.get? (definitionAt name) doc = some held)
      (same : (held == v) = true) : Defined name v doc doc
  | added {mid} (absent : Tree.get? (definitionAt name) doc = none)
      (written : set? (definitionAt name) v doc = some mid) : Defined name v doc mid

inductive Stepped (names : List (String × String)) (site : Site) (doc : Value) (report : Report) :
    Value × Report → Prop
  | gone (absent : Tree.get? site.location doc = none) :
      Stepped names site doc report (doc, report)
  | unnamed {v} (reads : Tree.get? site.location doc = some v)
      (nameless : nameFor names site v = none) : Stepped names site doc report (doc, report)
  | moved {v name mid} (reads : Tree.get? site.location doc = some v)
      (asked : nameFor names site v = some name) (defined : Defined name v doc mid) :
      Stepped names site doc report (Tree.set site.location (leftBehind name) mid,
        { report with hoisted := report.hoisted ++ [⟨site.location, name⟩] })
  | conflict {v name held} (reads : Tree.get? site.location doc = some v)
      (asked : nameFor names site v = some name)
      (there : Tree.get? (definitionAt name) doc = some held) (other : (held == v) = false) :
      Stepped names site doc report
        (doc, { report with conflicts := report.conflicts ++ [⟨site.location, name⟩] })
  | blocked {v name} (reads : Tree.get? site.location doc = some v)
      (asked : nameFor names site v = some name)
      (absent : Tree.get? (definitionAt name) doc = none)
      (refused : set? (definitionAt name) v doc = none) : Stepped names site doc report (doc, report)

theorem stepped (names : List (String × String)) (site : Site) (doc : Value) (report : Report) :
    Stepped names site doc report (applySite names (doc, report) site) := by
  unfold applySite
  split
  · rename_i absent
    exact .gone absent
  · rename_i v reads
    split
    · rename_i name asked
      simp only [relocate]
      simp only at reads
      rw [reads]
      cases there : Tree.get? ⟨["components", "schemas", name]⟩ doc with
      | some held =>
        simp only
        split
        · rename_i same
          exact .moved reads asked (.reused there same)
        · rename_i other
          exact .conflict reads asked there (by simpa using other)
      | none =>
        simp only
        cases written : set? ⟨["components", "schemas", name]⟩ v doc with
        | some mid => exact .moved reads asked (.added there written)
        | none => exact .blocked reads asked there written
    · rename_i nameless
      exact .unnamed reads nameless

structure Relocated (source : Location) (name : String) (v doc mid doc' : Value) : Prop where
  site : IsSite doc source v
  defined : Defined name v doc mid
  left : set? source (leftBehind name) mid = some doc'

section Step
variable {names : List (String × String)} {doc mid doc' v : Value} {source : Location} {name : String}

theorem nameOfSite {site : Site} (told : fingerprint v = some site.fingerprint) :
    called names v = nameFor names site v := by
  simp only [called, told, Option.bind_some, nameFor]

theorem Defined.lawful (d : Defined name v doc mid) (fits : v.lawful = true)
    (lawful : doc.lawful = true) : mid.lawful = true := by
  cases d with
  | reused => exact lawful
  | added absent written => exact lawfulSet fits lawful written

theorem Defined.site (d : Defined name v doc mid) {l : Location} {y : Value}
    (held : IsSite doc l y) : IsSite mid l y := by
  cases d with
  | reused => exact held
  | added absent written => exact siteBeside absent written held

theorem relocatedBy (lawful : doc.lawful = true) (found : IsSite doc source v)
    (d : Defined name v doc mid) :
    Relocated source name v doc mid (Tree.set source (leftBehind name) mid) := by
  have there := ((d.site found).reads (d.lawful (found.reads lawful).2 lawful)).1
  obtain ⟨doc', written⟩ := writeOver (v := leftBehind name) there
  have done : set? source (leftBehind name) mid = some doc' := written
  exact ⟨found, d, by simp [Tree.set, done]⟩

namespace Relocated

theorem midLawful (r : Relocated source name v doc mid doc') (lawful : doc.lawful = true) :
    mid.lawful = true := r.defined.lawful (r.site.reads lawful).2 lawful

theorem midSite (r : Relocated source name v doc mid doc') {l : Location} {y : Value}
    (held : IsSite doc l y) : IsSite mid l y := r.defined.site held

theorem lawful (r : Relocated source name v doc mid doc') (lawful : doc.lawful = true) :
    doc'.lawful = true :=
  lawfulSet rfl (r.midLawful lawful) r.left

theorem reached (r : Relocated source name v doc mid doc') (lawful : doc.lawful = true)
    (unlisted : Unlisted doc) {l : Location} {y' : Value} (found : IsSite doc' l y') :
    ∃ before y, IsSite doc before y ∧ SameSite y y' ∧
      ((before = l ∧ ¬ source.segments <+: l.segments) ∨
        source.segments <+: before.segments ∧ before ≠ source) := by
  obtain ⟨apart, y, held, same⟩ :=
    siteLeft (r.midLawful lawful) (r.midSite r.site) r.left found
  cases r.defined with
  | reused => exact ⟨l, y, held, same, .inl ⟨rfl, apart⟩⟩
  | added absent written =>
    rcases siteAdded unlisted written held with old | ⟨rest, filled, _, inside⟩
    · exact ⟨l, y, old, same, .inl ⟨rfl, apart⟩⟩
    · refine ⟨source.join rest, y, ⟨r.site.reached.append inside, held.open_⟩, same,
        .inr ⟨List.prefix_append _ _, ?_⟩⟩
      intro equal
      have segments : source.segments ++ rest = source.segments := congrArg Location.segments equal
      exact filled (List.append_right_eq_self.mp segments)

theorem kept (r : Relocated source name v doc mid doc') (lawful : doc.lawful = true) {l : Location}
    {y : Value} (held : IsSite doc l y) (apart : ¬ source.segments <+: l.segments) :
    ∃ y', IsSite doc' l y' ∧ SameSite y y' :=
  siteKept (r.midLawful lawful) (r.midSite r.site) r.left (r.midSite held) apart

end Relocated
end Step

/- The sites still to come are sites of the document as it has become, inner ones first. -/
structure Remaining (doc : Value) (sites : List Site) : Prop where
  ordered : sites.Pairwise fun s s' => ¬ s.location.segments <+: s'.location.segments
  stand : ∀ s ∈ sites, ∃ y, IsSite doc s.location y ∧ fingerprint y = some s.fingerprint

namespace Remaining
variable {doc mid doc' v : Value} {s : Site} {rest : List Site} {name : String}

theorem start (lawful : doc.lawful = true) : Remaining doc (sites doc) :=
  ⟨sitesOrdered lawful, fun _ mem => memSites.mp mem⟩

theorem tail (h : Remaining doc (s :: rest)) : Remaining doc rest :=
  ⟨(List.pairwise_cons.mp h.ordered).2, fun t mem => h.stand t (List.mem_cons_of_mem _ mem)⟩

theorem next (h : Remaining doc (s :: rest)) (r : Relocated s.location name v doc mid doc')
    (lawful : doc.lawful = true) : Remaining doc' rest := by
  refine ⟨h.tail.ordered, fun t mem => ?_⟩
  obtain ⟨y, held, told⟩ := h.tail.stand t mem
  obtain ⟨y', held', same⟩ :=
    r.kept lawful held ((List.pairwise_cons.mp h.ordered).1 t mem)
  exact ⟨y', held', same.fingerprint.trans told⟩

end Remaining

/- What every step keeps holds after some of them, of the sites that are left then. -/
theorem runInduction {names : List (String × String)} {P : List Site → Value × Report → Prop}
    {before rest : List Site} {now : Value × Report} (start : P (before ++ rest) now)
    (step : ∀ s rest now, P (s :: rest) now → P rest (applySite names now s)) :
    P rest (before.foldl (applySite names) now) := by
  induction before generalizing now with
  | nil => exact start
  | cons s before ih => exact ih (step s (before ++ rest) now start)

theorem hoistInduction {names : List (String × String)} {doc : Value}
    {P : List Site → Value × Report → Prop} (start : P (sites doc) (doc, Report.none))
    (step : ∀ s rest now, P (s :: rest) now → P rest (applySite names now s)) :
    P [] (hoist (.apply names) doc) :=
  runInduction ((List.append_nil (sites doc)).symm ▸ start) step

def Clear (x : Option Value) : Prop := ∀ v, x = some v → v = .null ∨ v.isObject = true

structure Open (doc : Value) : Prop where
  whole : Clear (some doc)
  components : Clear (Tree.get? ⟨["components"]⟩ doc)
  schemas : Clear (Tree.get? ⟨["components", "schemas"]⟩ doc)

section Opens
variable {doc doc' v w x : Value} {k name : String} {r : List String}

theorem Open.unlisted (h : Open doc) : Unlisted doc := by
  intro items list
  rcases h.schemas _ list with null | object
  · cases null
  · simp [Value.isObject] at object

theorem stepWord (word : index? k = none) (v : Value) : step? v k = v.get? k := by
  cases v <;> simp [step?, Value.get?, word]

theorem writtenBelow (clear : v = .null ∨ v.isObject = true)
    (inner : ∃ y, write? w r (below v k) = some y) : ∃ y, write? w (k :: r) v = some y := by
  obtain ⟨y, written⟩ := inner
  cases v with
  | null =>
    have inside : write? w r (.obj []) = some y := written
    exact ⟨.obj [(k, y)], by simp [write?, opened, inside, Entries.put]⟩
  | obj members =>
    have inside : write? w r ((members.lookup k).getD (.obj [])) = some y := written
    exact ⟨.obj (Entries.put k y members), by simp [write?, opened, inside]⟩
  | _ => simp [Value.isObject] at clear

theorem clearBelow (clear : Clear (v.get? k)) : below v k = .null ∨ (below v k).isObject = true := by
  cases held : v.get? k with
  | none => exact .inr (by simp [below, held, Value.isObject])
  | some y => simpa [below, held] using clear y held

theorem wordsRead (doc : Value) : Tree.get? ⟨["components"]⟩ doc = doc.get? "components" ∧
    Tree.get? ⟨["components", "schemas"]⟩ doc =
      (doc.get? "components").bind fun x => x.get? "schemas" := by
  simp only [Tree.get?, walk?, stepWord (show index? "components" = none by decide),
    stepWord (show index? "schemas" = none by decide), Option.bind_fun_some, and_self]

theorem Open.free (h : Open doc) (name : String) (v : Value) :
    ∃ doc', set? (definitionAt name) v doc = some doc' := by
  have components := h.components
  have schemas := h.schemas
  rw [(wordsRead doc).1] at components
  rw [(wordsRead doc).2] at schemas
  refine writtenBelow (h.whole doc rfl) (writtenBelow (clearBelow components) ?_)
  refine writtenBelow (clearBelow ?_) ⟨v, rfl⟩
  cases held : doc.get? "components" with
  | none =>
    have empty : below doc "components" = .obj [] := by simp [below, held]
    rw [empty]
    rintro _ ⟨⟩
  | some x => simpa [below, held] using schemas

theorem shutHere (shut : ¬ (v = .null ∨ v.isObject = true)) (word : index? k = none) :
    walk? (k :: r) v = none ∧ write? w (k :: r) v = none := by
  cases v <;> simp_all [Value.isObject, walk?, step?, write?, opened]

theorem shutBelow (held : v.get? k = some x) (shut : walk? r x = none ∧ write? w r x = none) :
    walk? (k :: r) v = none ∧ write? w (k :: r) v = none := by
  cases v with
  | obj members =>
    have inside : members.lookup k = some x := held
    simp [walk?, step?, write?, opened, inside, shut]
  | _ => simp [Value.get?] at held

theorem openOrShut (unlisted : Unlisted doc) : Open doc ∨
    ∀ name v, Tree.get? (definitionAt name) doc = none ∧ set? (definitionAt name) v doc = none := by
  have words := wordsRead doc
  by_cases whole : Clear (some doc)
  · by_cases components : Clear (doc.get? "components")
    · by_cases schemas : Clear ((doc.get? "components").bind fun x => x.get? "schemas")
      · exact .inl ⟨whole, words.1 ▸ components, words.2 ▸ schemas⟩
      · obtain ⟨z, held, shut⟩ : ∃ z, (doc.get? "components").bind (fun x => x.get? "schemas") =
            some z ∧ ¬ (z = .null ∨ z.isObject = true) := by simpa [Clear] using schemas
        obtain ⟨y, outer, inner⟩ := Option.bind_eq_some_iff.mp held
        refine .inr fun name v => shutBelow outer (shutBelow inner ?_)
        cases z with
        | arr items => exact absurd (words.2.trans held) (unlisted items)
        | null => simp at shut
        | obj => simp [Value.isObject] at shut
        | _ => simp [walk?, step?, write?, opened]
    · obtain ⟨z, held, shut⟩ : ∃ z, doc.get? "components" = some z ∧
          ¬ (z = .null ∨ z.isObject = true) := by simpa [Clear] using components
      exact .inr fun name v => shutBelow held (shutHere shut (by decide))
  · exact .inr fun name v => shutHere (by simpa [Clear] using whole) (by decide)

theorem objectOf {v x : Value} {k : String} (held : v.get? k = some x) : v.isObject = true := by
  cases v <;> simp [Value.get?, Value.isObject] at held ⊢

theorem openAdded (h : Open doc) (written : set? (definitionAt name) v doc = some doc') :
    Open doc' := by
  obtain ⟨_, whole, _, part, _⟩ := addsOf h.unlisted (writeFollowed written)
  have words := wordsRead doc'
  refine ⟨?_, words.1 ▸ ?_, words.2 ▸ ?_⟩
  · rintro _ ⟨⟩
    exact .inr (objectOf whole)
  · rw [whole]
    rintro _ ⟨⟩
    exact .inr (objectOf part)
  · rw [whole, Option.bind_some, part]
    rintro _ ⟨⟩
    exact .inr rfl

theorem clearSwapped {old new : Value} (object : new.isObject = true) {x x' : Option Value}
    (clear : Clear x) (swapped : Option.Rel (Swapped old new) x x') : Clear x' := by
  rintro y' rfl
  cases swapped with
  | some same =>
    rename_i y
    rcases same with rfl | ⟨q, _, wrote⟩
    · exact clear _ rfl
    · cases wrote with
      | here => exact .inr object
      | member => exact .inr rfl
      | element => simpa [Value.isObject] using clear _ rfl
      | appended => simpa [Value.isObject] using clear _ rfl

theorem IsSite.outside {l : List String} {source : Location} (site : IsSite doc source v)
    (short : l.length < 4) : position doc source.segments <+: position doc l →
      position doc l = position doc source.segments := by
  intro inside
  have lengths := inside.length_le
  rw [positionLength, positionLength] at lengths
  have deep := site.deep
  omega

theorem openLeft {source : Location} (h : Open doc) (lawful : doc.lawful = true)
    (site : IsSite doc source v)
    (written : set? source (leftBehind name) doc = some doc') : Open doc' := by
  have reads := (site.reads lawful).1
  have through : ∀ l : List String, l.length < 4 → Clear (walk? l doc) → Clear (walk? l doc') :=
    fun l short clear => clearSwapped rfl clear
      ((writeFollowed written).beside reads (site.outside short)).1
  exact ⟨through [] (by simp) h.whole, through ["components"] (by simp) h.components,
    through ["components", "schemas"] (by simp) h.schemas⟩

theorem Relocated.opens {source : Location} {mid : Value} (r : Relocated source name v doc mid doc')
    (h : Open doc) (lawful : doc.lawful = true) : Open doc' := by
  have between : Open mid := by
    cases r.defined with
    | reused => exact h
    | added absent written => exact openAdded h written
  exact openLeft between (r.midLawful lawful) (r.midSite r.site) r.left

end Opens
end ApiGraph.Hoist
