import ApiGraph.Pipeline
import ApiGraph.Proofs.Rankings
import ApiGraph.Proofs.Resolution
import Mathlib.Data.List.Basic
import Mathlib.Data.List.Nodup

/-! Path items of a prepared document. Uplifting leaves no reference among the entries of `paths`,
and what comes after it writes elsewhere or deep inside an entry, so that in the end every operation
stands under the pattern it is reached by. -/
namespace ApiGraph.PathItems
open Json ApiGraph.Tree

def Hold (P : String → Value → Prop) (doc : Value) : Prop :=
  ∀ entries pattern item, doc.membersAt? "paths" = some entries →
    entries.lookup pattern = some item → P pattern item

def Plain : Value → Prop := Hold fun _ item => refOf item = none

theorem Hold.imp {P Q : String → Value → Prop} {doc : Value} (h : Hold P doc)
    (each : ∀ pattern item, P pattern item → Q pattern item) : Hold Q doc :=
  fun entries pattern item here held => each pattern item (h entries pattern item here held)

theorem membersAtObject {members entries : Members} {key : String} :
    (Value.obj members).membersAt? key = some entries ↔ members.lookup key = some (.obj entries) := by
  constructor
  · exact Value.membersAtSome
  · intro held
    simp [Value.membersAt?, Value.get?, held, Value.members?]

theorem writeSource {v node node' : Value} {s : String} {r : List String}
    (h : write? v (s :: r) node = some node') :
    (∃ members w, opened node = .obj members ∧
      write? v r ((members.lookup s).getD (.obj [])) = some w ∧
      node' = .obj (Entries.put s w members)) ∨ ∃ items, node' = .arr items := by
  unfold write? at h
  split at h
  · rename_i members isObject
    obtain ⟨w, below, rfl⟩ := Option.map_eq_some_iff.mp h
    exact .inl ⟨members, w, isObject, below, rfl⟩
  · obtain ⟨i, _, h⟩ := Option.bind_eq_some_iff.mp h
    split at h
    · obtain ⟨w, _, rfl⟩ := Option.map_eq_some_iff.mp h
      exact .inr ⟨_, rfl⟩
    · split at h
      · cases h
        exact .inr ⟨_, rfl⟩
      · contradiction
  · contradiction

theorem openedHeld {node : Value} {members : Members} {key : String} {x : Value}
    (isObject : opened node = .obj members) (held : members.lookup key = some x) :
    node = .obj members := by
  cases node with
  | null =>
    cases isObject
    simp at held
  | _ => exact isObject

/- A value does not become a reference by a write further down than its members. -/
theorem writePlain {v node node' : Value} {k : String} {r : List String} (deep : r ≠ [])
    (plain : refOf node = none) (h : write? v (k :: r) node = some node') : refOf node' = none := by
  rcases writeSource h with ⟨members, w, isObject, below, rfl⟩ | ⟨items, rfl⟩
  · by_cases here : k = "$ref"
    · subst here
      obtain ⟨s, r', rfl⟩ := List.exists_cons_of_ne_nil deep
      rcases writeSource below with ⟨_, _, _, _, rfl⟩ | ⟨_, rfl⟩ <;>
        simp [refOf, Value.textAt?, Value.get?, Value.str?]
    · have other : (Entries.put k w members).lookup "$ref" = members.lookup "$ref" :=
        Entries.lookupPutOther (Ne.symm here) w members
      cases held : members.lookup "$ref" with
      | none => simp [refOf, Value.textAt?, Value.get?, other, held]
      | some x =>
        rw [openedHeld isObject held] at plain
        simpa [refOf, Value.textAt?, Value.get?, other] using plain
  · rfl

section Writes
variable {P Q : String → Value → Prop} {doc doc' v : Value}

theorem holdElsewhere {s : String} {r : List String} (other : s ≠ "paths") (h : Hold P doc)
    (written : set? ⟨s :: r⟩ v doc = some doc') : Hold P doc' := by
  intro entries pattern item here held
  rcases writeSource written with ⟨members, w, isObject, _, rfl⟩ | ⟨items, rfl⟩
  · rw [membersAtObject, Entries.lookupPutOther (Ne.symm other)] at here
    rw [openedHeld isObject here] at h
    exact h entries pattern item (membersAtObject.mpr here) held
  · simp [Value.membersAt?, Value.get?] at here

theorem holdWithin {p : String} {r : List String} (h : Hold P doc)
    (others : ∀ pattern item, pattern ≠ p → P pattern item → Q pattern item)
    (here : ∀ item item', (item = .obj [] ∨ P p item) → write? v r item = some item' → Q p item')
    (written : set? ⟨"paths" :: p :: r⟩ v doc = some doc') : Hold Q doc' := by
  intro entries pattern item found held
  rcases writeSource written with ⟨members, w, isObject, below, rfl⟩ | ⟨items, rfl⟩
  · rw [membersAtObject, Entries.lookupPut] at found
    cases found
    rcases writeSource below with ⟨entries', w', isObject', below', same⟩ | ⟨items, same⟩
    · cases same
      -- what the entries held before, they held in the document
      have before : ∀ key x, entries'.lookup key = some x → P key x := by
        intro key x there
        cases paths : members.lookup "paths" with
        | none =>
          rw [paths] at isObject'
          cases isObject'
          simp at there
        | some value =>
          have whole := openedHeld isObject paths
          rw [paths, Option.getD_some] at isObject'
          have value' := openedHeld isObject' there
          subst value' whole
          exact h entries' key x (membersAtObject.mpr paths) there
      by_cases at_ : pattern = p
      · subst at_
        rw [Entries.lookupPut] at held
        cases held
        refine here _ _ ?_ below'
        cases there : entries'.lookup pattern with
        | none => exact .inl rfl
        | some x => exact .inr (before pattern x there)
      · rw [Entries.lookupPutOther at_] at held
        exact others pattern item at_ (before pattern item held)
    · cases same
  · simp [Value.membersAt?, Value.get?] at found

theorem plainBelow {p k : String} {r : List String} (deep : r ≠ []) (h : Plain doc)
    (written : set? ⟨"paths" :: p :: k :: r⟩ v doc = some doc') : Plain doc' := by
  refine holdWithin h (fun _ _ _ plain => plain) (fun item item' before below => ?_) written
  refine writePlain deep ?_ below
  rcases before with rfl | plain
  · rfl
  · exact plain

theorem holdEntry {p : String} (h : Hold P doc)
    (others : ∀ pattern item, pattern ≠ p → P pattern item → Q pattern item) (here : Q p v) :
    Hold Q (Tree.set ⟨["paths", p]⟩ v doc) := by
  unfold Tree.set
  cases written : set? ⟨["paths", p]⟩ v doc with
  | some doc' =>
    refine holdWithin h others (fun item item' _ below => ?_) written
    cases below
    exact here
  | none =>
    intro entries pattern item found _
    cases doc with
    | obj members =>
      have held := membersAtObject.mp found
      simp [set?, write?, opened, held] at written
    | _ => simp [Value.membersAt?, Value.get?] at found

end Writes

section Uplift
open Resolve Uplift

def Pending (more : List String) : Value → Prop :=
  Hold fun pattern item => pattern ∈ more ∨ refOf item = none

theorem slotAt {doc item : Value} {entries : Members} {pattern : String}
    (here : doc.membersAt? "paths" = some entries) (held : entries.lookup pattern = some item) :
    Tree.get? (pathsRoot.child pattern) doc = some item :=
  childAt (childAt (l := .root) rfl (Value.membersAtSome here)) held

theorem upliftEntryPlain {pattern : String} {more : List String} {doc doc' : Value} {moved : Bool}
    (h : Pending (pattern :: more) doc) (run : upliftEntry pattern doc = .ok (doc', moved)) :
    Pending more doc' := by
  have rest : ∀ p (item : Value), p ≠ pattern → (p ∈ pattern :: more ∨ refOf item = none) →
      p ∈ more ∨ refOf item = none := by
    intro p item other cases
    simpa [other] using cases
  unfold upliftEntry at run
  simp only at run
  cases slot : Tree.get? (pathsRoot.child pattern) doc with
  | none =>
    simp only [slot] at run
    cases run
    intro entries p item here held
    refine rest p item ?_ (h entries p item here held)
    rintro rfl
    rw [slotAt here held] at slot
    contradiction
  | some entry =>
    simp only [slot] at run
    cases resolved : Resolve.resolve doc entry with
    | error e => simp [resolved] at run
    | ok r =>
      simp only [resolved] at run
      rcases resolvedSource resolved with ⟨plain, rfl⟩ | ⟨target, named, found⟩
      · simp only [Resolved.location?, Option.map_none] at run
        cases run
        intro entries p item here held
        by_cases same : p = pattern
        · subst same
          rw [slotAt here held] at slot
          cases slot
          exact .inr plain
        · exact rest p item same (h entries p item here held)
      · have plain := resolvedPlain resolved
        simp only [named] at run
        split at run
        · cases run
          rw [found]
          exact holdEntry h rest (.inr plain)
        · rename_i outside
          simp only [found] at run
          cases run
          refine holdEntry ?_ rest (.inr plain)
          unfold Tree.set
          cases written : set? target (reference (pathsRoot.child pattern).toPointer) doc with
          | none => exact h
          | some doc' =>
            obtain ⟨segments⟩ := target
            cases segments with
            | nil =>
              cases written
              intro entries p item here
              simp [reference, Value.membersAt?, Value.get?, List.lookup_cons] at here
            | cons s r =>
              refine holdElsewhere ?_ h written
              rintro rfl
              simp [Location.startsWith, pathsRoot] at outside

theorem upliftEntriesPlain {patterns : List String} {count n : Nat} {doc doc' : Value}
    (h : Pending patterns doc) (run : upliftEntries patterns count doc = (doc', .ok n)) :
    Plain doc' := by
  induction patterns generalizing count doc with
  | nil =>
    cases run
    exact h.imp fun _ _ either => either.resolve_left (by simp)
  | cons pattern more ih =>
    simp only [upliftEntries] at run
    cases one : upliftEntry pattern doc with
    | error e => simp [one] at run
    | ok result =>
      obtain ⟨next, moved⟩ := result
      simp only [one] at run
      exact ih (upliftEntryPlain h one) run

theorem upliftPlain {doc doc' : Value} {n : Nat} (run : uplift doc = (doc', .ok n)) :
    Plain doc' := by
  unfold uplift at run
  split at run
  · rename_i entries here
    refine upliftEntriesPlain ?_ run
    intro entries' pattern item found held
    cases here.symm.trans found
    exact .inl (List.mem_map_of_mem (Entries.mem_of_lookup held))
  · rename_i absent
    cases run
    intro entries _ _ found
    rw [absent] at found
    contradiction

end Uplift

section Hoist
open Hoist

def Below (l : Location) (sites : List Site) : Prop :=
  ∀ s ∈ sites, l.segments <+: s.location.segments

theorem Below.nil (l : Location) : Below l [] := by
  intro s mem
  cases mem

theorem Below.append {l : Location} {xs ys : List Site} (h : Below l xs) (h' : Below l ys) :
    Below l (xs ++ ys) :=
  fun s mem => (List.mem_append.mp mem).elim (h s) (h' s)

theorem Below.up {l : Location} {key : String} {xs : List Site} (h : Below (l.child key) xs) :
    Below l xs := fun s mem => (List.prefix_append _ _).trans (h s mem)

theorem itemSitesBelow {l : Location} {items : List Value}
    (each : ∀ x ∈ items, ∀ l, Below l (schemaSites l true x)) (index : Nat) :
    Below l (itemSites l index items) := by
  induction items generalizing index with
  | nil =>
    rw [itemSites]
    exact .nil l
  | cons x r ih =>
    rw [itemSites]
    exact .append (each x List.mem_cons_self _).up
      (ih (fun y mem => each y (List.mem_cons_of_mem _ mem)) (index + 1))

theorem memberSitesBelow {l : Location} {members : Members}
    (each : ∀ e ∈ members, ∀ l, Below l (schemaSites l true e.2)) :
    Below l (memberSites l members) := by
  induction members with
  | nil =>
    rw [memberSites]
    exact .nil l
  | cons e r ih =>
    obtain ⟨name, x⟩ := e
    rw [memberSites]
    exact .append (each _ List.mem_cons_self _).up
      (ih fun e mem => each e (List.mem_cons_of_mem _ mem))

theorem schemaSitesBelow (schema : Value) (l : Location) (movable : Bool) :
    Below l (schemaSites l movable schema) := by
  induction n : sizeOf schema using Nat.strongRecOn generalizing schema l movable with
  | ind n ih =>
    subst n
    have inner : ∀ {key : String} {x : Value}, schema.get? key = some x → ∀ l movable,
        Below l (schemaSites l movable x) :=
      fun held l movable => ih _ (Value.sizeOf_get? held) _ l movable rfl
    have listed : ∀ {key : String} {items : List Value}, schema.get? key = some (.arr items) →
        ∀ x ∈ items, ∀ l, Below l (schemaSites l true x) := by
      intro key items held x mem l
      have := List.sizeOf_lt_of_mem mem
      exact ih _ (Nat.lt_trans this (sizeOf_items held)) x l true rfl
    have named : ∀ {key : String} {members : Members}, schema.get? key = some (.obj members) →
        ∀ e ∈ members, ∀ l, Below l (schemaSites l true e.2) := by
      rintro key members held ⟨k, x⟩ mem l
      have := List.sizeOf_lt_of_mem mem
      simp only [Prod.mk.sizeOf_spec] at this
      exact ih _ (Nat.lt_trans (by omega) (sizeOf_members held)) x l true rfl
    unfold schemaSites
    split
    · exact .nil l
    · refine .append (.append (.append (.append (.append (.append (.append ?_ ?_) ?_) ?_) ?_) ?_) ?_) ?_
      · split
        · exact (itemSitesBelow (listed ‹_›) 0).up
        · exact .nil l
      · split
        · exact (itemSitesBelow (listed ‹_›) 0).up
        · exact .nil l
      · split
        · exact (itemSitesBelow (listed ‹_›) 0).up
        · exact .nil l
      · split
        · exact (inner ‹_› _ _).up
        · exact .nil l
      · split
        · exact (memberSitesBelow (named ‹_›)).up
        · exact .nil l
      · split
        · exact (inner ‹_› _ _).up
        · exact .nil l
      · split
        · exact (inner ‹_› _ _).up
        · exact .nil l
      · split
        · intro s mem
          cases List.mem_singleton.mp mem
          exact List.prefix_refl _
        · exact .nil l

theorem inlineSitesBelow (l : Location) (owner : Value) (key : String) :
    Below l (inlineSites l owner key) := by
  unfold inlineSites
  split
  · exact (schemaSitesBelow _ _ _).up
  · exact .nil l

theorem mediaSitesBelow {l : Location} {media : Members}
    (each : ∀ e ∈ media, ∀ l encodings, e.2.get? "encoding" = some (.obj encodings) →
      Below l (encodingSites l encodings)) : Below l (mediaSites l media) := by
  induction media with
  | nil =>
    rw [mediaSites]
    exact .nil l
  | cons e r ih =>
    obtain ⟨name, x⟩ := e
    unfold mediaSites
    refine .append (.append (inlineSitesBelow _ _ _).up ?_)
      (ih fun e mem => each e (List.mem_cons_of_mem _ mem))
    split
    · exact (each _ List.mem_cons_self _ _ ‹_›).up.up
    · exact .nil l

theorem headerSitesBelow {l : Location} {headers : Members}
    (each : ∀ e ∈ headers, ∀ l, Below l (parameterSites l e.2)) :
    Below l (headerSites l headers) := by
  induction headers with
  | nil =>
    rw [headerSites]
    exact .nil l
  | cons e r ih =>
    obtain ⟨name, x⟩ := e
    rw [headerSites]
    exact .append (each _ List.mem_cons_self _).up
      (ih fun e mem => each e (List.mem_cons_of_mem _ mem))

theorem encodingSitesBelow {l : Location} {encodings : Members}
    (each : ∀ e ∈ encodings, ∀ l headers, e.2.get? "headers" = some (.obj headers) →
      Below l (headerSites l headers)) : Below l (encodingSites l encodings) := by
  induction encodings with
  | nil =>
    rw [encodingSites]
    exact .nil l
  | cons e r ih =>
    obtain ⟨name, x⟩ := e
    unfold encodingSites
    refine .append ?_ (ih fun e mem => each e (List.mem_cons_of_mem _ mem))
    split
    · exact (each _ List.mem_cons_self _ _ ‹_›).up.up
    · exact .nil l

theorem sizeOfMember {members : Members} {e : String × Value} (mem : e ∈ members) :
    sizeOf e.2 < sizeOf members := by
  have := List.sizeOf_lt_of_mem mem
  obtain ⟨k, x⟩ := e
  simp only [Prod.mk.sizeOf_spec] at this ⊢
  omega

theorem parameterSitesBelow (param : Value) (l : Location) :
    Below l (parameterSites l param) ∧ Below l (contentSites l param) := by
  induction n : sizeOf param using Nat.strongRecOn generalizing param l with
  | ind n ih =>
    subst n
    have content : Below l (contentSites l param) := by
      unfold contentSites
      split
      · exact .nil l
      · split
        · rename_i media held
          refine (mediaSitesBelow fun e mem l encodings held' => ?_).up
          refine encodingSitesBelow fun e' mem' l headers held'' => ?_
          refine headerSitesBelow fun e'' mem'' l => ?_
          have h₁ := sizeOf_members held
          have h₂ := sizeOfMember mem
          have h₃ := sizeOf_members held'
          have h₄ := sizeOfMember mem'
          have h₅ := sizeOf_members held''
          have h₆ := sizeOfMember mem''
          exact (ih _ (by omega) e''.2 l rfl).1
        · exact .nil l
    refine ⟨?_, content⟩
    unfold parameterSites
    split
    · exact .nil l
    · exact .append (inlineSitesBelow _ _ _) content

theorem overMembersBelow {f : Location → Value → List Site} {l : Location} {owner : Value}
    {key : String} (each : ∀ l x, Below l (f l x)) : Below (l.child key) (overMembers f l owner key) := by
  intro s mem
  obtain ⟨⟨name, x⟩, _, inside⟩ := List.mem_flatMap.mp mem
  exact (each _ x).up s inside

theorem responseSitesBelow (l : Location) (response : Value) :
    Below l (responseSites l response) := by
  unfold responseSites
  split
  · exact .nil l
  · exact .append (overMembersBelow fun l x => (parameterSitesBelow x l).1).up
      (parameterSitesBelow response l).2

def Deep (l : Location) (sites : List Site) : Prop :=
  ∀ s ∈ sites, ∃ k r, r ≠ [] ∧ s.location.segments = l.segments ++ k :: r

theorem Below.deep {l : Location} {k k' : String} {sites : List Site}
    (h : Below ((l.child k).child k') sites) : Deep l sites := by
  intro s mem
  obtain ⟨r, same⟩ := h s mem
  exact ⟨k, k' :: r, by simp, by simp [← same, Location.child]⟩

theorem Deep.append {l : Location} {xs ys : List Site} (h : Deep l xs) (h' : Deep l ys) :
    Deep l (xs ++ ys) :=
  fun s mem => (List.mem_append.mp mem).elim (h s) (h' s)

theorem Deep.up {l : Location} {key : String} {xs : List Site} (h : Deep (l.child key) xs) :
    Deep l xs := by
  intro s mem
  obtain ⟨k, r, _, same⟩ := h s mem
  exact ⟨key, k :: r, by simp, by simp [same, Location.child]⟩

theorem parametersSitesDeep (l : Location) (owner : Value) :
    Deep l (parametersSites l owner) := by
  intro s mem
  obtain ⟨⟨param, i⟩, _, inside⟩ := List.mem_flatMap.mp mem
  exact (parameterSitesBelow param _).1.deep s inside

theorem operationSitesDeep (l : Location) (method : String) (operation : Value) :
    Deep l (operationSites (l.child method) operation) := by
  unfold operationSites
  refine .append (.append (parametersSitesDeep _ operation).up ?_) ?_
  · split
    · exact (parameterSitesBelow _ _).2.deep
    · intro s mem
      cases mem
  · exact (overMembersBelow responseSitesBelow).deep

theorem pathItemSitesDeep (l : Location) (item : Value) : Deep l (pathItemSites l item) := by
  unfold pathItemSites
  split
  · intro s mem
    cases mem
  · refine .append (parametersSitesDeep l item) fun s mem => ?_
    obtain ⟨method, _, inside⟩ := List.mem_flatMap.mp mem
    split at inside
    · exact operationSitesDeep l method _ s inside
    · cases inside

/- The places that can be written to without making a path item a reference. -/
def Clear (l : Location) : Prop :=
  (∃ s r, l.segments = s :: r ∧ s ≠ "paths") ∨
    ∃ p k r, r ≠ [] ∧ l.segments = "paths" :: p :: k :: r

theorem setPlain {l : Location} {doc doc' v : Value} (clear : Clear l) (h : Plain doc)
    (written : Tree.set? l v doc = some doc') : Plain doc' := by
  obtain ⟨segments⟩ := l
  rcases clear with ⟨s, r, rfl, other⟩ | ⟨p, k, r, deep, rfl⟩
  · exact holdElsewhere other h written
  · exact plainBelow deep h written

theorem setOrSamePlain {l : Location} {doc v : Value} (clear : Clear l) (h : Plain doc) :
    Plain (Tree.set l v doc) := by
  unfold Tree.set
  cases written : Tree.set? l v doc with
  | none => exact h
  | some doc' => exact setPlain clear h written

theorem componentClear {key : String} {xs : List Site}
    (h : Below ((⟨["components"]⟩ : Location).child key) xs) : ∀ s ∈ xs, Clear s.location := by
  intro s mem
  obtain ⟨r, same⟩ := h s mem
  exact .inl ⟨"components", key :: r, by simp [← same, Location.child], by decide⟩

theorem sitesClear (doc : Value) : ∀ s ∈ sites doc, Clear s.location := by
  intro s mem
  simp only [sites, List.mem_append] at mem
  obtain ((((h | h) | h) | h) | h) | h := mem
  · exact componentClear (overMembersBelow fun l x => schemaSitesBelow x l false) s h
  · exact componentClear (overMembersBelow responseSitesBelow) s h
  · exact componentClear (overMembersBelow fun l x => (parameterSitesBelow x l).1) s h
  · exact componentClear (overMembersBelow fun l x => (parameterSitesBelow x l).2) s h
  · exact componentClear (overMembersBelow fun l x => (parameterSitesBelow x l).1) s h
  · obtain ⟨⟨pattern, item⟩, _, inside⟩ := List.mem_flatMap.mp h
    obtain ⟨k, r, deep, same⟩ := pathItemSitesDeep _ item s inside
    exact .inr ⟨pattern, k, r, deep, by simp [same, Location.child, Location.root]⟩

theorem relocatePlain {source : Location} {name : String} {doc : Value} {report : Report}
    (clear : Clear source) (h : Plain doc) : Plain (relocate source name doc report).1 := by
  unfold relocate
  simp only
  split
  · exact h
  · split
    · split
      · exact setOrSamePlain clear h
      · exact h
    · split
      · rename_i written
        have first := setPlain (.inl ⟨"components", ["schemas", name], rfl, by decide⟩) h written
        exact setOrSamePlain clear first
      · exact h

theorem applySitePlain {names : List (String × String)} {acc : Value × Report} {site : Site}
    (clear : Clear site.location) (h : Plain acc.1) : Plain (applySite names acc site).1 := by
  unfold applySite
  split
  · exact h
  · split
    · exact relocatePlain clear h
    · exact h

theorem hoistPlain (mode : Mode) {doc : Value} (h : Plain doc) : Plain (hoist mode doc).1 := by
  cases mode with
  | report => exact h
  | apply names =>
    have clear := sitesClear doc
    unfold hoist
    suffices all : ∀ (found : List Site) (acc : Value × Report), (∀ s ∈ found, Clear s.location) →
        Plain acc.1 → Plain (found.foldl (applySite names) acc).1 from all _ _ clear h
    intro found
    induction found with
    | nil => exact fun _ _ plain => plain
    | cons site more ih =>
      intro acc clear plain
      exact ih _ (fun s mem => clear s (List.mem_cons_of_mem _ mem))
        (applySitePlain (clear site List.mem_cons_self) plain)

end Hoist

theorem titlesPlain {doc : Value} (h : Plain doc) : Plain (Titles.defaultTitles doc).1 := by
  unfold Titles.defaultTitles
  split
  · exact setOrSamePlain (.inl ⟨"components", ["schemas"], rfl, by decide⟩) h
  · exact h

theorem preparePlain {fragments : List Value} {o : Pipeline.Options} {p : Pipeline.Prepared}
    (h : Pipeline.prepare fragments o = .ok p) : Plain p.doc := by
  unfold Pipeline.prepare at h
  cases bundled : Bundle.internalize (Merge.mergeFragments fragments) o.externals with
  | error e => simp [bundled, bind, Except.bind] at h
  | ok doc =>
    simp only [bundled, bind, Except.bind] at h
    split at h
    · contradiction
    · rename_i uplifted n run
      cases h
      have plain := upliftPlain run
      refine titlesPlain ?_
      cases o.hoist with
      | none => exact plain
      | some mode => exact hoistPlain mode plain

section Operations
open Resolve Operation Declaration

def listed (doc : Value) : Members :=
  ((doc.membersAt? "paths").getD []).filter fun e => e.2.isObject

theorem listedAt {doc : Value} (lawful : doc.lawful = true) {e : String × Value}
    (mem : e ∈ listed doc) : ∃ entries, doc.membersAt? "paths" = some entries ∧
      (Entries.keys entries).Nodup ∧ entries.lookup e.1 = some e.2 := by
  obtain ⟨inside, _⟩ := List.mem_filter.mp mem
  cases here : doc.membersAt? "paths" with
  | none => simp [here] at inside
  | some entries =>
    rw [here] at inside
    have at_ : get? (Location.root.child "paths") doc = some (.obj entries) :=
      childAt rfl (Value.membersAtSome here)
    have once := (Value.lawfulObject.mp (lawfulAt lawful at_)).1
    exact ⟨entries, rfl, once, Entries.lookupOfMem once inside⟩

theorem mapMOk {α β ε : Type} {f : α → Except ε β} {h : α → β} {xs : List α}
    (each : ∀ x ∈ xs, f x = .ok (h x)) : xs.mapM f = .ok (xs.map h) := by
  induction xs with
  | nil => rfl
  | cons x xs ih =>
    rw [List.mapM_cons, each x List.mem_cons_self, ih fun y mem => each y (List.mem_cons_of_mem _ mem)]
    rfl

theorem pathItemsPlain {doc : Value} (lawful : doc.lawful = true) (plain : Plain doc) :
    pathItems doc = .ok ((listed doc).map fun e => (e.1, ⟨["paths", e.1]⟩)) := by
  refine mapMOk fun e mem => ?_
  obtain ⟨entries, here, _, held⟩ := listedAt lawful mem
  simp only [resolvePlain (plain entries e.1 e.2 here held)]
  rfl

def operationsOf (e : String × Value) : List Found :=
  (operationKeys e.2).filterMap fun verb =>
    (e.2.get? verb).map fun operation => ⟨e.1, verb, ⟨["paths", e.1]⟩, operation⟩

theorem operationsPlain {doc : Value} (lawful : doc.lawful = true) (plain : Plain doc) :
    operations doc = .ok ((listed doc).flatMap operationsOf) := by
  simp only [operations, pathItemsPlain lawful plain, bind, Except.bind, List.flatMap_map]
  congr 1
  refine List.flatMap_congr fun e mem => ?_
  obtain ⟨entries, here, _, held⟩ := listedAt lawful mem
  have slot : Tree.get? ⟨["paths", e.1]⟩ doc = some e.2 := slotAt here held
  simp only [slot]
  rfl

theorem itemOfFound {e : String × Value} {f : Found} (mem : f ∈ operationsOf e) :
    f.item = ⟨["paths", e.1]⟩ := by
  obtain ⟨verb, _, made⟩ := List.mem_filterMap.mp mem
  obtain ⟨operation, _, rfl⟩ := Option.map_eq_some_iff.mp made
  rfl

theorem operationsApart {doc : Value} (lawful : doc.lawful = true) :
    (((listed doc).flatMap operationsOf).map fun f => f.item.child f.verb).Nodup := by
  rw [List.map_flatMap, List.nodup_flatMap]
  constructor
  · rintro ⟨pattern, item⟩ mem
    obtain ⟨entries, here, _, held⟩ := listedAt lawful mem
    have keys : (operationKeys item).Nodup := by
      cases item with
      | obj members =>
        have once := (Value.lawfulObject.mp (lawfulAt lawful (slotAt here held))).1
        exact once.sublist (List.filter_sublist.map Prod.fst)
      | _ => exact List.nodup_nil
    have places := Entries.leftSublist
      (f := fun verb => (item.get? verb).map fun operation =>
        (⟨pattern, verb, ⟨["paths", pattern]⟩, operation⟩ : Found))
      (s := fun f => f.item.child f.verb)
      (t := fun verb => (⟨["paths", pattern, verb]⟩ : Location)) ?_ (operationKeys item)
    · refine List.Nodup.sublist places (keys.map fun verb verb' same => ?_)
      simpa using same
    · intro verb f made
      obtain ⟨_, _, rfl⟩ := Option.map_eq_some_iff.mp made
      rfl
  · cases here : doc.membersAt? "paths" with
    | none => simp [listed, here]
    | some entries =>
      have at_ : get? (Location.root.child "paths") doc = some (.obj entries) :=
        childAt rfl (Value.membersAtSome here)
      have once := (Value.lawfulObject.mp (lawfulAt lawful at_)).1
      have apart : (listed doc).Pairwise fun e e' => e.1 ≠ e'.1 := by
        simp only [listed, here, Option.getD_some]
        exact (List.pairwise_map.mp once).filter _
      refine apart.imp fun {e e'} other l mem mem' => ?_
      obtain ⟨f, inside, rfl⟩ := List.mem_map.mp mem
      obtain ⟨f', inside', same⟩ := List.mem_map.mp mem'
      rw [itemOfFound inside, itemOfFound inside'] at same
      simp only [Location.child, List.cons_append, List.nil_append, Location.mk.injEq,
        List.cons.injEq] at same
      exact other same.2.1.symm

theorem missingIdSource {found : List Found} {e : Location × String}
    (mem : e ∈ missingIds found) : ∃ f ∈ found, f.missingId = some e :=
  List.mem_filterMap.mp (Entries.memBound mem)

theorem writeIdsPlain {ids : List (Location × String)} {doc : Value}
    (clear : ∀ e ∈ ids, Clear e.1) (h : Plain doc) : Plain (writeIds ids doc).1 := by
  unfold writeIds
  refine List.foldlRecOn (motive := fun acc : Value × Nat => Plain acc.1) ids _ h
    fun acc plain e mem => ?_
  cases written : Tree.set? e.1 (.str e.2) acc.1 with
  | none => exact plain
  | some doc' => exact setPlain (clear e mem) plain written

theorem writeTagsPlain {names : List String} {doc : Value} (h : Plain doc) :
    Plain (writeTags names doc) := by
  unfold writeTags
  split
  · exact h
  · exact setOrSamePlain (.inl ⟨"tags", [], rfl, by decide⟩) h

theorem declarePlain {c : Config} {doc doc' : Value} {n : Nat} (lawful : doc.lawful = true)
    (h : Plain doc) (run : declare c doc = .ok (doc', n)) : Plain doc' := by
  simp only [declare, operationsPlain lawful h, bind, Except.bind] at run
  cases told : declaredTags doc with
  | error e => simp [told] at run
  | ok declared =>
    simp only [told, Except.ok.injEq, Prod.mk.injEq] at run
    obtain ⟨rfl, _⟩ := run
    refine writeTagsPlain (writeIdsPlain (fun e mem => ?_) h)
    obtain ⟨f, inside, made⟩ := missingIdSource mem
    obtain ⟨e', _, inside'⟩ := List.mem_flatMap.mp inside
    unfold Found.missingId at made
    split at made
    · contradiction
    · cases made
      refine .inr ⟨e'.1, f.verb, ["operationId"], by simp, ?_⟩
      simp [itemOfFound inside', Location.join]

end Operations
end ApiGraph.PathItems
