import ApiGraph.Proofs.Matching
import ApiGraph.Proofs.SchemaWalk
import Mathlib.Data.List.Induction

/-! Keeping the first of every class. Of the schemas that a body or a response names one after
another, each is kept unless it matches one kept before, so what is kept holds one match for every
schema named, and it is the one that was named first. -/
namespace ApiGraph
variable {β : Type}

structure Picks (same : β → β → Bool) (xs kept : List β) : Prop where
  ordered : kept.Sublist xs
  apart : kept.Pairwise fun a b => same a b = false
  covered : ∀ x ∈ xs, ∃ a ∈ kept, same a x = true
  first : ∀ a ∈ kept, ∃ before after, xs = before ++ a :: after ∧ ∀ b ∈ before, same b a = false

namespace Picks
variable {same : β → β → Bool} {xs kept : List β} {x : β}

theorem nil : Picks same [] [] where
  ordered := .slnil
  apart := .nil
  covered _ mem := by cases mem
  first _ mem := by cases mem

theorem firstLater (h : Picks same xs kept) {a : β} (mem : a ∈ kept) :
    ∃ before after, xs ++ [x] = before ++ a :: after ∧ ∀ b ∈ before, same b a = false := by
  obtain ⟨before, after, split, apart⟩ := h.first a mem
  exact ⟨before, after ++ [x], by simp [split], apart⟩

theorem skip (h : Picks same xs kept) (known : kept.any (same · x) = true) :
    Picks same (xs ++ [x]) kept where
  ordered := h.ordered.trans (List.sublist_append_left xs [x])
  apart := h.apart
  covered y mem := by
    rcases List.mem_append.mp mem with old | new
    · exact h.covered y old
    · rw [List.mem_singleton.mp new]
      exact List.any_eq_true.mp known
  first _ mem := h.firstLater mem

theorem keep (h : Picks same xs kept) (classes : Equivalence fun a b => same a b = true)
    (new : kept.any (same · x) = false) : Picks same (xs ++ [x]) (kept ++ [x]) where
  ordered := h.ordered.append (List.Sublist.refl [x])
  apart := by
    refine List.pairwise_append.mpr ⟨h.apart, List.pairwise_singleton _ _, ?_⟩
    intro a mem b single
    rw [List.mem_singleton.mp single]
    simpa using List.any_eq_false.mp new a mem
  covered y mem := by
    rcases List.mem_append.mp mem with old | single
    · obtain ⟨a, inside, related⟩ := h.covered y old
      exact ⟨a, List.mem_append_left _ inside, related⟩
    · rw [List.mem_singleton.mp single]
      exact ⟨x, List.mem_append_right _ List.mem_cons_self, classes.refl x⟩
  first a mem := by
    rcases List.mem_append.mp mem with old | single
    · exact h.firstLater old
    · rw [List.mem_singleton.mp single]
      refine ⟨xs, [], rfl, fun b inside => ?_⟩
      -- an earlier match would have been kept, or one that matches both
      obtain ⟨a, kept', related⟩ := h.covered b inside
      by_contra matching
      have := List.any_eq_false.mp new a kept'
      exact this (classes.trans related (by simpa using matching))

theorem congr {same' : β → β → Bool} (h : Picks same xs kept)
    (agree : ∀ a ∈ xs, ∀ b ∈ xs, same' a b = same a b) : Picks same' xs kept where
  ordered := h.ordered
  apart := h.apart.imp_of_mem fun ha hb apart =>
    (agree _ (h.ordered.subset ha) _ (h.ordered.subset hb)).trans apart
  covered x mem := by
    obtain ⟨a, inside, related⟩ := h.covered x mem
    exact ⟨a, inside, (agree _ (h.ordered.subset inside) _ mem).trans related⟩
  first a mem := by
    obtain ⟨before, after, split, apart⟩ := h.first a mem
    refine ⟨before, after, split, fun b inside => ?_⟩
    exact (agree b (split ▸ List.mem_append_left _ inside) a (h.ordered.subset mem)).trans
      (apart b inside)

theorem oneMatch (h : Picks same xs kept) (classes : Equivalence fun a b => same a b = true)
    (mem : x ∈ xs) : kept.countP (same · x) = 1 := by
  obtain ⟨a, inside, related⟩ := h.covered x mem
  obtain ⟨before, after, split⟩ := List.append_of_mem inside
  have apart := h.apart
  rw [split, List.pairwise_append, List.pairwise_cons] at apart
  obtain ⟨_, ⟨later, _⟩, earlier⟩ := apart
  have noneEarlier : before.countP (same · x) = 0 := by
    refine List.countP_eq_zero.mpr fun b inside' matching => ?_
    have := earlier b inside' a List.mem_cons_self
    rw [classes.trans matching (classes.symm related)] at this
    contradiction
  have noneLater : after.countP (same · x) = 0 := by
    refine List.countP_eq_zero.mpr fun b inside' matching => ?_
    have := later b inside'
    rw [classes.trans related (classes.symm matching)] at this
    contradiction
  simp [split, List.countP_append, noneEarlier, noneLater, related]

end Picks
namespace Build
open Json Resolve ApiGraph.Graph

theorem schemasMatchKept {doc : Value} {g g' : Graph} (kept : g.schemas <+: g'.schemas)
    {a b : SchemaId} {s t : Schema} (ha : g.schema? a = some s) (hb : g.schema? b = some t) :
    g'.schemasMatch doc a b = g.schemasMatch doc a b := by
  have still : ∀ {id : SchemaId} {s : Schema}, g.schema? id = some s → g'.schema? id = some s := by
    intro id s found
    obtain ⟨more, eq⟩ := kept
    obtain ⟨inside, _⟩ := List.getElem?_eq_some_iff.mp found
    rw [schema?, ← eq, List.getElem?_append_left inside]
    exact found
  simp [schemasMatch, ha, hb, still ha, still hb]

def declaredSchema (content : Members) (mediaType : String) : Option Value :=
  (content.lookup mediaType).bind (·.get? "schema")

def schemaPlace (l : Location) (mediaType : String) : Location :=
  ((l.child "content").child mediaType).child "schema"

def named (found : String → Option SchemaId) (mediaTypes : List String) :
    List (String × SchemaId) :=
  mediaTypes.filterMap fun m => (found m).map (m, ·)

theorem memNamed {found : String → Option SchemaId} {mediaTypes : List String}
    {e : String × SchemaId} (mem : e ∈ named found mediaTypes) :
    e.1 ∈ mediaTypes ∧ found e.1 = some e.2 := by
  obtain ⟨m, inside, made⟩ := List.mem_filterMap.mp mem
  obtain ⟨id, held, rfl⟩ := Option.map_eq_some_iff.mp made
  exact ⟨inside, held⟩

def fileOne (cx : Setting) (g : Graph) (byMedia : List (String × SchemaId))
    (acc : List SchemaId × List (String × List SchemaId)) (mediaType : String) :
    List SchemaId × List (String × List SchemaId) :=
  match byMedia.lookup mediaType with
  | none => acc
  | some id =>
    if isNew cx g acc.1 id then
      (acc.1 ++ [id], Entries.put mediaType ((acc.2.lookup mediaType).getD [] ++ [id]) acc.2)
    else acc

theorem fileSchemasFold (cx : Setting) (g : Graph) (byMedia : List (String × SchemaId))
    (preferred : List String) :
    fileSchemas cx g byMedia preferred = (preferred.foldl (fileOne cx g byMedia) ([], [])).2 := rfl

theorem fileSchemasPicks {cx : Setting} (lawful : cx.doc.lawful = true) (g : Graph)
    (byMedia : List (String × SchemaId)) (preferred : List String) :
    ∃ kept, Picks (fun a b => g.schemasMatch cx.doc a.2 b.2)
        (named (byMedia.lookup ·) preferred) kept ∧
      fileSchemas cx g byMedia preferred = kept.map fun e => (e.1, [e.2]) := by
  have classes := schemasMatchClasses g lawful
  -- both halves of the accumulator are read off what is kept
  suffices all : ∃ kept, Picks (fun a b => g.schemasMatch cx.doc a.2 b.2)
      (named (byMedia.lookup ·) preferred) kept ∧
      preferred.foldl (fileOne cx g byMedia) ([], []) =
        (kept.map Prod.snd, kept.map fun e => (e.1, [e.2])) by
    obtain ⟨kept, picks, fold⟩ := all
    exact ⟨kept, picks, by rw [fileSchemasFold, fold]⟩
  induction preferred using List.reverseRecOn with
  | nil => exact ⟨[], .nil, rfl⟩
  | append_singleton before m ih =>
    obtain ⟨kept, picks, fold⟩ := ih
    rw [List.foldl_append, fold]
    cases held : byMedia.lookup m with
    | none =>
      exact ⟨kept, by simpa [named, held] using picks, by simp [fileOne, held]⟩
    | some id =>
      have longer : named (byMedia.lookup ·) (before ++ [m]) =
          named (byMedia.lookup ·) before ++ [(m, id)] := by simp [named, held]
      have anew : isNew cx g (kept.map Prod.snd) id =
          !kept.any (fun e => g.schemasMatch cx.doc e.2 id) := by
        simp only [isNew, List.any_map, Function.comp_def]
      rw [longer]
      cases known : kept.any (fun e => g.schemasMatch cx.doc e.2 id) with
      | true =>
        exact ⟨kept, picks.skip known, by simp [fileOne, held, anew, known]⟩
      | false =>
        have fresh : ∀ e ∈ kept, e.1 ≠ m := by
          rintro ⟨m', id'⟩ mem rfl
          have same := held.symm.trans (memNamed (picks.ordered.subset mem)).2
          cases same
          have := List.any_eq_false.mp known _ mem
          exact this (classes.refl id')
        refine ⟨kept ++ [(m, id)], picks.keep ?_ known, ?_⟩
        · exact ⟨fun _ => classes.refl _, classes.symm, classes.trans⟩
        · have fresh' : ∀ e ∈ kept.map (fun e => (e.1, [e.2])), e.1 ≠ m := by
            intro e mem
            obtain ⟨e', inside, rfl⟩ := List.mem_map.mp mem
            exact fresh e' inside
          simp [fileOne, held, anew, known, Entries.lookupFresh fresh', Entries.putFresh fresh']

theorem foundMirrors {doc : Value} {nodes : List Schema} {l : Location} {content : Members}
    {byMedia : List (String × Option SchemaId)} (once : (Entries.keys content).Nodup)
    (pairs : List.Forall₂ (fun e e' => e'.1 = e.1 ∧
      MirrorsOption doc nodes (schemaPlace l e.1) (e.2.get? "schema") e'.2) content byMedia)
    (m : String) :
    MirrorsOption doc nodes (schemaPlace l m) (declaredSchema content m)
      ((byMedia.filterMap fun e => e.2.map fun id => (e.1, id)).lookup m) := by
  induction pairs with
  | nil => trivial
  | @cons e e' content byMedia head _ ih =>
    obtain ⟨k, media⟩ := e
    obtain ⟨k', id⟩ := e'
    obtain ⟨rfl, mirrors⟩ := head
    obtain ⟨fresh, once'⟩ := List.nodup_cons.mp once
    by_cases here : m = k'
    · subst here
      have gone : declaredSchema content m = none := by
        have : content.lookup m = none := Entries.lookupFresh fun e mem same =>
          fresh (List.mem_map.mpr ⟨e, mem, same⟩)
        simp [declaredSchema, this]
      have rest := ih once'
      rw [gone] at rest
      cases id with
      | some id => simpa [declaredSchema] using mirrors
      | none =>
        cases found : (byMedia.filterMap fun e => e.2.map fun id => (e.1, id)).lookup m with
        | none => simpa [declaredSchema, found] using mirrors
        | some other => simp [found, MirrorsOption] at rest
    · have other : (m == k') = false := by simpa using here
      have rest := ih once'
      cases id with
      | some id => simpa [declaredSchema, List.lookup_cons, other] using rest
      | none => simpa [declaredSchema, List.lookup_cons, other] using rest

structure Files (cx : Setting) (g : Graph) (b : RequestBody) (content : Members) : Prop where
  ranked : b.preferred = Preference.mediaTypes cx.requestPatterns (Entries.keys content)
  schemas : ∃ found kept, (∀ m, MirrorsOption cx.doc g.schemas (schemaPlace b.location m)
      (declaredSchema content m) (found m)) ∧
    Picks (fun a b => g.schemasMatch cx.doc a.2 b.2) (named found b.preferred) kept ∧
    b.schemas = kept.map fun e => (e.1, [e.2])

def contentOf (v : Value) : Members := (v.membersAt? "content").getD []

def FiledBody (cx : Setting) (g : Graph) (b : RequestBody) : Prop :=
  ∃ v, Tree.get? b.location cx.doc = some v ∧ Files cx g b (contentOf v)

theorem mirroredNode {doc : Value} {nodes : List Schema} {place : Location} {v : Option Value}
    {id : SchemaId} (h : MirrorsOption doc nodes place v (some id)) :
    ∃ x s, v = some x ∧ StandsFor doc nodes x place id ∧ nodes[id.index]? = some s := by
  cases v with
  | none => contradiction
  | some x =>
    obtain ⟨r, s, resolved, found, placed⟩ := h
    exact ⟨x, s, rfl, ⟨r, s, resolved, found, placed⟩, found⟩

theorem FiledBody.mono {cx : Setting} {g g' : Graph} {b : RequestBody}
    (kept : g.schemas <+: g'.schemas) (h : FiledBody cx g b) : FiledBody cx g' b := by
  obtain ⟨v, at_, ranked, found, picked, mirrors, picks, filed⟩ := h
  refine ⟨v, at_, ranked, found, picked, fun m => (mirrors m).mono (prefixKeepsPlaces kept),
    picks.congr ?_, filed⟩
  intro a mem b mem'
  obtain ⟨_, s, _, _, there⟩ := mirroredNode ((memNamed mem).2 ▸ mirrors a.1)
  obtain ⟨_, t, _, _, there'⟩ := mirroredNode ((memNamed mem').2 ▸ mirrors b.1)
  exact schemasMatchKept kept there there'

/- The schemas that were kept of those that `demand` asks for, each at its place. -/
def Gathered (doc : Value) (g : Graph) (demand : Value → Location → Prop)
    (kept : List SchemaId) : Prop :=
  ∃ ids, Picks (g.schemasMatch doc) ids kept ∧
    (∀ id ∈ ids, ∃ v l, demand v l ∧ StandsFor doc g.schemas v l id) ∧
    ∀ v l, demand v l → ∃ id ∈ ids, StandsFor doc g.schemas v l id

namespace Gathered
variable {doc : Value} {g g' : Graph} {demand demand' : Value → Location → Prop}
  {kept : List SchemaId}

theorem nil : Gathered doc g (fun _ _ => False) [] := by
  refine ⟨[], .nil, ?_, fun _ _ => False.elim⟩
  intro _ mem
  cases mem

theorem congr (h : Gathered doc g demand kept) (same : ∀ v l, demand v l ↔ demand' v l) :
    Gathered doc g demand' kept := by
  obtain ⟨ids, picks, asked, met⟩ := h
  refine ⟨ids, picks, fun id mem => ?_, fun v l asks => met v l ((same v l).mpr asks)⟩
  obtain ⟨v, l, asks, stands⟩ := asked id mem
  exact ⟨v, l, (same v l).mp asks, stands⟩

theorem mono (grown : g.schemas <+: g'.schemas) (h : Gathered doc g demand kept) :
    Gathered doc g' demand kept := by
  obtain ⟨ids, picks, asked, met⟩ := h
  have keeps := prefixKeepsPlaces grown
  have there : ∀ id ∈ ids, ∃ s, g.schema? id = some s := by
    intro id mem
    obtain ⟨_, _, _, _, s, _, found, _⟩ := asked id mem
    exact ⟨s, found⟩
  refine ⟨ids, picks.congr ?_, fun id mem => ?_, fun v l asks => ?_⟩
  · intro a mem b mem'
    obtain ⟨s, found⟩ := there a mem
    obtain ⟨t, found'⟩ := there b mem'
    exact schemasMatchKept grown found found'
  · obtain ⟨v, l, asks, stands⟩ := asked id mem
    exact ⟨v, l, asks, stands.mono keeps⟩
  · obtain ⟨id, mem, stands⟩ := met v l asks
    exact ⟨id, mem, stands.mono keeps⟩

theorem add (lawful : doc.lawful = true) (h : Gathered doc g demand kept) {v : Value}
    {l : Location} {id : SchemaId} (stands : StandsFor doc g.schemas v l id) :
    Gathered doc g (fun w m => demand w m ∨ w = v ∧ m = l)
      (if kept.any (g.schemasMatch doc · id) then kept else kept ++ [id]) := by
  obtain ⟨ids, picks, asked, met⟩ := h
  have each : (∀ i ∈ ids ++ [id], ∃ w m, (demand w m ∨ w = v ∧ m = l) ∧
      StandsFor doc g.schemas w m i) ∧
      ∀ w m, (demand w m ∨ w = v ∧ m = l) → ∃ i ∈ ids ++ [id], StandsFor doc g.schemas w m i := by
    constructor
    · intro i mem
      rcases List.mem_append.mp mem with old | new
      · obtain ⟨w, m, asks, stands⟩ := asked i old
        exact ⟨w, m, .inl asks, stands⟩
      · rw [List.mem_singleton.mp new]
        exact ⟨v, l, .inr ⟨rfl, rfl⟩, stands⟩
    · rintro w m (asks | ⟨rfl, rfl⟩)
      · obtain ⟨i, mem, stands⟩ := met w m asks
        exact ⟨i, List.mem_append_left _ mem, stands⟩
      · exact ⟨id, List.mem_append_right _ List.mem_cons_self, stands⟩
  cases known : kept.any (g.schemasMatch doc · id) with
  | true => exact ⟨ids ++ [id], picks.skip known, each⟩
  | false => exact ⟨ids ++ [id], picks.keep (schemasMatchClasses g lawful) known, each⟩

end Gathered
end Build
end ApiGraph
