import ApiGraph.Proofs.Accounts
import ApiGraph.Proofs.Remaking
import ApiGraph.Proofs.Substitution

/-! Stating the names of a document a second time. The first time writes the ids that operations
lack and adds the tags that are missing; nothing else of the document changes. Tags are read before
the ids are written, so a tag that refers to an id that is written may name its group before and not
afterwards. The groups are declared afterwards just when no group depends on such a tag, and then
stating the names again changes nothing. -/
namespace ApiGraph.Tree
open Json

/- A value that may have grown: an object keeps its keys in order and gets new ones at its end, a list
stays as long as it is, and everything else stays what it is. -/
inductive Extends (new : String → Prop) : Value → Value → Prop
  | same (v) : Extends new v v
  | items {xs ys} (long : ys.length = xs.length) : Extends new (.arr xs) (.arr ys)
  | members {xs ys : Members} {added} (keys : Entries.keys ys = Entries.keys xs ++ added)
      (each : ∀ k ∈ added, new k) : Extends new (.obj xs) (.obj ys)

def Outside (places : List String → Prop) (v v' : Value) : Prop :=
  ∀ l x, (∀ s, places s → ¬ s <+: l) → walk? l v = some x →
    ∃ x', walk? l v' = some x' ∧ Extends (fun k => places (l ++ [k])) x x'

theorem Extends.trans {new : String → Prop} {v v' v'' : Value} (h : Extends new v v')
    (h' : Extends new v' v'') : Extends new v v'' := by
  cases h with
  | same => exact h'
  | items long =>
    cases h' with
    | same => exact .items long
    | items long' => exact .items (long'.trans long)
  | members keys each =>
    cases h' with
    | same => exact .members keys each
    | members keys' each' =>
      rw [keys, List.append_assoc] at keys'
      exact .members keys' fun k mem => (List.mem_append.mp mem).elim (each k) (each' k)

theorem Extends.mono {new new' : String → Prop} {v v' : Value} (h : Extends new v v')
    (each : ∀ k, new k → new' k) : Extends new' v v' := by
  cases h with
  | same => exact .same _
  | items long => exact .items long
  | members keys added => exact .members keys fun k mem => each k (added k mem)

theorem Extends.text {new : String → Prop} {v v' : Value} (h : Extends new v v') :
    v'.str? = v.str? := by
  cases h <;> rfl

namespace Outside
variable {places places' : List String → Prop} {v v' v'' : Value}

theorem refl (places : List String → Prop) (v : Value) : Outside places v v :=
  fun _ x _ held => ⟨x, held, .same x⟩

theorem trans (h : Outside places v v') (h' : Outside places v' v'') : Outside places v v'' := by
  intro l x free held
  obtain ⟨x', held', first⟩ := h l x free held
  obtain ⟨x'', held'', second⟩ := h' l x' free held'
  exact ⟨x'', held'', first.trans second⟩

theorem mono (h : Outside places v v') (each : ∀ l, places l → places' l) :
    Outside places' v v' := by
  intro l x free held
  obtain ⟨x', held', grown⟩ := h l x (fun s place => free s (each s place)) held
  exact ⟨x', held', grown.mono fun k => each _⟩

theorem put {members : Members} {k : String} (place : places [k]) (w : Value) :
    Outside places (.obj members) (.obj (Entries.put k w members)) := by
  intro l x free held
  cases l with
  | nil =>
    cases held
    refine ⟨_, rfl, ?_⟩
    rcases Entries.keysPut k w members with same | ⟨_, added⟩
    · exact .members (by rw [same, List.append_nil]) (List.forall_mem_nil _)
    · exact .members added fun j mem => by rwa [List.mem_singleton.mp mem]
  | cons s r =>
    have other : s ≠ k := by
      rintro rfl
      exact free _ place (by simp)
    refine ⟨x, ?_, .same x⟩
    rw [walk?, step?, Entries.lookupPutOther other]
    exact held

theorem member {members : Members} {k : String} {x x' : Value} (held : members.lookup k = some x)
    (h : Outside (fun l => places (k :: l)) x x') :
    Outside places (.obj members) (.obj (Entries.put k x' members)) := by
  intro l y free there
  cases l with
  | nil =>
    cases there
    refine ⟨_, rfl, .members ?_ (List.forall_mem_nil _)⟩
    rcases Entries.keysPut k x' members with same | ⟨fresh, _⟩
    · rw [same, List.append_nil]
    · exact absurd (List.mem_map_of_mem (Entries.mem_of_lookup held)) fresh
  | cons s r =>
    by_cases same : s = k
    · subst same
      simp only [walk?, step?, held, Option.bind_some] at there
      obtain ⟨y', reads, grown⟩ := h r y (fun q place inside =>
        free (s :: q) place (List.cons_prefix_cons.mpr ⟨rfl, inside⟩)) there
      exact ⟨y', by simpa [walk?, step?] using reads, grown⟩
    · refine ⟨y, ?_, .same y⟩
      rw [walk?, step?, Entries.lookupPutOther same]
      exact there

theorem textAt (h : Outside places v v') {l : List String} {x x' : Value} {k : String}
    (held : walk? l v = some x) (held' : walk? l v' = some x')
    (free : ∀ s, places s → ¬ s <+: l) (apart : ¬ places (l ++ [k])) :
    x'.textAt? k = x.textAt? k := by
  obtain ⟨_, again, grown⟩ := h l x free held
  cases held'.symm.trans again
  have deeper : ∀ s, places s → ¬ s <+: l ++ [k] := by
    intro s place inside
    rcases List.prefix_concat_iff.mp inside with rfl | shorter
    · exact apart place
    · exact free s place shorter
  cases grown with
  | same => rfl
  | items => rfl
  | @members xs ys added keys each =>
    simp only [Value.textAt?, Value.get?]
    cases there : xs.lookup k with
    | some y =>
      have below : walk? (l ++ [k]) v = some y := by
        rw [walk?_append, held]
        simpa [walk?, step?] using there
      obtain ⟨y', reads, grown⟩ := h _ y deeper below
      rw [walk?_append, held'] at reads
      have there' : ys.lookup k = some y' := by simpa [walk?, step?] using reads
      rw [there', Option.bind_some, Option.bind_some, grown.text]
    | none =>
      cases there' : ys.lookup k with
      | none => rfl
      | some y' =>
        have listed : k ∈ Entries.keys ys := List.mem_map_of_mem (Entries.mem_of_lookup there')
        rw [keys] at listed
        rcases List.mem_append.mp listed with old | new
        · obtain ⟨e, mem, rfl⟩ := List.mem_map.mp old
          rw [List.lookup_eq_none_iff] at there
          simpa using there e mem
        · exact absurd (each k new) apart

end Outside
end ApiGraph.Tree

namespace ApiGraph.Declaration

def Found.slot (f : Found) : Location := f.item.join [f.verb, "operationId"]

theorem missingIdIff {f : Found} {e : Location × String} :
    f.missingId = some e ↔ f.operation.textAt? "operationId" = none ∧ e = (f.slot, f.id) := by
  unfold Found.missingId
  cases f.operation.textAt? "operationId" with
  | some id => simp
  | none => simp [Found.slot, eq_comm]

theorem missingIdsOnce (found : List Found) : (Entries.keys (missingIds found)).Nodup := by
  rw [missingIds, Entries.keysBound]
  exact Preference.distinctOnce _

theorem missingIdListed {found : List Found} {f : Found} (mem : f ∈ found)
    (missing : f.operation.textAt? "operationId" = none) :
    f.slot ∈ Entries.keys (missingIds found) := by
  have listed : (f.slot, f.id) ∈ found.filterMap Found.missingId :=
    List.mem_filterMap.mpr ⟨f, mem, missingIdIff.mpr ⟨missing, rfl⟩⟩
  rw [missingIds, Entries.keysBound, Preference.memDistinct]
  exact List.mem_map.mpr ⟨_, listed, rfl⟩

end ApiGraph.Declaration

namespace ApiGraph.PathItems
open Json ApiGraph.Tree Declaration Operation

theorem slotSpelled {f : Found} (item : f.item = ⟨["paths", f.pattern]⟩) :
    f.slot.segments = ["paths", f.pattern, f.verb, "operationId"] := by
  simp [Found.slot, item, Location.join]

theorem slotWritten {doc : Value} {f : Found} (stands : Stands doc f) (v : Value) :
    ∃ doc', set? f.slot v doc = some doc' ∧ Outside (· = f.slot.segments) doc doc' := by
  have spelled := slotSpelled stands.item
  obtain ⟨item, ⟨entries, members, here, held, inside⟩, valid⟩ := stands
  obtain ⟨pattern, verb, place, operation⟩ := f
  simp only at item held inside valid spelled
  cases operation with
  | obj operation =>
    cases doc with
    | obj top =>
      have paths := membersAtObject.mp here
      refine ⟨.obj (Entries.put "paths" (.obj (Entries.put pattern (.obj (Entries.put verb (.obj
        (Entries.put "operationId" v operation)) members)) entries)) top), ?_, ?_⟩
      · simp [set?, spelled, write?, opened, paths, held, inside]
      · exact .member paths (.member held (.member inside (.put spelled.symm v)))
    | _ => simp [Value.membersAt?, Value.get?] at here
  | _ => simp [isOperation, Value.isObject] at valid

theorem Stated.found {found : List Found} {doc : Value} (h : Stated found doc) {f : Found}
    (mem : f ∈ found) : ∃ f', Stands doc f' ∧ Restates f f' ∧ f'.slot = f.slot ∧
      f.slot.segments = ["paths", f.pattern, f.verb, "operationId"] := by
  obtain ⟨f', inside, same⟩ := Build.counterpart h.restated mem
  have stands := (standsIff h.lawful).mp inside
  refine ⟨f', stands, same, by rw [Found.slot, Found.slot, same.item, same.verb], slotSpelled ?_⟩
  rw [← same.item, ← same.pattern]
  exact stands.item

structure Filled (found : List Found) (ids : List (Location × String)) (doc doc' : Value) : Prop where
  stated : Stated found doc'
  outside : Outside (fun l => ∃ e ∈ ids, l = e.1.segments) doc doc'
  given : ∀ e ∈ ids, Tree.get? e.1 doc' = some (.str e.2)
  others : ∀ k, k ≠ "paths" → doc'.get? k = doc.get? k

theorem writeIdsFilled {found : List Found} {ids : List (Location × String)} {doc : Value}
    (h : Stated found doc) (all : ids ⊆ missingIds found) (once : (Entries.keys ids).Nodup) :
    Filled found ids doc (writeIds ids doc).1 := by
  unfold writeIds
  generalize 0 = n
  induction ids generalizing doc n with
  | nil => exact ⟨h, .refl _ _, (fun e mem => nomatch mem), fun _ _ => rfl⟩
  | cons e r ih =>
    obtain ⟨here, later⟩ := List.cons_subset.mp all
    obtain ⟨fresh, others⟩ := List.nodup_cons.mp once
    obtain ⟨f, inside, made⟩ := missingIdSource here
    obtain ⟨f', stands, same, place, spelled⟩ := h.found inside
    obtain ⟨_, rfl⟩ := missingIdIff.mp made
    obtain ⟨mid, written, outside⟩ := slotWritten stands (.str f.id)
    rw [place] at written outside
    obtain ⟨stated, rest, given, kept⟩ := ih (h.step here written) later others (n + 1)
    simp only [List.foldl_cons, written]
    refine ⟨stated, ?_, fun e mem => ?_, fun k other => ?_⟩
    · refine (outside.mono fun l place => ⟨_, List.mem_cons_self, place⟩).trans (rest.mono ?_)
      rintro l ⟨e, mem, same⟩
      exact ⟨e, List.mem_cons_of_mem _ mem, same⟩
    · rcases List.mem_cons.mp mem with rfl | old
      · -- no slot is inside another one
        have apart : ∀ s, (∃ e ∈ r, s = e.1.segments) → ¬ s <+: f.slot.segments := by
          rintro s ⟨e, mem, rfl⟩ inside
          obtain ⟨g, mem', told⟩ := missingIdSource (later mem)
          obtain ⟨_, _, _, _, spelled'⟩ := h.found mem'
          obtain ⟨_, rfl⟩ := missingIdIff.mp told
          have equal := inside.eq_of_length (by simp only [spelled, spelled']; rfl)
          exact fresh (List.mem_map.mpr ⟨_, mem, congrArg Location.mk equal⟩)
        obtain ⟨x', held, grown⟩ := rest _ _ apart (setReads written)
        cases grown
        exact held
      · exact given e old
    · have wrote := writeFollowed written
      rw [spelled] at wrote
      exact (kept k other).trans (wrote.others other)

def tagsOf (doc : Value) : List Value := (doc.itemsAt? "tags").getD []

section Tags
open Resolve Meaning
variable {doc doc' : Value} {names : List String}

theorem declaredRun : declaredTags doc =
    ((tagsOf doc).mapM (resolve doc)).map fun tags => tags.filterMap fun r =>
      r.value.textAt? "name" := by
  rw [tagsOf, declaredTags]
  cases ((doc.itemsAt? "tags").getD []).mapM (resolve doc) <;> rfl

theorem declaredSome : (∃ names, declaredTags doc = .ok names) ↔
    ∀ tag ∈ tagsOf doc, ∃ r, resolve doc tag = .ok r := by
  rw [declaredRun]
  induction tagsOf doc with
  | nil => simp [pure, Except.pure, Except.map]
  | cons tag r ih =>
    rw [List.mapM_cons, List.forall_mem_cons, ← ih]
    cases resolve doc tag <;> cases r.mapM (resolve doc) <;>
      simp [bind, Except.bind, pure, Except.pure, Except.map]

theorem memDeclared (h : declaredTags doc = .ok names) {name : String} : name ∈ names ↔
    ∃ tag ∈ tagsOf doc, ∃ r, resolve doc tag = .ok r ∧ r.value.textAt? "name" = some name := by
  rw [declaredRun] at h
  generalize tagsOf doc = tags at h
  induction tags generalizing names with
  | nil =>
    cases h
    simp
  | cons tag r ih =>
    rw [List.mapM_cons] at h
    cases one : resolve doc tag with
    | error e => simp [one, bind, Except.bind, Except.map] at h
    | ok first =>
      cases more : r.mapM (resolve doc) with
      | error e => simp [one, more, bind, Except.bind, Except.map] at h
      | ok others =>
        simp only [one, more, bind, Except.bind, pure, Except.pure, Except.map,
          Except.ok.injEq] at h
        subst h
        rw [more] at ih
        simp only [List.mem_cons, exists_eq_or_imp, ← ih rfl, one, Except.ok.injEq,
          exists_eq_left', List.filterMap_cons]
        cases first.value.textAt? "name" <;> simp [eq_comm]

def Reads (doc doc' : Value) (l : List String) : Prop :=
  ∀ w, walk? l doc = some w →
    ∃ w', walk? l doc' = some w' ∧ refOf w' = refOf w ∧ w'.textAt? "name" = w.textAt? "name"

theorem Reads.trans {doc'' : Value} {l : List String} (h : Reads doc doc' l)
    (h' : Reads doc' doc'' l) : Reads doc doc'' l := by
  intro w held
  obtain ⟨w', held', ref, named⟩ := h w held
  obtain ⟨w'', held'', ref', named'⟩ := h' w' held'
  exact ⟨w'', held'', ref'.trans ref, named'.trans named⟩

theorem Reads.outside {places : List String → Prop} (h : Outside places doc doc') {l : List String}
    (free : ∀ s, places s → ¬ s <+: l) (ids : ∀ s, places s → ∃ r, s = r ++ ["operationId"]) :
    Reads doc doc' l := by
  intro w held
  obtain ⟨w', held', _⟩ := h l w free held
  have apart : ∀ k, k ≠ "operationId" → ¬ places (l ++ [k]) := by
    intro k other place
    obtain ⟨r, same⟩ := ids _ place
    exact other (List.append_inj_right' same rfl |> List.cons.inj |>.1)
  exact ⟨w', held', h.textAt held held' free (apart _ (by decide)),
    h.textAt held held' free (apart _ (by decide))⟩

def entry (name : String) : Value := .obj [("name", .str name)]

theorem writeTagsObject (top : Members) : writeTags names (.obj top) =
    if names.isEmpty then .obj top
    else .obj (Entries.put "tags" (.arr (tagsOf (.obj top) ++ names.map entry)) top) := by
  have at_ : Tree.get? tagsRoot (.obj top) = top.lookup "tags" := by
    simp [Tree.get?, tagsRoot, walk?, step?]
  have each : entry = fun name => .obj [("name", .str name)] := rfl
  simp only [writeTags, tagsOf, Value.itemsAt?, Value.get?, at_]
  split
  · rfl
  · cases held : top.lookup "tags" with
    | none => simp [Tree.set, set?, tagsRoot, write?, opened, each]
    | some v =>
      cases v <;> simp [Tree.set, set?, tagsRoot, write?, opened, each, Value.items?]

theorem writeTagsReads (held : (doc.itemsAt? "tags").isSome) (names : List String)
    (l : List String) : Reads doc (writeTags names doc) l := by
  obtain ⟨items, listed⟩ := Option.isSome_iff_exists.mp held
  cases doc with
  | obj top =>
    have at_ : top.lookup "tags" = some (.arr items) := Value.itemsAtSome listed
    rw [writeTagsObject]
    split
    · exact fun w found => ⟨w, found, rfl, rfl⟩
    · have kept : ∀ {k}, k ≠ "tags" → ∀ v, (Entries.put "tags" v top).lookup k = top.lookup k :=
        fun other v => Entries.lookupPutOther other v top
      rintro w found
      cases l with
      | nil =>
        cases found
        exact ⟨_, rfl, by simp [refOf, Value.textAt?, Value.get?, kept],
          by simp [Value.textAt?, Value.get?, kept]⟩
      | cons s r =>
        by_cases same : s = "tags"
        · subst same
          simp only [walk?, step?, at_, Option.bind_some] at found
          simp only [walk?, step?, Entries.lookupPut, Option.bind_some, tagsOf, listed,
            Option.getD_some]
          cases r with
          | nil =>
            cases found
            exact ⟨_, rfl, rfl, rfl⟩
          | cons k r =>
            simp only [walk?, step?, Option.bind_eq_some_iff] at found
            obtain ⟨x, ⟨i, named, there⟩, rest⟩ := found
            refine ⟨w, ?_, rfl, rfl⟩
            have small := (List.getElem?_eq_some_iff.mp there).1
            simp only [walk?, step?, named, Option.bind_some, List.getElem?_append_left small,
              there, rest]
        · refine ⟨w, ?_, rfl, rfl⟩
          rw [walk?, step?, kept same]
          exact found
  | _ => simp [Value.itemsAt?, Value.get?] at listed

def Slot (doc : Value) (l : List String) : Prop :=
  ∃ f, Stands doc f ∧ f.operation.textAt? "operationId" = none ∧ l = f.slot.segments

theorem Slot.same {s s' : List String} (h : Slot doc s) (h' : Slot doc s') (inside : s <+: s') :
    s = s' := by
  obtain ⟨f, stands, _, rfl⟩ := h
  obtain ⟨f', stands', _, rfl⟩ := h'
  exact inside.eq_of_length (by rw [slotSpelled stands.item, slotSpelled stands'.item]; rfl)

/- What a tag tells when the ids are written: the name behind its reference, unless that leads to an
id that is written, which is a text without a name. A tag whose reference leads into such an id
tells nothing. -/
inductive Tells (doc : Value) : Value → Option String → Prop
  | plain {v} (plain : refOf v = none) : Tells doc v (v.textAt? "name")
  | written {v p} (named : refOf v = some p) (slot : Slot doc (Location.ofPointer p).segments) :
      Tells doc v none
  | step {v p w n} (named : refOf v = some p)
      (apart : ∀ s, Slot doc s → ¬ s <+: (Location.ofPointer p).segments)
      (read : lookup doc p = .ok w) (rest : Tells doc w n) : Tells doc v n

section Tells
variable {v v' : Value} {p : String} {n : Option String}

theorem tellsPlain (plain : refOf v = none) (ref : refOf v' = none)
    (told : v'.textAt? "name" = v.textAt? "name") : Tells doc v n ↔
      ∃ b, (Reader.ofDocument doc').Leads ((), v') ((), b) ∧ b.textAt? "name" = n := by
  have settled : (Reader.ofDocument doc').Leads ((), v') ((), v') := .here ref
  constructor
  · intro tells
    cases tells with
    | plain => exact ⟨v', settled, told⟩
    | written named | step named => simp [plain] at named
  · rintro ⟨b, leads, rfl⟩
    cases leads.unique settled
    rw [told]
    exact .plain plain

theorem tellsWritten {s r : List String} {id : String} (named : refOf v = some p)
    (ref : refOf v' = some p) (hash : p.startsWith "#" = true) (slot : Slot doc s)
    (whole : s ++ r = (Location.ofPointer p).segments) (text : walk? s doc' = some (.str id)) :
    Tells doc v n ↔
      ∃ b, (Reader.ofDocument doc').Leads ((), v') ((), b) ∧ b.textAt? "name" = n := by
  constructor
  · intro tells
    cases tells with
    | plain plain => simp [plain] at named
    | @written _ q named' slot' =>
      cases named.symm.trans named'
      cases slot.same slot' ⟨r, whole⟩
      refine ⟨.str id, .step (x := ((), .str id)) ref ?_ (.here rfl), rfl⟩
      exact readDocument.mpr (lookupIff.mpr ⟨hash, text⟩)
    | step named' apart =>
      cases named.symm.trans named'
      exact absurd ⟨r, whole⟩ (apart s slot)
  · rintro ⟨b, leads, rfl⟩
    obtain ⟨⟨_, y⟩, read, rest⟩ := leads.next ref
    obtain ⟨_, there⟩ := lookupSource (readDocument.mp read)
    rw [Tree.get?, ← whole, walk?_append, text] at there
    cases r with
    | cons => simp [walk?, step?] at there
    | nil =>
      cases there
      cases rest with
      | here => exact .written named (by rw [← whole, List.append_nil]; exact slot)
      | step impossible => simp [refOf, Value.textAt?, Value.get?] at impossible

theorem tellsStep {w w' : Value} (named : refOf v = some p) (ref : refOf v' = some p)
    (apart : ∀ s, Slot doc s → ¬ s <+: (Location.ofPointer p).segments)
    (read : lookup doc p = .ok w) (read' : (Reader.ofDocument doc').read () p = some ((), w'))
    (next : Tells doc w n ↔
      ∃ b, (Reader.ofDocument doc').Leads ((), w') ((), b) ∧ b.textAt? "name" = n) :
    Tells doc v n ↔
      ∃ b, (Reader.ofDocument doc').Leads ((), v') ((), b) ∧ b.textAt? "name" = n := by
  constructor
  · intro tells
    cases tells with
    | plain plain => simp [plain] at named
    | written named' slot =>
      cases named.symm.trans named'
      exact absurd List.prefix_rfl (apart _ slot)
    | step named' _ again rest =>
      cases named.symm.trans named'
      cases read.symm.trans again
      obtain ⟨b, leads, same⟩ := next.mp rest
      exact ⟨b, .step ref read' leads, same⟩
  · rintro ⟨b, leads, same⟩
    obtain ⟨y, again, rest⟩ := leads.next ref
    cases read'.symm.trans again
    exact .step named apart read (next.mpr ⟨b, rest, same⟩)

end Tells

theorem tellsIff (reads : ∀ l, (∀ s, Slot doc s → ¬ s <+: l) → Reads doc doc' l)
    (given : ∀ s, Slot doc s → ∃ id, walk? s doc' = some (.str id)) {x a : Unit × Value}
    (leads : (Reader.ofDocument doc).Leads x a) {v' : Value} (ref : refOf v' = refOf x.2)
    (told : v'.textAt? "name" = x.2.textAt? "name") {n : Option String} :
    Tells doc x.2 n ↔
      ∃ b, (Reader.ofDocument doc').Leads ((), v') ((), b) ∧ b.textAt? "name" = n := by
  induction leads generalizing v' with
  | here plain => exact tellsPlain plain (ref.trans plain) told
  | @step k v p w a named read rest ih =>
    have found := readDocument.mp read
    obtain ⟨hash, there⟩ := lookupSource found
    by_cases into : ∃ s, Slot doc s ∧ s <+: (Location.ofPointer p).segments
    · obtain ⟨s, slot, r, whole⟩ := into
      obtain ⟨id, text⟩ := given s slot
      exact tellsWritten named (ref.trans named) hash slot whole text
    · have apart : ∀ s, Slot doc s → ¬ s <+: (Location.ofPointer p).segments :=
        fun s slot inside => into ⟨s, slot, inside⟩
      obtain ⟨w', there', ref', told'⟩ := reads _ apart w.2 there
      have read' : (Reader.ofDocument doc').read () p = some ((), w') :=
        readDocument.mpr (lookupIff.mpr ⟨hash, there'⟩)
      exact tellsStep named (ref.trans named) apart found read' (ih ref' told')

theorem tellsQuiet (quiet : ∀ p ∈ doc.pointers, p.startsWith "#" = true → ∀ s, Slot doc s →
    ¬ s <+: (Location.ofPointer p).segments) {x a : Unit × Value}
    (leads : (Reader.ofDocument doc).Leads x a) (inside : x.2.pointers ⊆ doc.pointers) :
    Tells doc x.2 (a.2.textAt? "name") := by
  induction leads with
  | here plain => exact .plain plain
  | step named read _ ih =>
    obtain ⟨hash, there⟩ := lookupSource (readDocument.mp read)
    exact .step named (quiet _ (inside (Value.refListed named)) hash) (readDocument.mp read)
      (ih (walkMeasures there).2)

theorem tellsResolved (reads : ∀ l, (∀ s, Slot doc s → ¬ s <+: l) → Reads doc doc' l)
    (given : ∀ s, Slot doc s → ∃ id, walk? s doc' = some (.str id)) {tag : Value} {r : Resolved}
    (resolved : resolve doc tag = .ok r) {n : Option String} :
    Tells doc tag n ↔ ∃ r', resolve doc' tag = .ok r' ∧ r'.value.textAt? "name" = n := by
  rw [tellsIff reads given (resolves.mp ⟨r, resolved, rfl⟩) rfl rfl]
  constructor
  · rintro ⟨b, leads, same⟩
    obtain ⟨r', resolved', rfl⟩ := resolves.mpr leads
    exact ⟨r', resolved', same⟩
  · rintro ⟨r', resolved', same⟩
    exact ⟨r'.value, resolves.mp ⟨r', resolved', rfl⟩, same⟩

end Tags

section Stating
open Resolve Build Meaning
variable {c : Config} {doc doc' : Value} {n : Nat} {found : List Found}

theorem memGroups {name : String} : name ∈ groups c found ↔
    ∃ f ∈ found, c.isOmitted f.id = false ∧ f.group = name := by
  rw [groups, Preference.memDistinct]
  simp [Found.group, and_assoc]

/- The names are stated: all that is left out apart, a group has a tag, is found by its name whatever
was built before, and stating the names again writes nothing. -/
structure Settled (c : Config) (doc : Value) (found : List Found) : Prop where
  declared : ∃ names, declaredTags doc = .ok names ∧
    ∀ f ∈ found, c.isOmitted f.id = false → f.group ∈ names
  sought : ∀ cx : Setting, cx.doc = doc → ∀ f ∈ found, c.isOmitted f.id = false →
    ∀ g, ∃ id g', apiNamed cx f.group g = .ok (id, g')
  again : declare c doc = .ok (doc, 0)

theorem findTagSome {cx : Setting} {name : String} {g : Graph} {tags : List (Value × Nat)}
    (each : ∀ e ∈ tags, ∃ r, resolve cx.doc e.1 = .ok r)
    (some_ : ∃ e ∈ tags, ∃ r, resolve cx.doc e.1 = .ok r ∧ r.value.textAt? "name" = some name) :
    ∃ l, findTag cx name tags g = .ok (some l, g) := by
  induction tags with
  | nil => simp at some_
  | cons e more ih =>
    obtain ⟨tag, i⟩ := e
    obtain ⟨⟨r, resolved⟩, others⟩ := List.forall_mem_cons.mp each
    simp only [findTag, runBind, runResolve]
    by_cases named : r.value.textAt? "name" = some name
    · exact ⟨_, r, g, ⟨resolved, rfl⟩, by rw [if_pos named, runPure]; exact ⟨rfl, rfl⟩⟩
    · obtain ⟨l, run⟩ := ih others (by
        obtain ⟨e, mem, r', resolved', named'⟩ := some_
        rcases List.mem_cons.mp mem with rfl | later
        · cases resolved.symm.trans resolved'
          exact absurd named' named
        · exact ⟨e, later, r', resolved', named'⟩)
      exact ⟨l, r, g, ⟨resolved, rfl⟩, by rw [if_neg named]; exact run⟩

theorem taggedOfDeclared {cx : Setting} {names : List String} {name : String}
    (declared : declaredTags cx.doc = .ok names) (mem : name ∈ names) :
    ∃ l, Tagged cx name l := by
  have each := declaredSome.mp ⟨names, declared⟩
  obtain ⟨tag, inside, r, resolved, named⟩ := (memDeclared declared).mp mem
  have listed : ∀ e ∈ (tagsOf cx.doc).zipIdx, e.1 ∈ tagsOf cx.doc := fun e mem =>
    List.fst_mem_of_mem_zipIdx mem
  obtain ⟨i, at_⟩ := List.getElem?_of_mem inside
  obtain ⟨l, run⟩ : ∃ l, findTag cx name (tagsOf cx.doc).zipIdx .empty = .ok (some l, .empty) :=
    findTagSome (fun e mem => each _ (listed e mem))
      ⟨(tag, i), List.mk_mem_zipIdx_iff_getElem?.mpr at_, r, resolved, named⟩
  exact ⟨l, _, _, run⟩

theorem settledOf (lawful : doc.lawful = true) (operations : operations doc = .ok found)
    (stated : ∀ f ∈ found, ∃ id, f.operation.textAt? "operationId" = some id) {names : List String}
    (declared : declaredTags doc = .ok names)
    (all : ∀ f ∈ found, c.isOmitted f.id = false → f.group ∈ names) : Settled c doc found where
  declared := ⟨names, declared, all⟩
  sought cx same f mem kept g := by
    subst same
    obtain ⟨l, tagged⟩ := taggedOfDeclared declared (all f mem kept)
    obtain ⟨id, g', run, _⟩ := apiNamedSucceeds tagged g trivial
    exact ⟨id, g', run⟩
  again := by
    have ids : missingIds found = [] := by
      have none : found.filterMap Found.missingId = [] := by
        refine List.filterMap_eq_nil_iff.mpr fun f mem => ?_
        obtain ⟨id, text⟩ := stated f mem
        simp [Found.missingId, text]
      rw [missingIds, none]
      rfl
    have tags : (groups c found).filter (fun name => !names.contains name) = [] := by
      refine List.filter_eq_nil_iff.mpr fun name mem => ?_
      obtain ⟨f, inside, kept, rfl⟩ := memGroups.mp mem
      simpa using all f inside kept
    simp only [declare, operations, declared, ids, tags, bind, Except.bind]
    rfl

/- The tags of a document tell the same names when the ids that it lacks are written: every one
still resolves, and no group depends on one that loses its name. -/
structure Told (c : Config) (doc : Value) : Prop where
  each : ∀ tag ∈ tagsOf doc, ∃ n, Tells doc tag n
  group : ∀ f, Stands doc f → c.isOmitted f.id = false →
    (∃ tag ∈ tagsOf doc, ∃ r, resolve doc tag = .ok r ∧ r.value.textAt? "name" = some f.group) →
      ∃ tag ∈ tagsOf doc, Tells doc tag (some f.group)

structure Declared (doc doc' : Value) (found : List Found) : Prop where
  operations : operations doc' = .ok found
  ids : ∀ f ∈ found, ∃ id, f.operation.textAt? "operationId" = some id
  outside : Outside (fun l => l = ["tags"] ∨ Slot doc l) doc doc'
  tags : doc'.get? "tags" = doc.get? "tags" ∨
    ∃ names : List String, doc'.get? "tags" = some (.arr (tagsOf doc ++ names.map entry))

theorem Stands.object {f : Found} (h : Stands doc f) : ∃ top, doc = .obj top := by
  obtain ⟨entries, _, here, _⟩ := h.member
  cases doc with
  | obj top => exact ⟨top, rfl⟩
  | _ => simp [Value.membersAt?, Value.get?] at here

theorem Stands.one {f f' : Found} (h : Stands doc f) (h' : Stands doc f')
    (same : f'.slot.segments = f.slot.segments) : f'.operation = f.operation := by
  rw [slotSpelled h.item, slotSpelled h'.item] at same
  simp only [List.cons.injEq, and_true, true_and] at same
  obtain ⟨entries, members, here, held, inside⟩ := h.member
  obtain ⟨entries', members', here', held', inside'⟩ := h'.member
  rw [same.1] at held'
  rw [same.2] at inside'
  cases here.symm.trans here'
  cases held.symm.trans held'
  exact Option.some.inj (inside'.symm.trans inside)

theorem Stands.reads {f : Found} (h : Stands doc f) :
    walk? ["paths", f.pattern, f.verb] doc = some f.operation := by
  obtain ⟨entries, members, here, held, inside⟩ := h.member
  obtain ⟨top, rfl⟩ := h.object
  have paths := membersAtObject.mp here
  simp [walk?, step?, paths, held, inside]

theorem memMissing {l : List String} (lawful : doc.lawful = true) :
    (∃ e ∈ missingIds ((listed doc).flatMap operationsOf), l = e.1.segments) ↔ Slot doc l := by
  constructor
  · rintro ⟨e, mem, rfl⟩
    obtain ⟨f, inside, made⟩ := missingIdSource mem
    obtain ⟨missing, rfl⟩ := missingIdIff.mp made
    exact ⟨f, (standsIff lawful).mp inside, missing, rfl⟩
  · rintro ⟨f, stands, missing, rfl⟩
    obtain ⟨e, mem, same⟩ := List.mem_map.mp
      (missingIdListed ((standsIff lawful).mpr stands) missing)
    exact ⟨e, mem, by rw [same]⟩

theorem writeTagsOf (top : Members) (names : List String) :
    tagsOf (writeTags names (.obj top)) = tagsOf (.obj top) ++ names.map entry := by
  rw [writeTagsObject]
  split
  · rename_i none
    simp [List.isEmpty_iff.mp none]
  · simp [tagsOf, Value.itemsAt?, Value.get?, Value.items?]

structure DeclareRun (c : Config) (doc mid doc' : Value) (known fresh : List String) : Prop where
  filled : Filled ((listed doc).flatMap operationsOf)
    (missingIds ((listed doc).flatMap operationsOf)) doc mid
  declared : declaredTags doc = .ok known
  missing : ∀ name, name ∈ fresh ↔ name ∉ known ∧
    ∃ f, Stands doc f ∧ c.isOmitted f.id = false ∧ f.group = name
  tags : doc' = writeTags fresh mid

theorem declareSource (lawful : doc.lawful = true) (plain : Plain doc)
    (run : declare c doc = .ok (doc', n)) : ∃ mid known fresh, DeclareRun c doc mid doc' known fresh := by
  simp only [declare, operationsPlain lawful plain, bind, Except.bind] at run
  cases told : declaredTags doc with
  | error e => simp [told] at run
  | ok known =>
    simp only [told, Except.ok.injEq, Prod.mk.injEq] at run
    have start : Stated ((listed doc).flatMap operationsOf) doc :=
      ⟨lawful, plain, List.forall₂_same.mpr fun f _ => .refl f⟩
    refine ⟨_, known, _, writeIdsFilled start (List.Subset.refl _) (missingIdsOnce _), told,
      fun name => ?_, run.1.symm⟩
    rw [List.mem_filter, memGroups, and_comm]
    simp only [standsIff lawful, List.contains_eq_mem, Bool.not_eq_true', decide_eq_false_iff_not]

namespace DeclareRun
variable {mid : Value} {known fresh : List String} (h : DeclareRun c doc mid doc' known fresh)
  (lawful : doc.lawful = true)
include h

theorem object (some_ : fresh ≠ []) : ∃ top, mid = .obj top := by
  obtain ⟨name, mem⟩ := List.exists_mem_of_ne_nil _ some_
  obtain ⟨_, f, stands, _⟩ := (h.missing name).mp mem
  obtain ⟨top, rfl⟩ := stands.object
  obtain ⟨x, held, grown⟩ := h.filled.outside [] _ (by
    rintro s ⟨e, mem, rfl⟩ inside
    obtain ⟨g, mem', made⟩ := missingIdSource mem
    obtain ⟨_, rfl⟩ := missingIdIff.mp made
    obtain ⟨_, _, _, _, spelled⟩ := h.filled.stated.found mem'
    simp [spelled] at inside) rfl
  cases held
  cases grown with
  | same => exact ⟨_, rfl⟩
  | members => exact ⟨_, rfl⟩

theorem tagsKept : doc'.get? "tags" = doc.get? "tags" ∨
    ∃ names : List String, doc'.get? "tags" = some (.arr (tagsOf doc ++ names.map entry)) := by
  have same : tagsOf mid = tagsOf doc := by simp [tagsOf, Value.itemsAt?, h.filled.others]
  by_cases none : fresh = []
  · rw [h.tags, none]
    exact .inl (h.filled.others _ (by decide))
  · obtain ⟨top, rfl⟩ := h.object none
    refine .inr ⟨fresh, ?_⟩
    rw [h.tags, writeTagsObject, if_neg (by simpa using none), ← same]
    simp [Value.get?]

theorem tagsOfAfter : tagsOf doc' = tagsOf doc ++ fresh.map entry := by
  have same : tagsOf mid = tagsOf doc := by simp [tagsOf, Value.itemsAt?, h.filled.others]
  by_cases none : fresh = []
  · rw [h.tags, none, ← same]
    simp [writeTags]
  · obtain ⟨top, rfl⟩ := h.object none
    rw [h.tags, writeTagsOf, same]

theorem beside : Outside (fun l => l = ["tags"]) mid doc' := by
  by_cases none : fresh = []
  · rw [h.tags, none]
    exact .refl _ _
  · obtain ⟨top, rfl⟩ := h.object none
    rw [h.tags, writeTagsObject]
    split
    · exact .refl _ _
    · refine .put ?_ _
      rfl

include lawful

theorem filledOutside : Outside (Slot doc) doc mid :=
  h.filled.outside.mono fun _ place => (memMissing lawful).mp place

theorem outside : Outside (fun l => l = ["tags"] ∨ Slot doc l) doc doc' :=
  ((h.filledOutside lawful).mono fun _ => .inr).trans (h.beside.mono fun _ => .inl)

theorem given {s : List String} (slot : Slot doc s) : ∃ id, walk? s doc' = some (.str id) := by
  obtain ⟨e, mem, rfl⟩ := (memMissing lawful).mpr slot
  obtain ⟨g, mem', made⟩ := missingIdSource mem
  obtain ⟨_, rfl⟩ := missingIdIff.mp made
  obtain ⟨_, _, _, _, spelled⟩ := h.filled.stated.found mem'
  obtain ⟨x, held, grown⟩ := h.beside g.slot.segments (.str g.id) (by
    rintro s rfl inside
    simp [spelled] at inside) (h.filled.given _ mem)
  cases grown
  exact ⟨_, held⟩

theorem reads {tag : Value} (mem : tag ∈ tagsOf doc) (l : List String)
    (free : ∀ s, Slot doc s → ¬ s <+: l) : Reads doc doc' l := by
  have ids : ∀ s, Slot doc s → ∃ r, s = r ++ ["operationId"] := by
    rintro s ⟨f, stands, _, rfl⟩
    exact ⟨["paths", f.pattern, f.verb], slotSpelled stands.item⟩
  refine (Reads.outside (h.filledOutside lawful) free ids).trans ?_
  rw [h.tags]
  refine writeTagsReads ?_ fresh l
  have same : mid.itemsAt? "tags" = doc.itemsAt? "tags" := by
    rw [Value.itemsAt?, h.filled.others _ (by decide), Value.itemsAt?]
  rw [same]
  cases listed : doc.itemsAt? "tags" with
  | none => simp [tagsOf, listed] at mem
  | some items => rfl

theorem operation {f' : Found} (mem : f' ∈ (listed doc').flatMap operationsOf) :
    ∃ f, Stands doc f ∧ Restates f f' ∧ Stands mid f' := by
  rw [h.tags, writeTagsListed] at mem
  obtain ⟨f, inside, same⟩ := Build.counterpart h.filled.stated.restated.flip mem
  exact ⟨f, (standsIff lawful).mp inside, same, (standsIff h.filled.stated.lawful).mp mem⟩

theorem operationAfter {f : Found} (stands : Stands doc f) :
    ∃ f' ∈ (listed doc').flatMap operationsOf, Restates f f' := by
  obtain ⟨f', inside, same⟩ :=
    Build.counterpart h.filled.stated.restated ((standsIff lawful).mpr stands)
  exact ⟨f', by rwa [h.tags, writeTagsListed], same⟩

theorem stated {f' : Found} (mem : f' ∈ (listed doc').flatMap operationsOf) :
    ∃ id, f'.operation.textAt? "operationId" = some id := by
  obtain ⟨f, stands, same, stands'⟩ := h.operation lawful mem
  have place : f'.slot = f.slot := by rw [Found.slot, Found.slot, same.item, same.verb]
  have reads' := stands'.reads
  rw [same.pattern, same.verb] at reads'
  cases text : f.operation.textAt? "operationId" with
  | none =>
    obtain ⟨e, listed, at_⟩ := (memMissing lawful).mpr ⟨f, stands, text, rfl⟩
    have given := h.filled.given e listed
    rw [Tree.get?, ← at_, slotSpelled stands.item,
      show ["paths", f.pattern, f.verb, "operationId"] = ["paths", f.pattern, f.verb] ++
        ["operationId"] from rfl, walk?_append, reads'] at given
    refine ⟨e.2, ?_⟩
    cases operation : f'.operation with
    | obj members =>
      have held : members.lookup "operationId" = some (.str e.2) := by
        simpa [operation, walk?, step?] using given
      simp [Value.textAt?, Value.get?, held, Value.str?]
    | arr items =>
      have word : index? "operationId" = none := by decide
      simp [operation, walk?, step?, word] at given
    | _ => simp [operation, walk?, step?] at given
  | some id =>
    refine ⟨id, text ▸ (h.filledOutside lawful).textAt stands.reads reads' ?_ ?_⟩
    · rintro s ⟨f'', stands'', _, rfl⟩ inside
      have short := inside.length_le
      simp [slotSpelled stands''.item] at short
    · rintro ⟨f'', stands'', missing, equal⟩
      have one := stands''.one stands ((slotSpelled stands.item).trans equal)
      rw [one, missing] at text
      contradiction

end DeclareRun

namespace DeclareRun
variable {mid : Value} {known fresh : List String} (h : DeclareRun c doc mid doc' known fresh)
  (lawful : doc.lawful = true)
include h lawful

theorem tells {tag : Value} (mem : tag ∈ tagsOf doc) (name : Option String) : Tells doc tag name ↔
    ∃ r', resolve doc' tag = .ok r' ∧ r'.value.textAt? "name" = name := by
  obtain ⟨r, resolved⟩ := declaredSome.mp ⟨known, h.declared⟩ tag mem
  exact tellsResolved (h.reads lawful mem) (fun s => h.given lawful) resolved

theorem settledIff (lawful' : doc'.lawful = true)
    (operations : operations doc' = .ok ((listed doc').flatMap operationsOf)) :
    Settled c doc' ((listed doc').flatMap operationsOf) ↔ Told c doc := by
  constructor
  · rintro ⟨⟨names, declared', all⟩, _, _⟩
    have resolved' := declaredSome.mp ⟨names, declared'⟩
    rw [h.tagsOfAfter] at resolved'
    refine ⟨fun tag mem => ?_, fun f stands kept named => ?_⟩
    · obtain ⟨r', again⟩ := resolved' tag (List.mem_append_left _ mem)
      exact ⟨_, (h.tells lawful mem _).mpr ⟨r', again, rfl⟩⟩
    · obtain ⟨f', inside, same⟩ := h.operationAfter lawful stands
      have group := all f' inside (same.id ▸ kept)
      rw [same.group, memDeclared declared', h.tagsOfAfter] at group
      obtain ⟨tag, mem, r', again, told⟩ := group
      rcases List.mem_append.mp mem with old | new
      · exact ⟨tag, old, (h.tells lawful old _).mpr ⟨r', again, told⟩⟩
      · -- a tag that is added names a group that none named before
        obtain ⟨name, added, rfl⟩ := List.mem_map.mp new
        have plain : refOf (entry name) = none := rfl
        rw [resolvePlain plain] at again
        cases again
        cases told
        exact absurd ((memDeclared h.declared).mpr named) ((h.missing _).mp added).1
  · intro told
    have still : ∃ names, declaredTags doc' = .ok names := by
      refine declaredSome.mpr fun tag mem => ?_
      rw [h.tagsOfAfter] at mem
      rcases List.mem_append.mp mem with old | new
      · obtain ⟨n, tell⟩ := told.each tag old
        obtain ⟨r', again, _⟩ := (h.tells lawful old n).mp tell
        exact ⟨r', again⟩
      · obtain ⟨name, _, rfl⟩ := List.mem_map.mp new
        exact ⟨_, resolvePlain rfl⟩
    obtain ⟨names, declared'⟩ := still
    refine settledOf lawful' operations (fun f mem => h.stated lawful mem) declared'
      fun f' mem kept => ?_
    obtain ⟨f, stands, same, _⟩ := h.operation lawful mem
    rw [same.group, memDeclared declared', h.tagsOfAfter]
    by_cases before : f.group ∈ known
    · obtain ⟨tag, old, tell⟩ := told.group f stands (same.id ▸ kept)
        ((memDeclared h.declared).mp before)
      obtain ⟨r', again, named⟩ := (h.tells lawful old _).mp tell
      exact ⟨tag, List.mem_append_left _ old, r', again, named⟩
    · have added := (h.missing _).mpr ⟨before, f, stands, same.id ▸ kept, rfl⟩
      exact ⟨entry f.group, List.mem_append_right _ (List.mem_map_of_mem added), _,
        resolvePlain rfl, rfl⟩

end DeclareRun

theorem toldQuiet {names : List String} (declared : declaredTags doc = .ok names)
    (quiet : ∀ p ∈ doc.pointers, p.startsWith "#" = true → ∀ s, Slot doc s →
      ¬ s <+: (Location.ofPointer p).segments) : Told c doc := by
  have all : ∀ tag ∈ tagsOf doc, ∀ r, resolve doc tag = .ok r →
      Tells doc tag (r.value.textAt? "name") := by
    intro tag mem r resolved
    refine tellsQuiet quiet (resolves.mp ⟨r, resolved, rfl⟩) ?_
    cases listed : doc.itemsAt? "tags" with
    | none => simp [tagsOf, listed] at mem
    | some items =>
      rw [tagsOf, listed, Option.getD_some] at mem
      have at_ : Tree.get? (Location.root.child "tags") doc = some (.arr items) :=
        childAt rfl (Value.itemsAtSome listed)
      exact List.Subset.trans (Value.pointersOfItem mem) (walkMeasures at_).2
  refine ⟨fun tag mem => ?_, fun f _ _ named => ?_⟩
  · obtain ⟨r, resolved⟩ := declaredSome.mp ⟨names, declared⟩ tag mem
    exact ⟨_, all tag mem r resolved⟩
  · obtain ⟨tag, mem, r, resolved, same⟩ := named
    exact ⟨tag, mem, same ▸ all tag mem r resolved⟩

/- Stating the names of a document, and doing so again. Every operation has an id afterwards and
nothing else changes but the tags, which only grow. The groups are declared, and nothing is left to
state, just when the tags tell the same names while the ids are written; they do when no reference
is to an id that an operation states otherwise than by a text, or into one. -/
theorem declareSettles (lawful : doc.lawful = true) (plain : Plain doc)
    (run : declare c doc = .ok (doc', n)) :
    ∃ found, Declared doc doc' found ∧ (Settled c doc' found ↔ Told c doc) ∧
      ((∀ p ∈ doc.pointers, p.startsWith "#" = true → ∀ s, Slot doc s →
        ¬ s <+: (Location.ofPointer p).segments) → Settled c doc' found) := by
  have lawful' := declareLawful lawful run
  obtain ⟨mid, known, fresh, source⟩ := declareSource lawful plain run
  have operations := operationsPlain lawful' (declarePlain lawful plain run)
  have declared : Declared doc doc' ((listed doc').flatMap operationsOf) :=
    ⟨operations, fun f mem => source.stated lawful mem, source.outside lawful, source.tagsKept⟩
  have settled := source.settledIff lawful lawful' operations
  exact ⟨_, declared, settled, fun quiet => settled.mpr (toldQuiet source.declared quiet)⟩

def namedDocument : Value :=
  .obj [("paths", .obj [("/notes", .obj [("get",
      .obj [("tags", .arr [.str "notes"]), ("responses", .obj [])])])]),
    ("tags", .arr [reference "#/x-tags/0"]), ("x-tags", .arr [entry "notes"])]

theorem namedPlain : Plain namedDocument := by
  intro entries pattern item here held
  cases here
  simp only [List.lookup_cons, List.lookup_nil] at held
  split at held
  · cases held
    rfl
  · contradiction

theorem namedSettled : namedDocument.lawful = true ∧ Plain namedDocument ∧
    ∃ doc' found, declare .default namedDocument = .ok (doc', 1) ∧
      Declared namedDocument doc' found ∧ Settled .default doc' found := by
  have facts : (declare .default namedDocument).toOption.map Prod.snd = some 1 := by decide +kernel
  have pointers : namedDocument.pointers = ["#/x-tags/0"] := by decide +kernel
  have place : Location.ofPointer "#/x-tags/0" = ⟨["x-tags", "0"]⟩ := by decide +kernel
  have lawful : namedDocument.lawful = true := by decide
  cases run : declare .default namedDocument with
  | error e => simp [run, Except.toOption] at facts
  | ok r =>
    obtain ⟨doc', n⟩ := r
    simp only [run, Except.toOption, Option.map_some, Option.some.injEq] at facts
    subst facts
    obtain ⟨found, declared, _, quiet⟩ := declareSettles lawful namedPlain run
    refine ⟨lawful, namedPlain, doc', found, rfl, declared, quiet fun p mem _ s slot inside => ?_⟩
    obtain ⟨f, stands, _, rfl⟩ := slot
    rw [pointers] at mem
    rw [List.mem_singleton.mp mem, place, slotSpelled stands.item] at inside
    simp [List.cons_prefix_cons] at inside

def borrowedDocument : Value :=
  .obj [("paths", .obj [("/a", .obj [("get", .obj [("tags", .arr [.str "x"]),
      ("operationId", entry "x"), ("responses", .obj [])])])]),
    ("tags", .arr [reference "#/paths/~1a/get/operationId"])]

theorem borrowedPlain : Plain borrowedDocument := by
  intro entries pattern item here held
  cases here
  simp only [List.lookup_cons, List.lookup_nil] at held
  split at held
  · cases held
    rfl
  · contradiction

/- The one group has no tag when the names are stated, and stating them again adds it. -/
theorem borrowedUnsettled : borrowedDocument.lawful = true ∧ Plain borrowedDocument ∧
    ∃ doc', declare .default borrowedDocument = .ok (doc', 1) ∧ declaredTags doc' = .ok [] ∧
      apiNamed ⟨doc', .default, [], []⟩ "x" .empty =
        .error (.resolve (.unresolvable "#/tags (no tag named `x`)")) ∧
      ∃ doc'', declare .default doc' = .ok (doc'', 1) := by
  have facts : (declare .default borrowedDocument).toOption.map (fun r =>
      (r.2, (declaredTags r.1).toOption, (declare .default r.1).toOption.map Prod.snd,
        match apiNamed ⟨r.1, .default, [], []⟩ "x" .empty with
        | .error e => some e
        | .ok _ => none)) =
      some (1, some [], some 1, some (.resolve (.unresolvable "#/tags (no tag named `x`)"))) := by
    decide +kernel
  refine ⟨by decide, borrowedPlain, ?_⟩
  cases run : declare .default borrowedDocument with
  | error e => simp [run, Except.toOption] at facts
  | ok r =>
    obtain ⟨doc', n⟩ := r
    simp only [run, Except.toOption, Option.map_some, Option.some.injEq, Prod.mk.injEq] at facts
    obtain ⟨rfl, tags, again, sought⟩ := facts
    refine ⟨doc', rfl, ?_, ?_, ?_⟩
    · cases told : declaredTags doc' <;> simp_all
    · cases tried : apiNamed ⟨doc', .default, [], []⟩ "x" .empty <;> simp_all
    · cases more : declare .default doc' with
      | error e => simp [more] at again
      | ok r =>
        obtain ⟨doc'', n⟩ := r
        simp only [more, Option.map_some, Option.some.injEq] at again
        exact ⟨doc'', by rw [again]⟩

end Stating
end ApiGraph.PathItems
