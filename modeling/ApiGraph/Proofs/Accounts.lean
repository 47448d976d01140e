import ApiGraph.Proofs.Groups
import ApiGraph.Proofs.Writes

/-! Every operation of a prepared document is accounted for: it is left out, it becomes a method
under its group, it is reported, or it gives way to an earlier operation of its group that has its
name. The names are stated in the document before the walk begins, so first the operations are
followed through that. -/
namespace ApiGraph.Declaration
open Json Operation Resolve

def Found.place (f : Found) : Location := f.item.child f.verb

def Found.group (f : Found) : String := apiName f.operation f.pattern

structure Restates (f f' : Found) : Prop where
  pattern : f'.pattern = f.pattern
  verb : f'.verb = f.verb
  item : f'.item = f.item
  id : f'.id = f.id
  group : f'.group = f.group

namespace Restates

theorem refl (f : Found) : Restates f f := ⟨rfl, rfl, rfl, rfl, rfl⟩

theorem trans {f f' f'' : Found} (h : Restates f f') (h' : Restates f' f'') : Restates f f'' :=
  ⟨h'.pattern.trans h.pattern, h'.verb.trans h.verb, h'.item.trans h.item, h'.id.trans h.id,
    h'.group.trans h.group⟩

theorem place {f f' : Found} (h : Restates f f') : f'.place = f.place := by
  rw [Found.place, Found.place, h.item, h.verb]

theorem ofId {pattern verb : String} {item : Location} {members : Members} :
    Restates ⟨pattern, verb, item, .obj members⟩ ⟨pattern, verb, item, .obj (Entries.put "operationId"
      (.str (operationId (.obj members) verb pattern)) members)⟩ where
  pattern := rfl
  verb := rfl
  item := rfl
  id := by simp [Found.id, operationId, Value.textAt?, Value.get?, Value.str?]
  group := by
    have other : ∀ key, key ≠ "operationId" → ∀ v, (Value.obj (Entries.put "operationId" v
        members)).get? key = (Value.obj members).get? key :=
      fun key ne v => Entries.lookupPutOther ne v members
    simp [Found.group, apiName, Value.itemsAt?, Value.textAt?, other]

end Restates

end ApiGraph.Declaration

namespace ApiGraph.PathItems
open Json ApiGraph.Tree Declaration Operation

structure Stands (doc : Value) (f : Found) : Prop where
  item : f.item = ⟨["paths", f.pattern]⟩
  member : ∃ entries members, doc.membersAt? "paths" = some entries ∧
    entries.lookup f.pattern = some (.obj members) ∧ members.lookup f.verb = some f.operation
  valid : isOperation f.verb f.operation = true

theorem operationsOfMembers {pattern : String} {members : Members}
    (once : (Entries.keys members).Nodup) : operationsOf (pattern, .obj members) =
      (members.filter fun e => isOperation e.1 e.2).map fun e =>
        ⟨pattern, e.1, ⟨["paths", pattern]⟩, e.2⟩ := by
  simp only [operationsOf, operationKeys, Value.members?, Option.getD_some, List.filterMap_map]
  rw [← List.filterMap_eq_map]
  refine List.filterMap_congr fun e mem => ?_
  have held := Entries.lookupOfMem once (List.mem_filter.mp mem).1
  simp [Value.get?, held]

theorem operationsOfListed {doc : Value} (lawful : doc.lawful = true) {pattern : String}
    {item : Value} (mem : (pattern, item) ∈ listed doc) : ∃ entries members,
      item = .obj members ∧ doc.membersAt? "paths" = some entries ∧
      entries.lookup pattern = some (.obj members) ∧ (Entries.keys members).Nodup := by
  obtain ⟨entries, here, _, held⟩ := listedAt lawful mem
  have isObject := (List.mem_filter.mp mem).2
  cases item with
  | obj members =>
    have once := (Value.lawfulObject.mp (lawfulAt lawful (slotAt here held))).1
    exact ⟨entries, members, rfl, here, held, once⟩
  | _ => simp [Value.isObject] at isObject

theorem standsIff {doc : Value} (lawful : doc.lawful = true) {f : Found} :
    f ∈ (listed doc).flatMap operationsOf ↔ Stands doc f := by
  constructor
  · intro mem
    obtain ⟨⟨pattern, item⟩, inside, made⟩ := List.mem_flatMap.mp mem
    obtain ⟨entries, members, rfl, here, held, once⟩ := operationsOfListed lawful inside
    rw [operationsOfMembers once] at made
    obtain ⟨e, kept, rfl⟩ := List.mem_map.mp made
    obtain ⟨mem', valid⟩ := List.mem_filter.mp kept
    exact ⟨rfl, ⟨entries, members, here, held, Entries.lookupOfMem once mem'⟩, valid⟩
  · rintro ⟨item, ⟨entries, members, here, held, inside⟩, valid⟩
    have mem : (f.pattern, .obj members) ∈ listed doc := by
      simp [listed, here, Entries.mem_of_lookup held, Value.isObject]
    refine List.mem_flatMap.mpr ⟨_, mem, ?_⟩
    obtain ⟨_, _, same, _, _, once⟩ := operationsOfListed lawful mem
    cases same
    rw [operationsOfMembers once]
    refine List.mem_map.mpr ⟨(f.verb, f.operation), ?_, ?_⟩
    · exact List.mem_filter.mpr ⟨Entries.mem_of_lookup inside, valid⟩
    · obtain ⟨pattern, verb, place, operation⟩ := f
      simp only at item
      rw [item]

theorem putEach {S : String × Value → String × Value → Prop} (refl : ∀ e, S e e) {k : String}
    {x w : Value} {es : Members} (held : es.lookup k = some x) (changed : S (k, x) (k, w)) :
    List.Forall₂ S es (Entries.put k w es) := by
  induction es with
  | nil => simp at held
  | cons e r ih =>
    obtain ⟨k', y⟩ := e
    by_cases here : k' == k
    · cases eq_of_beq here
      simp only [List.lookup_cons, beq_self_eq_true, Option.some.injEq] at held
      subst held
      simp only [Entries.put, beq_self_eq_true, if_true]
      exact .cons changed (List.forall₂_same.mpr fun e _ => refl e)
    · have other : (k == k') = false := by
        rw [beq_eq_false_iff_ne]
        rintro rfl
        simp at here
      simp only [List.lookup_cons, other] at held
      simp only [Entries.put, here]
      exact .cons (refl _) (ih held)

theorem memberRestated {pattern verb : String} {item operation : Members}
    (once : (Entries.keys item).Nodup) (held : item.lookup verb = some (.obj operation)) :
    List.Forall₂ Restates (operationsOf (pattern, .obj item))
      (operationsOf (pattern, .obj (Entries.put verb (.obj (Entries.put "operationId"
        (.str (operationId (.obj operation) verb pattern)) operation)) item))) := by
  rw [operationsOfMembers once, operationsOfMembers (Entries.nodupPut _ _ once),
    List.forall₂_map_left_iff, List.forall₂_map_right_iff]
  let R : String × Value → String × Value → Prop := fun e e' =>
    Restates ⟨pattern, e.1, ⟨["paths", pattern]⟩, e.2⟩ ⟨pattern, e'.1, ⟨["paths", pattern]⟩, e'.2⟩ ∧
      (isOperation e.1 e.2 = true ↔ isOperation e'.1 e'.2 = true)
  have changed : R (verb, .obj operation) (verb, .obj (Entries.put "operationId"
      (.str (operationId (.obj operation) verb pattern)) operation)) := ⟨.ofId, .rfl⟩
  have kept := putEach (fun e => ⟨.refl _, .rfl⟩) held changed
  exact (List.rel_filter (fun _ _ h => h.2) kept).imp fun _ _ h => h.1

theorem writeIdRestates {doc doc' : Value} (lawful : doc.lawful = true) {f : Found}
    (mem : f ∈ (listed doc).flatMap operationsOf)
    (written : set? (f.item.join [f.verb, "operationId"]) (.str f.id) doc = some doc') :
    List.Forall₂ Restates ((listed doc).flatMap operationsOf)
      ((listed doc').flatMap operationsOf) := by
  obtain ⟨item, ⟨entries, members, here, held, inside⟩, valid⟩ := (standsIff lawful).mp mem
  obtain ⟨pattern, verb, place, operation⟩ := f
  simp only at item held inside valid
  have once := (Value.lawfulObject.mp (lawfulAt lawful (slotAt here held))).1
  cases operation with
  | obj operation =>
    cases doc with
    | obj top =>
      have paths := membersAtObject.mp here
      simp only [set?, item, Location.join, List.cons_append, List.nil_append, write?, opened, paths,
        held, inside, Option.getD_some, Option.map_some, Option.some.injEq] at written
      subst written
      simp only [listed, here, membersAtObject.mpr (Entries.lookupPut _ _ _), Option.getD_some]
      have each := putEach
        (S := fun e e' => List.Forall₂ Restates (operationsOf e) (operationsOf e') ∧
          (e.2.isObject = true ↔ e'.2.isObject = true))
        (fun e => ⟨List.forall₂_same.mpr fun f _ => .refl f, .rfl⟩) held
        ⟨memberRestated once inside, .rfl⟩
      exact List.rel_flatMap (List.rel_filter (fun _ _ h => h.2) each) fun _ _ h => h.1
    | _ => simp [Value.membersAt?, Value.get?] at here
  | _ => simp [isOperation, Value.isObject] at valid

/- What a document keeps while names are stated in it. -/
structure Stated (found : List Found) (doc : Value) : Prop where
  lawful : doc.lawful = true
  plain : Plain doc
  restated : List.Forall₂ Restates found ((listed doc).flatMap operationsOf)

theorem forall₂Trans {α : Type} {R : α → α → Prop} (trans : ∀ {a b c}, R a b → R b c → R a c)
    {xs ys zs : List α} (h : List.Forall₂ R xs ys) (h' : List.Forall₂ R ys zs) :
    List.Forall₂ R xs zs := by
  induction h generalizing zs with
  | nil => exact h'
  | cons head _ ih =>
    cases h' with
    | cons head' tail' => exact .cons (trans head head') (ih tail')

theorem Stated.step {found : List Found} {doc doc' : Value} (h : Stated found doc)
    {e : Location × String} (mem : e ∈ missingIds found)
    (written : set? e.1 (.str e.2) doc = some doc') : Stated found doc' := by
  obtain ⟨f, inside, made⟩ := missingIdSource mem
  obtain ⟨f', inside', same⟩ := Build.counterpart h.restated inside
  unfold Found.missingId at made
  split at made
  · contradiction
  · cases made
    rw [← same.item, ← same.verb, ← same.id] at written
    obtain ⟨item, _, _⟩ := (standsIff h.lawful).mp inside'
    refine ⟨lawfulSet rfl h.lawful written, setPlain ?_ h.plain written,
      forall₂Trans .trans h.restated (writeIdRestates h.lawful inside' written)⟩
    exact .inr ⟨f'.pattern, f'.verb, ["operationId"], by simp, by simp [item, Location.join]⟩

theorem writeIdsStated {found : List Found} {doc : Value} (h : Stated found doc) :
    Stated found (writeIds (missingIds found) doc).1 := by
  unfold writeIds
  refine List.foldlRecOn (motive := fun acc : Value × Nat => Stated found acc.1) _ _ h
    fun acc stated e mem => ?_
  cases written : Tree.set? e.1 (.str e.2) acc.1 with
  | none => exact stated
  | some doc' => exact stated.step mem written

theorem tagsListed (v doc : Value) : listed (Tree.set tagsRoot v doc) = listed doc := by
  unfold Tree.set
  cases written : set? tagsRoot v doc with
  | none => rfl
  | some doc' =>
    have paths := (writeFollowed written).others (k := "paths") (by decide)
    simp [listed, Value.membersAt?, paths]

theorem writeTagsListed (names : List String) (doc : Value) :
    listed (writeTags names doc) = listed doc := by
  unfold writeTags
  split
  · rfl
  · exact tagsListed _ doc

theorem declareRestates {c : Config} {doc doc' : Value} {n : Nat} (lawful : doc.lawful = true)
    (plain : Plain doc) (run : declare c doc = .ok (doc', n)) :
    ∃ found, operations doc' = .ok found ∧
      List.Forall₂ Restates ((listed doc).flatMap operationsOf) found := by
  refine ⟨_, operationsPlain (declareLawful lawful run) (declarePlain lawful plain run), ?_⟩
  simp only [declare, operationsPlain lawful plain, bind, Except.bind] at run
  cases told : declaredTags doc with
  | error e => simp [told] at run
  | ok declared =>
    simp only [told, Except.ok.injEq, Prod.mk.injEq] at run
    obtain ⟨rfl, _⟩ := run
    rw [writeTagsListed]
    exact (writeIdsStated ⟨lawful, plain, List.forall₂_same.mpr fun f _ => .refl f⟩).restated

end ApiGraph.PathItems

namespace ApiGraph.Build
open Json ApiGraph.Graph Declaration

inductive Fate where
  | omitted
  | built
  | reported
  | dropped
  deriving DecidableEq, Repr

abbrev Log := List (Found × Fate)

def Log.of (log : Log) (fate : Fate) : List Found :=
  (log.filter fun e => e.2 = fate).map Prod.fst

def identifier (c : Config) (f : Found) : String := Words.setCase f.id c.operationCase

def planOf (c : Config) (f : Found) : MethodPlan :=
  ⟨f.place, f.pattern, Text.asciiLowercase f.verb, f.id, identifier c f⟩

def planned (m : Method) : MethodPlan := ⟨m.location, m.pattern, m.verb, m.operationId, m.identifier⟩

def identifiers (g : Graph) (a : Api) : List String :=
  (a.methods.filterMap g.method?).map Method.identifier

/- The graph and the log tell of the same operations. -/
structure Account (c : Config) (doc : Value) (log : Log) (g : Graph) : Prop where
  methods : g.methods.map planned = (log.of .built).map (planOf c)
  reports : g.skipped.map (fun s => (s.operationId, s.location)) =
    (log.of .reported).map fun f => (f.id, f.place)
  omitted : ∀ e ∈ log, e.2 = .omitted ↔ c.isOmitted e.1.id = true
  dropped : ∀ f, (f, .dropped) ∈ log → ∃ f', [(f', .built), (f, .dropped)].Sublist log ∧
    f'.group = f.group ∧ identifier c f' = identifier c f
  names : (g.apis.map Api.name).Nodup
  tagged : ∀ a ∈ g.apis, ∃ tag, Tree.get? a.location doc = some tag ∧
    tag.textAt? "name" = some a.name
  listed : (g.apis.flatMap Api.methods).Perm ((List.range g.methods.length).map MethodId.mk)
  grouped : ∀ a ∈ g.apis, ∀ id ∈ a.methods, ∃ f, (log.of .built)[id.index]? = some f ∧
    f.group = a.name
  identified : ∀ a ∈ g.apis, (identifiers g a).Nodup

theorem logOfAppend (log : Log) (f : Found) (fate kind : Fate) :
    Log.of (log ++ [(f, fate)]) kind = log.of kind ++ (if fate = kind then [f] else []) := by
  by_cases same : fate = kind <;> simp [Log.of, same]

namespace Account
variable {c : Config} {doc : Value} {log : Log} {g g' : Graph} {f : Found}

theorem empty : Account c doc [] .empty where
  methods := rfl
  reports := rfl
  omitted _ mem := by cases mem
  dropped _ mem := by cases mem
  names := List.nodup_nil
  tagged _ mem := by cases mem
  listed := .nil
  grouped _ mem := by cases mem
  identified _ mem := by cases mem

theorem same (h : Account c doc log g) (apis : g'.apis = g.apis) (methods : g'.methods = g.methods)
    (skipped : g'.skipped = g.skipped) : Account c doc log g' := by
  have method : g'.method? = g.method? := by
    funext id
    rw [method?, method?, methods]
  have names : identifiers g' = identifiers g := by
    funext a
    rw [identifiers, identifiers, method]
  obtain ⟨h₁, h₂, h₃, h₄, h₅, h₆, h₇, h₈, h₉⟩ := h
  exact ⟨methods ▸ h₁, skipped ▸ h₂, h₃, h₄, apis ▸ h₅, apis ▸ h₆, by rw [apis, methods]; exact h₇,
    apis ▸ h₈, by rw [apis, names]; exact h₉⟩

theorem addApi (h : Account c doc log g) {l : Location} {tag : Value} {name : String}
    (at_ : Tree.get? l doc = some tag) (named : tag.textAt? "name" = some name)
    (fresh : name ∉ g.apis.map Api.name) : Account c doc log (g.addApi ⟨l, name, []⟩).2 where
  methods := h.methods
  reports := h.reports
  omitted := h.omitted
  dropped := h.dropped
  names := by
    simp only [Graph.addApi, List.map_append, List.map_cons, List.map_nil]
    exact List.nodup_append.mpr ⟨h.names, by simp, by simpa using fresh⟩
  tagged a mem := by
    rcases List.mem_append.mp mem with old | new
    · exact h.tagged a old
    · rw [List.mem_singleton.mp new]
      exact ⟨tag, at_, named⟩
  listed := by simpa [Graph.addApi] using h.listed
  grouped a mem := by
    rcases List.mem_append.mp mem with old | new
    · exact h.grouped a old
    · rw [List.mem_singleton.mp new]
      intro _ impossible
      cases impossible
  identified a mem := by
    rcases List.mem_append.mp mem with old | new
    · exact h.identified a old
    · rw [List.mem_singleton.mp new]
      exact List.nodup_nil

theorem omittedThen (h : Account c doc log g) {fate : Fate}
    (last : fate = .omitted ↔ c.isOmitted f.id = true) :
    ∀ e ∈ log ++ [(f, fate)], e.2 = .omitted ↔ c.isOmitted e.1.id = true := by
  intro e mem
  rcases List.mem_append.mp mem with old | new
  · exact h.omitted e old
  · rw [List.mem_singleton.mp new]
    exact last

theorem droppedThen (h : Account c doc log g) {fate : Fate}
    (last : fate = .dropped → ∃ f' ∈ log.of .built, f'.group = f.group ∧
      identifier c f' = identifier c f) (f₁ : Found) (mem : (f₁, .dropped) ∈ log ++ [(f, fate)]) :
    ∃ f', [(f', .built), (f₁, .dropped)].Sublist (log ++ [(f, fate)]) ∧ f'.group = f₁.group ∧
      identifier c f' = identifier c f₁ := by
  rcases List.mem_append.mp mem with old | new
  · obtain ⟨f', earlier, rest⟩ := h.dropped f₁ old
    exact ⟨f', earlier.trans (List.sublist_append_left _ _), rest⟩
  · cases List.mem_singleton.mp new
    obtain ⟨f', built, rest⟩ := last rfl
    obtain ⟨⟨f₂, fate⟩, inside, rfl⟩ := List.mem_map.mp built
    obtain ⟨inside, kind⟩ := List.mem_filter.mp inside
    simp only [decide_eq_true_eq] at kind
    subst kind
    exact ⟨f₂, (List.singleton_sublist.mpr inside).append (List.Sublist.refl _), rest⟩

theorem pass (h : Account c doc log g) {fate : Fate} (bare : fate ≠ .built)
    (silent : fate ≠ .reported)
    (omitted : fate = .omitted ↔ c.isOmitted f.id = true)
    (dropped : fate = .dropped → ∃ f' ∈ log.of .built, f'.group = f.group ∧
      identifier c f' = identifier c f) : Account c doc (log ++ [(f, fate)]) g where
  methods := by rw [logOfAppend, if_neg bare, List.append_nil]; exact h.methods
  reports := by rw [logOfAppend, if_neg silent, List.append_nil]; exact h.reports
  omitted := h.omittedThen omitted
  dropped := h.droppedThen dropped
  names := h.names
  tagged := h.tagged
  listed := h.listed
  grouped := by rw [logOfAppend, if_neg bare, List.append_nil]; exact h.grouped
  identified := h.identified

theorem report (h : Account c doc log g) (kept : c.isOmitted f.id = false) (reason : String) :
    Account c doc (log ++ [(f, .reported)]) (g.addSkipped ⟨f.id, f.place, reason⟩) where
  methods := by rw [logOfAppend, if_neg (by decide), List.append_nil]; exact h.methods
  reports := by
    rw [logOfAppend, if_pos rfl, List.map_append, ← h.reports]
    simp [addSkipped]
  omitted := h.omittedThen (by simp [kept])
  dropped := h.droppedThen (by simp)
  names := h.names
  tagged := h.tagged
  listed := h.listed
  grouped := by rw [logOfAppend, if_neg (by decide), List.append_nil]; exact h.grouped
  identified := h.identified

theorem known (h : Account c doc log g) {a : Api} (inside : a ∈ g.apis) {id : MethodId}
    (mem : id ∈ a.methods) : id.index < g.methods.length := by
  have all := h.listed.mem_iff.mp (List.mem_flatMap.mpr ⟨a, inside, mem⟩)
  obtain ⟨i, small, rfl⟩ := List.mem_map.mp all
  exact List.mem_range.mp small

theorem builtLength (h : Account c doc log g) : (log.of .built).length = g.methods.length := by
  simpa using (congrArg List.length h.methods).symm

section Enlist
variable {m : Method} {a : Api} {api : ApiId}

theorem enlistedSource {g : Graph} (held : g.api? api = some a) {id : MethodId} {a' : Api}
    (mem : a' ∈ (g.enlist api id).apis) : a' = Api.listing id a ∨ a' ∈ g.apis := by
  obtain ⟨i, found⟩ := List.getElem?_of_mem mem
  simp only [Graph.enlist, List.getElem?_modify] at found
  obtain ⟨a₀, there, rfl⟩ := Option.map_eq_some_iff.mp found
  by_cases here : api.index = i
  · have same : a₀ = a := by
      rw [← here] at there
      exact Option.some.inj (there.symm.trans held)
    exact .inl (by simp [here, same, Api.listing])
  · exact .inr (by simpa [here] using List.mem_of_getElem? there)

theorem enlist (h : Account c doc log g) (kept : c.isOmitted f.id = false)
    (apis : g'.apis = g.apis) (methods : g'.methods = g.methods ++ [m])
    (skipped : g'.skipped = g.skipped) (plan : planned m = planOf c f)
    (held : g.api? api = some a) (named : a.name = f.group)
    (fresh : identifier c f ∉ identifiers g a) :
    Account c doc (log ++ [(f, .built)]) (g'.enlist api ⟨g.methods.length⟩) := by
  have inside : a ∈ g.apis := List.mem_of_getElem? held
  have source := fun a' (mem : a' ∈ (g'.enlist api ⟨g.methods.length⟩).apis) =>
    apis ▸ enlistedSource (g := g') (by rw [api?, apis]; exact held) mem
  have built : Log.of (log ++ [(f, .built)]) .built = log.of .built ++ [f] := by simp [logOfAppend]
  -- what the groups held before is found as before
  have old : ∀ a' ∈ g.apis, a'.methods.filterMap g'.method? = a'.methods.filterMap g.method? := by
    intro a' mem
    refine List.filterMap_congr fun id mem' => ?_
    rw [method?, method?, methods, List.getElem?_append_left (h.known mem mem')]
  have last : g'.method? ⟨g.methods.length⟩ = some m := by simp [method?, methods]
  refine ⟨?_, ?_, h.omittedThen (by simp [kept]), h.droppedThen (by simp), ?_, ?_, ?_, ?_, ?_⟩
  · simp only [Graph.enlist, built, methods, List.map_append, h.methods, List.map_cons, plan,
      List.map_nil]
  · rw [logOfAppend, if_neg (by decide), List.append_nil, ← h.reports, ← skipped]
    rfl
  · have same : (g'.enlist api ⟨g.methods.length⟩).apis.map Api.name = g'.apis.map Api.name :=
      modifyMap (f := Api.listing ⟨g.methods.length⟩) (fun _ => rfl) g'.apis api.index
    rw [same, apis]
    exact h.names
  · intro a' mem
    rcases source a' mem with rfl | mem'
    · exact h.tagged a inside
    · exact h.tagged a' mem'
  · have there : api.index < g'.apis.length := by
      rw [apis]
      exact (List.getElem?_eq_some_iff.mp held).1
    refine (enlistPerm g'.apis there ⟨g.methods.length⟩).trans ?_
    have longer : (g'.enlist api ⟨g.methods.length⟩).methods.length = g.methods.length + 1 := by
      simp [Graph.enlist, methods]
    rw [longer, List.range_succ, List.map_append, apis]
    exact (h.listed.cons _).trans (List.perm_append_singleton _ _).symm
  · intro a' mem id mem'
    rw [built]
    have before : ∀ a₀ ∈ g.apis, id ∈ a₀.methods → ∃ f', (log.of .built ++ [f])[id.index]? =
        some f' ∧ f'.group = a₀.name := by
      intro a₀ mem₀ held₀
      obtain ⟨f', found, same⟩ := h.grouped a₀ mem₀ id held₀
      exact ⟨f', prefixAt (List.prefix_append _ _) found, same⟩
    rcases source a' mem with rfl | inside'
    · rcases List.mem_append.mp mem' with earlier | new
      · exact before a inside earlier
      · cases List.mem_singleton.mp new
        exact ⟨f, by simp [← h.builtLength], named.symm⟩
    · exact before a' inside' mem'
  · intro a' mem
    change ((a'.methods.filterMap g'.method?).map Method.identifier).Nodup
    rcases source a' mem with rfl | inside'
    · have name : m.identifier = identifier c f := congrArg MethodPlan.identifier plan
      simp only [Api.listing, List.filterMap_append, old a inside, List.filterMap_cons, last,
        List.filterMap_nil, List.map_append, List.map_cons, List.map_nil, name]
      refine List.nodup_append.mpr ⟨h.identified a inside, by simp, ?_⟩
      rintro x mem _ new rfl
      exact fresh (List.mem_singleton.mp new ▸ mem)
    · rw [old a' inside']
      exact h.identified a' inside'

end Enlist

theorem hasIdentifierIff {g : Graph} {api : ApiId} {a : Api} (held : g.api? api = some a)
    {i : String} : hasIdentifier g api i = true ↔ i ∈ identifiers g a := by
  simp only [hasIdentifier, held, Option.any_some, List.any_eq_true, identifiers, List.mem_map,
    List.mem_filterMap]
  constructor
  · rintro ⟨id, mem, told⟩
    cases found : g.method? id with
    | none => simp [found] at told
    | some m =>
      simp only [found, Option.any_some, beq_iff_eq] at told
      exact ⟨m, ⟨id, mem, found⟩, told⟩
  · rintro ⟨m, ⟨id, mem, found⟩, rfl⟩
    exact ⟨id, mem, by simp [found]⟩

theorem builtSource (h : Account c doc log g) {a : Api} (inside : a ∈ g.apis) {i : String}
    (mem : i ∈ identifiers g a) : ∃ f ∈ log.of .built, f.group = a.name ∧ identifier c f = i := by
  obtain ⟨m, listed, rfl⟩ := List.mem_map.mp mem
  obtain ⟨id, mem', found⟩ := List.mem_filterMap.mp listed
  obtain ⟨f, built, group⟩ := h.grouped a inside id mem'
  have plan : (g.methods.map planned)[id.index]? = ((log.of .built).map (planOf c))[id.index]? := by
    rw [h.methods]
  simp only [List.getElem?_map, built, Option.map_some] at plan
  rw [method?] at found
  rw [found, Option.map_some, Option.some.injEq] at plan
  exact ⟨f, List.mem_of_getElem? built, group, (congrArg MethodPlan.identifier plan).symm⟩

end Account

section Walk
variable {cx : Setting} {log : Log} {g g' : Graph}

theorem apiNamedAccount {c : Config} (indexed : Indexed g)
    (h : Account c cx.doc log g) {name : String} {id : ApiId}
    (run : apiNamed cx name g = .ok (id, g')) :
    Account c cx.doc log g' ∧ ∃ a, g'.api? id = some a ∧ a.name = name := by
  cases apiNamedSource run with
  | known listed same =>
    subst same
    obtain ⟨i, found, rfl⟩ := Option.map_eq_some_iff.mp listed
    obtain ⟨inside, same, _⟩ := List.findIdx?_eq_some_iff_getElem.mp found
    exact ⟨h, _, List.getElem?_eq_getElem inside, eq_of_beq same⟩
  | held new tag node =>
    -- a group at that place would have the name of the tag there
    obtain ⟨v, at_, _, named⟩ := tag.at_
    obtain ⟨a, found, placed⟩ := Option.map_eq_some_iff.mp (indexed.placed node)
    have inside := List.mem_of_getElem? found
    obtain ⟨tag', at', told⟩ := h.tagged a inside
    rw [placed, at_] at at'
    cases at'
    have same : a.name = name := Option.some.inj (told.symm.trans named)
    exact absurd (List.mem_map.mpr ⟨a, inside, same⟩) (unnamed new)
  | @made l new tag _ added =>
    subst added
    obtain ⟨v, at_, _, named⟩ := tag.at_
    exact ⟨h.addApi at_ named (unnamed new), ⟨l, name, []⟩, by simp [api?, Graph.addApi], rfl⟩

theorem methodNodeRecords (lawful : cx.doc.lawful = true) {plan : MethodPlan} {operation : Value}
    (at_ : Tree.get? plan.location cx.doc = some operation)
    {result : Except OperationError MethodId}
    (run : methodNode cx plan operation g = .ok (result, g')) :
    g'.apis = g.apis ∧ g'.skipped = g.skipped ∧
      ((∃ e, result = .error e ∧ g'.methods = g.methods) ∨
        ∃ m, planned m = plan ∧ result = .ok ⟨g.methods.length⟩ ∧ g'.methods = g.methods ++ [m]) := by
  cases methodNodeSource run with
  | @failed _ _ e asked _ visited =>
    have inputs := (inputNodesBuilds lawful (sortedSound at_ asked) visited).1
    obtain ⟨apis, methods, skipped⟩ := inputs.grows.edits.keepsMethods (by simp)
    exact ⟨apis, skipped, .inl ⟨e, rfl, methods⟩⟩
  | @made _ _ listed m response m' secured asked ranked visited settled _ added =>
    have inputs := (inputNodesBuilds lawful (sortedSound at_ asked) visited).1
    have codes := (preferredResponsesSound at_ ranked).2
    have settles : Builds .inputs cx .all m m' ∧ _ :=
      responseNodeBuilds lawful codes trivial settled
    obtain ⟨apis, methods, skipped⟩ := inputs.grows.edits.keepsMethods (by simp)
    obtain ⟨apis', methods', skipped'⟩ := settles.1.grows.edits.keepsMethods (by simp)
    subst added
    refine ⟨apis'.trans apis, skipped'.trans skipped, .inr ⟨plan.method listed response secured, rfl,
      ?_, ?_⟩⟩
    · rw [← methods, ← methods']
    · rw [← methods, ← methods']
      rfl

theorem visitOperationAccount (lawful : cx.doc.lawful = true) (indexed : Indexed g)
    (h : Account cx.config cx.doc log g) {f f' : Found} (same : Restates f f')
    (at_ : Tree.get? f'.place cx.doc = some f'.operation) {u : PUnit}
    (run : visitOperation cx f' g = .ok (u, g')) :
    ∃ fate, Account cx.config cx.doc (log ++ [(f, fate)]) g' := by
  have named : Operation.apiName f'.operation f'.pattern = f.group := same.group
  have plan : (⟨f'.item.child f'.verb, f'.pattern, Text.asciiLowercase f'.verb, f'.id,
      Words.setCase f'.id cx.config.operationCase⟩ : MethodPlan) = planOf cx.config f := by
    rw [planOf, identifier, ← same.place, ← same.pattern, ← same.verb, ← same.id]
    rfl
  cases visitOperationSource run with
  | omitted out unchanged =>
    subst unchanged
    rw [same.id] at out
    exact ⟨.omitted, h.pass (by decide) (by decide) (by simp [out]) (by simp)⟩
  | dropped out grouped taken =>
    rw [same.id] at out taken
    rw [named] at grouped
    obtain ⟨account, a, held, name⟩ := apiNamedAccount indexed h grouped
    have mem := (Account.hasIdentifierIff held).mp taken
    obtain ⟨f₁, built, group, shared⟩ := account.builtSource (List.mem_of_getElem? held) mem
    exact ⟨.dropped, account.pass (by decide) (by decide) (by simp [out])
      fun _ => ⟨f₁, built, group.trans name, shared⟩⟩
  | @made api m result m' out grouped free node listed =>
    rw [same.id] at out free
    rw [named] at grouped
    rw [plan] at node
    obtain ⟨account, a, held, name⟩ := apiNamedAccount indexed h grouped
    have there : Tree.get? (planOf cx.config f).location cx.doc = some f'.operation := by
      rw [← plan]
      exact at_
    obtain ⟨apis, skipped, outcome⟩ := methodNodeRecords lawful there node
    rcases outcome with ⟨e, rfl, methods⟩ | ⟨method, made, rfl, methods⟩
    · refine ⟨.reported, ?_⟩
      rw [listed, recorded, same.id]
      rw [show f'.item.child f'.verb = f.place from same.place]
      exact (account.same apis methods skipped).report out e.message
    · refine ⟨.built, ?_⟩
      have fresh : identifier cx.config f ∉ identifiers m a := by
        intro mem
        rw [identifier] at mem
        exact Bool.false_ne_true (free.symm.trans ((Account.hasIdentifierIff held).mpr mem))
      rw [listed, recorded]
      exact account.enlist out apis methods skipped made held name fresh

theorem walkAccount (lawful : cx.doc.lawful = true) {found found' : List Found}
    (operations : Declaration.operations cx.doc = .ok found')
    (restated : List.Forall₂ Restates found found') {u : PUnit}
    (run : walk cx .empty = .ok (u, g)) :
    ∃ log : Log, log.map Prod.fst = found ∧ Account cx.config cx.doc log g := by
  simp only [walk, runBind, runLift, mapErrorOk] at run
  obtain ⟨_, _, ⟨again, same⟩, _, m, visited, run⟩ := run
  rw [operations] at again
  cases again
  rw [same] at visited
  have visits : ∃ log : Log, log.map Prod.fst = found ∧ Account cx.config cx.doc log m := by
    obtain ⟨_, runs⟩ := runForM.mp visited
    have at_ := fun f (mem : f ∈ found') => operationAt operations mem
    -- over the operations still to come, the log so far being any
    suffices all : ∀ (log : Log) (start : Graph) (done us), Indexed start →
        Account cx.config cx.doc log start → Runs (visitOperation cx) found' start us m →
        log.map Prod.fst = done →
        ∃ log' : Log, log'.map Prod.fst = done ++ found ∧ Account cx.config cx.doc log' m from
      all [] .empty [] _ emptyIndexed .empty runs rfl
    clear runs visited operations run same
    induction restated with
    | nil =>
      intro log start done us _ account runs same
      cases runs
      exact ⟨log, by simpa using same, account⟩
    | @cons f f' found found' restates _ ih =>
      intro log start done us indexed account runs same
      cases runs with
      | cons head tail =>
        have here := at_ f' List.mem_cons_self
        obtain ⟨fate, next⟩ := visitOperationAccount lawful indexed account restates here head
        have builds := (visitOperationBuilds lawful here head).1
        obtain ⟨log', told, last⟩ := ih (fun f mem => at_ f (List.mem_cons_of_mem _ mem)) _ _
          (done ++ [f]) _ (builds.grows.indexed indexed) next tail (by simp [same])
        exact ⟨log', by simpa using told, last⟩
  obtain ⟨log, told, account⟩ := visits
  refine ⟨log, told, ?_⟩
  cases all : cx.config.allModels with
  | false =>
    simp only [all, Bool.false_eq_true, if_false, runPure] at run
    exact run.2 ▸ account
  | true =>
    simp only [all, if_true] at run
    have edits := ((registerAllTrips run).grows lawful).edits
    obtain ⟨apis, methods, skipped⟩ := edits.keepsMethods (by simp)
    exact account.same apis methods skipped

end Walk

def methodsAt (g : Graph) (l : Location) : List Method := g.methods.filter fun m => m.location = l

def reportsAt (g : Graph) (l : Location) : List Skipped := g.skipped.filter fun s => s.location = l

inductive Falls (c : Config) (found : List Found) (g : Graph) : Found → Fate → Prop
  | omitted {f} (out : c.isOmitted f.id = true) (bare : methodsAt g f.place = [])
      (silent : reportsAt g f.place = []) : Falls c found g f .omitted
  | built {f id m a} (kept : c.isOmitted f.id = false) (silent : reportsAt g f.place = [])
      (one : methodsAt g f.place = [m]) (held : g.method? id = some m)
      (plan : planned m = planOf c f) (group : a ∈ g.apis) (named : a.name = f.group)
      (listed : ∀ b ∈ g.apis, b.methods.count id = if b = a then 1 else 0) :
      Falls c found g f .built
  | reported {f s} (kept : c.isOmitted f.id = false) (bare : methodsAt g f.place = [])
      (one : reportsAt g f.place = [s]) (told : s.operationId = f.id) : Falls c found g f .reported
  | dropped {f f'} (kept : c.isOmitted f.id = false) (bare : methodsAt g f.place = [])
      (silent : reportsAt g f.place = []) (earlier : [f', f].Sublist found)
      (built : Falls c found g f' .built) (group : f'.group = f.group)
      (taken : identifier c f' = identifier c f) : Falls c found g f .dropped

theorem Falls.unique {c : Config} {found : List Found} {g : Graph} {f : Found} {fate fate' : Fate}
    (h : Falls c found g f fate) (h' : Falls c found g f fate') : fate = fate' := by
  cases h <;> cases h' <;> simp_all

/- Every operation has one fate, nothing but operations makes methods and reports, and groups and
the names in them are told apart. -/
structure Accounted (c : Config) (doc : Value) (found : List Found) (g : Graph) : Prop where
  each : ∀ f ∈ found, ∃! fate, Falls c found g f fate
  methods : ∀ m ∈ g.methods, ∃ f ∈ found, m.location = f.place
  reports : ∀ s ∈ g.skipped, ∃ f ∈ found, s.location = f.place
  names : (g.apis.map Api.name).Nodup
  tagged : ∀ a ∈ g.apis, ∃ tag, Tree.get? a.location doc = some tag ∧
    tag.textAt? "name" = some a.name
  known : ∀ a ∈ g.apis, ∀ id ∈ a.methods, ∃ m, g.method? id = some m
  identified : ∀ a ∈ g.apis, (identifiers g a).Nodup

theorem filterOne {α β : Type} [DecidableEq β] {key : α → β} {xs : List α}
    (once : (xs.map key).Nodup) {x : α} (mem : x ∈ xs) :
    (xs.filter fun y => key y = key x) = [x] := by
  induction xs with
  | nil => cases mem
  | cons y r ih =>
    obtain ⟨fresh, once⟩ := List.nodup_cons.mp once
    rcases List.mem_cons.mp mem with rfl | later
    · have none : (r.filter fun y => key y = key x) = [] := by
        refine List.filter_eq_nil_iff.mpr fun z inside same => fresh ?_
        exact of_decide_eq_true same ▸ List.mem_map_of_mem inside
      simp [none]
    · have other : key y ≠ key x := fun same => fresh (same ▸ List.mem_map_of_mem later)
      simp [other, ih once later]

namespace Log
variable {log : Log}

theorem memOf {f : Found} {fate : Fate} : f ∈ log.of fate ↔ (f, fate) ∈ log := by
  simp [Log.of]

theorem placesOf (fate : Fate) : ((log.of fate).map Found.place).Sublist
    ((log.map Prod.fst).map Found.place) :=
  (List.filter_sublist.map Prod.fst).map Found.place

theorem one (once : ((log.map Prod.fst).map Found.place).Nodup) {f f' : Found} {fate fate' : Fate}
    (mem : (f, fate) ∈ log) (mem' : (f', fate') ∈ log) (same : f'.place = f.place) :
    fate' = fate := by
  rw [List.map_map] at once
  exact congrArg Prod.snd (List.inj_on_of_nodup_map once mem' mem same)

end Log

namespace Account
variable {c : Config} {doc : Value} {log : Log} {g : Graph}

theorem methodPlaces (h : Account c doc log g) :
    g.methods.map Method.location = (log.of .built).map Found.place := by
  simpa [Function.comp_def, planned, planOf] using congrArg (List.map MethodPlan.location) h.methods

theorem reportPlaces (h : Account c doc log g) :
    g.skipped.map Skipped.location = (log.of .reported).map Found.place := by
  simpa [Function.comp_def] using congrArg (List.map Prod.snd) h.reports

theorem methodSource (h : Account c doc log g) {m : Method} (mem : m ∈ g.methods) :
    ∃ f, (f, .built) ∈ log ∧ m.location = f.place := by
  have placed : m.location ∈ g.methods.map Method.location := List.mem_map_of_mem mem
  rw [h.methodPlaces] at placed
  obtain ⟨f, inside, same⟩ := List.mem_map.mp placed
  exact ⟨f, Log.memOf.mp inside, same.symm⟩

theorem reportSource (h : Account c doc log g) {s : Skipped} (mem : s ∈ g.skipped) :
    ∃ f, (f, .reported) ∈ log ∧ s.location = f.place := by
  have placed : s.location ∈ g.skipped.map Skipped.location := List.mem_map_of_mem mem
  rw [h.reportPlaces] at placed
  obtain ⟨f, inside, same⟩ := List.mem_map.mp placed
  exact ⟨f, Log.memOf.mp inside, same.symm⟩

theorem listedOnce (h : Account c doc log g) {i : Nat} {f : Found}
    (built : (log.of .built)[i]? = some f) : ∃ a ∈ g.apis, a.name = f.group ∧
      ∀ b ∈ g.apis, b.methods.count ⟨i⟩ = if b = a then 1 else 0 := by
  have small : i < g.methods.length := h.builtLength ▸ (List.getElem?_eq_some_iff.mp built).1
  have mem : (⟨i⟩ : MethodId) ∈ g.apis.flatMap Api.methods :=
    h.listed.mem_iff.mpr (List.mem_map.mpr ⟨i, List.mem_range.mpr small, rfl⟩)
  have apart : (g.apis.flatMap Api.methods).Nodup :=
    h.listed.nodup_iff.mpr (List.nodup_range.map fun _ _ same => congrArg MethodId.index same)
  have group : ∀ b ∈ g.apis, ⟨i⟩ ∈ b.methods → f.group = b.name := by
    intro b inside held
    obtain ⟨f', found, named⟩ := h.grouped b inside _ held
    cases built.symm.trans found
    exact named
  obtain ⟨a, inside, held⟩ := List.mem_flatMap.mp mem
  refine ⟨a, inside, (group a inside held).symm, fun b inside' => ?_⟩
  by_cases same : b = a
  · rw [if_pos same, same]
    exact List.count_eq_one_of_mem ((List.nodup_flatMap.mp apart).1 a inside) held
  · rw [if_neg same]
    refine List.count_eq_zero.mpr fun held' => same ?_
    exact List.inj_on_of_nodup_map h.names inside' inside
      ((group b inside' held').symm.trans (group a inside held))

variable (once : ((log.map Prod.fst).map Found.place).Nodup) {f : Found} {fate : Fate}
include once

theorem bare (h : Account c doc log g) (mem : (f, fate) ∈ log) (other : fate ≠ .built) :
    methodsAt g f.place = [] := by
  refine List.filter_eq_nil_iff.mpr fun m inside same => ?_
  obtain ⟨f', built, placed⟩ := h.methodSource inside
  exact other (Log.one once mem built (placed.symm.trans (of_decide_eq_true same))).symm

theorem silent (h : Account c doc log g) (mem : (f, fate) ∈ log) (other : fate ≠ .reported) :
    reportsAt g f.place = [] := by
  refine List.filter_eq_nil_iff.mpr fun s inside same => ?_
  obtain ⟨f', reported, placed⟩ := h.reportSource inside
  exact other (Log.one once mem reported (placed.symm.trans (of_decide_eq_true same))).symm

theorem fallsBuilt (h : Account c doc log g) (mem : (f, .built) ∈ log) :
    Falls c (log.map Prod.fst) g f .built := by
  obtain ⟨i, built⟩ := List.getElem?_of_mem (Log.memOf.mpr mem)
  have plans : (g.methods.map planned)[i]? = ((log.of .built).map (planOf c))[i]? := by
    rw [h.methods]
  rw [List.getElem?_map, List.getElem?_map, built] at plans
  obtain ⟨m, held, plan⟩ := Option.map_eq_some_iff.mp plans
  obtain ⟨a, group, named, listed⟩ := h.listedOnce built
  have placed : m.location = f.place := congrArg MethodPlan.location plan
  have one : methodsAt g f.place = [m] := by
    rw [← placed]
    refine filterOne ?_ (List.mem_of_getElem? held)
    rw [h.methodPlaces]
    exact once.sublist (Log.placesOf .built)
  have kept : c.isOmitted f.id = false := by
    simpa using (h.omitted _ mem).not.mp (by simp)
  exact .built kept (h.silent once mem (by decide)) one held plan group named listed

theorem falls (h : Account c doc log g) (mem : (f, fate) ∈ log) :
    Falls c (log.map Prod.fst) g f fate := by
  have kept : fate ≠ .omitted → c.isOmitted f.id = false := fun other => by
    simpa using (h.omitted _ mem).not.mp other
  cases fate with
  | omitted =>
    exact .omitted ((h.omitted _ mem).mp rfl) (h.bare once mem (by decide))
      (h.silent once mem (by decide))
  | built => exact h.fallsBuilt once mem
  | reported =>
    have told : (f.id, f.place) ∈ g.skipped.map fun s => (s.operationId, s.location) := by
      rw [h.reports]
      exact List.mem_map.mpr ⟨f, Log.memOf.mpr mem, rfl⟩
    obtain ⟨s, inside, same⟩ := List.mem_map.mp told
    obtain ⟨id, placed⟩ := Prod.mk.inj same
    have one : reportsAt g f.place = [s] := by
      rw [← placed]
      refine filterOne ?_ inside
      rw [h.reportPlaces]
      exact once.sublist (Log.placesOf .reported)
    exact .reported (kept (by decide)) (h.bare once mem (by decide)) one id
  | dropped =>
    obtain ⟨f', earlier, group, taken⟩ := h.dropped f mem
    have built : (f', .built) ∈ log := earlier.subset (by simp)
    exact .dropped (kept (by decide)) (h.bare once mem (by decide)) (h.silent once mem (by decide))
      (earlier.map Prod.fst) (h.fallsBuilt once built) group taken

end Account

/- Every operation of a prepared document is accounted for in the graph that is built of it. -/
theorem operationsAccounted {fragments : List Value} {o : Pipeline.Options} {p : Pipeline.Prepared}
    {c : Config} {doc : Value} {g : Graph} (prepared : Pipeline.prepare fragments o = .ok p)
    (lawful : p.doc.lawful = true) (built : build c p.doc = (doc, .ok g)) :
    ∃ found, Declaration.operations p.doc = .ok found ∧
      (∀ f, f ∈ found ↔ PathItems.Stands p.doc f) ∧ (found.map Found.place).Nodup ∧
      Accounted c doc found g := by
  have lawful' := buildLawful lawful built
  obtain ⟨⟨n, declared⟩, made⟩ := buildSource built
  have plain := PathItems.preparePlain prepared
  obtain ⟨found', operations, restated⟩ := PathItems.declareRestates lawful plain declared
  obtain ⟨found, listed, stands, apart, restated⟩ : ∃ found, Declaration.operations p.doc = .ok found ∧
      (∀ f, f ∈ found ↔ PathItems.Stands p.doc f) ∧ (found.map Found.place).Nodup ∧
      List.Forall₂ Restates found found' :=
    ⟨_, PathItems.operationsPlain lawful plain, fun f => PathItems.standsIff lawful,
      PathItems.operationsApart lawful, restated⟩
  obtain ⟨cx, set, walked⟩ := graphOfSource made
  obtain ⟨request, accept, _, _, rfl⟩ := settingSource set
  obtain ⟨log, rfl, account⟩ :=
    @walkAccount ⟨doc, c, request, accept⟩ g lawful' found found' operations restated () walked
  refine ⟨_, listed, stands, apart, ?_⟩
  refine ⟨fun f mem => ?_, fun m mem => ?_, fun s mem => ?_, account.names, account.tagged,
    fun a inside id mem => ?_, account.identified⟩
  · obtain ⟨⟨_, fate⟩, inside, rfl⟩ := List.mem_map.mp mem
    exact ⟨fate, account.falls apart inside, fun _ other => other.unique (account.falls apart inside)⟩
  · obtain ⟨f, inside, placed⟩ := account.methodSource mem
    exact ⟨f, List.mem_map.mpr ⟨_, inside, rfl⟩, placed⟩
  · obtain ⟨f, inside, placed⟩ := account.reportSource mem
    exact ⟨f, List.mem_map.mpr ⟨_, inside, rfl⟩, placed⟩
  · exact ⟨_, List.getElem?_eq_getElem (account.known inside mem)⟩

def fatesDocument : Value :=
  let operation (id : String) (more : Members) : Value :=
    .obj ([("tags", .arr [.str "notes"]), ("operationId", .str id), ("responses", .obj [])] ++ more)
  .obj [("paths", .obj [("/notes", .obj [
    ("get", operation "getNotes" []), ("put", operation "get_notes" []),
    ("post", operation "addNote" [("requestBody", .obj [("content", .obj [("x/y", .obj [])])])]),
    ("delete", operation "dropNotes" [])])])]

def fatesConfig : Config := { Config.default with omittedOperationIds := ["dropNotes"] }

theorem fatesAccounted : ∃ p doc g, Pipeline.prepare [fatesDocument] bareOptions = .ok p ∧
    build fatesConfig p.doc = (doc, .ok g) ∧
    g.methods.map Method.operationId = ["getNotes"] ∧ g.skipped.map Skipped.operationId = ["addNote"] ∧
    ∃ found, Declaration.operations p.doc = .ok found ∧
      (∀ f, f ∈ found ↔ PathItems.Stands p.doc f) ∧ (found.map Found.place).Nodup ∧
      Accounted fatesConfig doc found g := by
  have facts : (Pipeline.generate [fatesDocument] bareOptions fatesConfig).toOption.map
      (fun r => (r.graph.methods.map Method.operationId, r.graph.skipped.map Skipped.operationId)) =
      some (["getNotes"], ["addNote"]) := by decide +kernel
  have before : (Pipeline.prepare [fatesDocument] bareOptions).toOption.map (·.doc.lawful) =
      some true := by decide +kernel
  cases generated : Pipeline.generate [fatesDocument] bareOptions fatesConfig with
  | error e => simp [generated, Except.toOption] at facts
  | ok r =>
    obtain ⟨p, prepared, built⟩ := generateSource generated
    simp only [generated, Except.toOption, Option.map_some, Option.some.injEq,
      Prod.mk.injEq] at facts
    simp only [prepared, Except.toOption, Option.map_some, Option.some.injEq] at before
    exact ⟨p, r.doc, r.graph, prepared, built, facts.1, facts.2,
      operationsAccounted prepared before built⟩

end ApiGraph.Build
