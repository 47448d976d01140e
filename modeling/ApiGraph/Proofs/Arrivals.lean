import ApiGraph.Proofs.BodyNames
import ApiGraph.Proofs.Registration
import ApiGraph.Proofs.SiteEdits

/-! What a build comes to. It goes on from a value to the parts that the search for schemas knows too,
and it takes turns that the search does not take: it follows references, and it knows operations that
are not spelled in lower case. Every schema node of a graph stands where the build has come to. -/
namespace ApiGraph.Hoist
open Json ApiGraph.Tree Resolve Operation

/- A turn from a value to another one. Definitions are also taken as if they were referred to. -/
inductive Turn (doc : Value) : Role → Location → Value → Role → Location → Value → Prop
  | operation {l item verb operation} (plain : refOf item = none)
      (held : item.get? verb = some operation) (valid : isOperation verb operation = true)
      (spelled : Text.asciiLowercase verb ≠ verb) :
      Turn doc .pathItem l item .operation (l.child verb) operation
  | reference {role l raw r place} (resolved : resolve doc raw = .ok r)
      (leads : r.location? = some place) : Turn doc role l raw role place r.value
  | definition {l v r} (resolved : resolve doc (reference l.toPointer) = .ok r) :
      Turn doc .definition l v .schema (r.locationOr l) r.value

inductive Comes (doc : Value) : Role → Location → Value → Prop
  | document : Comes doc .document .root doc
  | part {role l v p} (owner : Comes doc role l v) (mem : p ∈ parts role v) :
      Comes doc p.role (l.join p.path) p.value
  | turn {role l v role' l' v'} (owner : Comes doc role l v) (taken : Turn doc role l v role' l' v') :
      Comes doc role' l' v'

def Inline (doc : Value) (l : Location) (v : Value) : Prop :=
  ∃ role owner x p, Comes doc role owner x ∧ p ∈ parts role x ∧ p.role = .schema ∧
    l = owner.join p.path ∧ v = p.value

section Parts
variable {doc v x raw : Value} {role : Role} {l : Location} {s : Slot} {path : List String}

theorem partIn (open_ : entered role v = true) (slot : s ∈ slots role) (held : Held v s path x) :
    ⟨s.role, path, x⟩ ∈ parts role v := memParts.mpr ⟨open_, s, slot, rfl, held⟩

theorem Comes.held (owner : Comes doc role l v) (open_ : entered role v = true)
    (slot : s ∈ slots role) (held : Held v s path x) : Comes doc s.role (l.join path) x :=
  .part owner (partIn open_ slot held)

theorem Comes.inline (owner : Comes doc role l v) (open_ : entered role v = true)
    (slot : s ∈ slots role) (kind : s.role = .schema) (held : Held v s path x) :
    Inline doc (l.join path) x :=
  ⟨role, l, v, _, owner, partIn open_ slot held, kind, rfl, rfl⟩

theorem Inline.comes (h : Inline doc l v) : Comes doc .schema l v := by
  obtain ⟨role, owner, x, p, comes, mem, kind, rfl, rfl⟩ := h
  exact kind ▸ comes.part mem

theorem Comes.follow (owner : Comes doc role l raw) {r : Resolved} (resolved : resolve doc raw = .ok r) :
    Comes doc role (r.locationOr l) r.value := by
  cases leads : r.location? with
  | some place => simpa [Resolved.locationOr, leads] using owner.turn (.reference resolved leads)
  | none =>
    rcases resolvedSource resolved with ⟨_, rfl⟩ | ⟨place, leads', _⟩
    · exact owner
    · rw [leads] at leads'
      contradiction

theorem Comes.reads (lawful : doc.lawful = true) (h : Comes doc role l v) :
    Tree.get? l doc = some v := by
  induction h with
  | document => rfl
  | @part _ l v p _ mem ih =>
    obtain ⟨_, s, _, _, held⟩ := memParts.mp mem
    have below := held.reads (lawfulAt lawful ih)
    change walk? (l.segments ++ p.path) doc = _
    rw [walk?_append]
    exact (congrArg (·.bind (walk? p.path)) ih).trans below
  | turn _ taken ih =>
    cases taken with
    | operation _ held => exact childAt ih held
    | reference resolved leads =>
      have at_ := resolvedAt (readAt ih) resolved
      rwa [Resolved.locationOr, leads] at at_
    | definition resolved => exact resolvedAt (readReference _ _ _) resolved

theorem Inline.reads (lawful : doc.lawful = true) (h : Inline doc l v) : Tree.get? l doc = some v :=
  h.comes.reads lawful

end Parts
end ApiGraph.Hoist

namespace ApiGraph.Build
open Json Resolve ApiGraph.Graph Declaration
open Hoist (Slot Held Comes Inline slots entered)

section Lists
variable {doc v : Value} {l : Location} {e : Value × Location}

theorem heldMember {key : String} {kind : Hoist.Role} {x : String × Value}
    (mem : x ∈ (v.membersAt? key).getD []) : Held v ⟨key, .members, kind⟩ [key, x.1] x.2 := by
  cases held : v.membersAt? key with
  | none => simp [held] at mem
  | some members =>
    rw [held] at mem
    exact .member rfl (Value.membersAtSome held) mem

theorem contentsInline (owner : Comes doc .schema l v) (plain : refOf v = none) {shape : Shape}
    (mem : e ∈ contents shape v l) : Inline doc e.2 e.1 := by
  have one : ∀ {path : List String} {s : Slot}, s ∈ slots .schema → s.role = .schema →
      Held v s path e.1 → e.2 = l.join path → Inline doc e.2 e.1 := by
    intro path s slot kind held place
    rw [place]
    exact owner.inline (by simp [entered, plain, held.object]) slot kind held
  have option : ∀ {key : String} {x : Option Value}, (∀ y, x = some y → v.get? key = some y) →
      (⟨key, .one, .schema⟩ : Slot) ∈ slots .schema → e ∈ optionWithin l key x →
      Inline doc e.2 e.1 := by
    intro key x read slot mem
    obtain ⟨held, place⟩ := memOptionWithin mem
    exact one slot rfl (.one rfl (read _ held)) place
  cases memContents mem with
  | item key listed mem =>
    obtain ⟨items, i, held, found, place⟩ := memItemsWithin mem
    have slot : (⟨key, .items, .schema⟩ : Slot) ∈ slots .schema := by
      rcases listed with rfl | rfl | rfl <;> decide
    exact one slot rfl (.item rfl (Value.itemsAtSome held) found) (place.trans (joinTwo l _ _).symm)
  | property mem =>
    obtain ⟨members, name, held, found, place⟩ := memMembersWithin mem
    have slot : (⟨"properties", .members, .schema⟩ : Slot) ∈ slots .schema := by decide
    have member : Held v ⟨"properties", .members, .schema⟩ ["properties", name] e.1 :=
      .member rfl (Value.membersAtSome held) found
    exact one slot rfl member (place.trans (joinTwo l _ _).symm)
  | not mem => exact option (fun _ held => held) (by decide) mem
  | additional mem => exact option (fun _ held => additionalSchemaSource held) (by decide) mem
  | items mem => exact option (fun _ held => itemsSchemaSource held) (by decide) mem

def ListsInline (doc : Value) (list : Value → Location → List (Value × Location)) : Prop :=
  ∀ {v l}, Comes doc .parameter l v → refOf v = none → ∀ e ∈ list v l, Inline doc e.2 e.1

variable {list : Value → Location → List (Value × Location)}

theorem ListsInline.follow (lists : ListsInline doc list) {raw : Value}
    (comes : Comes doc .parameter l raw)
    (mem : e ∈ followed doc raw fun r => list r.value (r.locationOr l)) : Inline doc e.2 e.1 := by
  cases resolved : resolve doc raw with
  | error _ => simp [followed, resolved] at mem
  | ok r =>
    simp only [followed, resolved] at mem
    exact lists (comes.follow resolved) (resolvedPlain resolved) e mem

theorem optionInline {role : Hoist.Role} (owner : Comes doc role l v) (open_ : entered role v = true)
    (slot : (⟨"schema", .one, .schema⟩ : Slot) ∈ slots role)
    (mem : e ∈ optionWithin l "schema" (v.get? "schema")) : Inline doc e.2 e.1 := by
  obtain ⟨held, place⟩ := memOptionWithin mem
  rw [place]
  exact owner.inline open_ slot rfl (.one rfl held)

theorem mediaInline (lists : ListsInline doc list) (owner : Comes doc .media l v)
    (mem : e ∈ mediaSchemas doc list v l) : Inline doc e.2 e.1 := by
  rcases List.mem_append.mp mem with own | inner
  · exact optionInline owner rfl (by decide) own
  · obtain ⟨encoding, inside, inner⟩ := List.mem_flatMap.mp inner
    obtain ⟨header, inside', listed⟩ := List.mem_flatMap.mp inner
    have first : Comes doc .encoding _ _ := owner.held rfl (by decide) (heldMember inside)
    have comes : Comes doc .parameter _ _ := first.held rfl (by decide) (heldMember inside')
    rw [← Hoist.joinAppend] at comes
    exact lists.follow comes listed

theorem contentInline (lists : ListsInline doc list) {role : Hoist.Role} (owner : Comes doc role l v)
    (open_ : entered role v = true) (slot : (⟨"content", .members, .media⟩ : Slot) ∈ slots role)
    (mem : e ∈ (contentOf v).flatMap fun e => mediaSchemas doc list e.2 (l.join ["content", e.1])) :
    Inline doc e.2 e.1 := by
  obtain ⟨media, inside, listed⟩ := List.mem_flatMap.mp mem
  exact mediaInline lists (owner.held open_ slot (heldMember inside)) listed

theorem headersInline (doc : Value) (steps : Nat) : ListsInline doc (headerSchemas doc steps) := by
  induction steps with
  | zero =>
    intro v l _ _ e mem
    cases mem
  | succ steps ih =>
    intro v l owner plain e mem
    have open_ : entered .parameter v = true := by simp [entered, plain]
    unfold headerSchemas at mem
    split at mem
    · rename_i content held
      have same : contentOf v = content := by simp [contentOf, held]
      exact contentInline ih owner open_ (by decide) (same ▸ mem)
    · exact optionInline owner open_ (by decide) mem

variable {cx : Setting}

theorem bodyInline (owner : Comes cx.doc .content l v) (plain : refOf v = none)
    (mem : e ∈ contentSchemas cx l (contentOf v)) : Inline cx.doc e.2 e.1 :=
  contentInline (headersInline cx.doc cx.bound) owner (by simp [entered, plain]) (by decide) mem

theorem responseInline (owner : Comes cx.doc .response l v) (plain : refOf v = none)
    (mem : e ∈ contentSchemas cx l (contentOf v) ++ responseHeaders cx l v) :
    Inline cx.doc e.2 e.1 := by
  have open_ : entered .response v = true := by simp [entered, plain]
  rcases List.mem_append.mp mem with own | inner
  · exact contentInline (headersInline cx.doc cx.bound) owner open_ (by decide) own
  · obtain ⟨header, inside, listed⟩ := List.mem_flatMap.mp inner
    have comes : Comes cx.doc .parameter _ _ := owner.held open_ (by decide) (heldMember inside)
    exact ListsInline.follow (headersInline cx.doc cx.bound) comes listed

theorem codeInline {code : ResponseCode} {raw : Value}
    (at_ : Tree.get? (l.child code.code) cx.doc = some raw)
    (owner : Comes cx.doc .response (l.child code.code) raw) (mem : e ∈ codeSchemas cx l code) :
    Inline cx.doc e.2 e.1 := by
  simp only [codeSchemas, at_] at mem
  cases resolved : resolve cx.doc raw with
  | error _ => simp [followed, resolved] at mem
  | ok r =>
    simp only [followed, resolved] at mem
    exact responseInline (owner.follow resolved) (resolvedPlain resolved) mem

end Lists

/- Where a node stands the build has come to a schema. One that is no type is part of something, or it
is the whole document. -/
structure Arrival (doc : Value) (l : Location) (isType : Bool) : Prop where
  comes : ∃ v, Comes doc .schema l v
  inline : isType = false → l ≠ .root → ∃ v, Inline doc l v ∧ refOf v = none

def Arrived (doc : Value) (g : Graph) : Prop := ∀ e ∈ g.skeleton, Arrival doc e.1 e.2

def Sent (doc v : Value) (l : Location) : Prop :=
  Inline doc l v ∨ ((refOf v).isSome = true ∧
    ∀ r, resolve doc v = .ok r → Comes doc .schema (r.locationOr l) r.value)

section Nodes
variable {cx : Setting} {g g' : Graph} {v : Value} {l : Location}

theorem Arrived.same {doc : Value} (h : Arrived doc g) (same : g'.skeleton = g.skeleton) :
    Arrived doc g' := by
  rw [Arrived, same]
  exact h

theorem Sent.comes {doc : Value} (h : Sent doc v l) {r : Resolved} (resolved : resolve doc v = .ok r) :
    Comes doc .schema (r.locationOr l) r.value :=
  h.elim (fun inline => inline.comes.follow resolved) fun led => led.2 r resolved

theorem Sent.arrival {doc : Value} (h : Sent doc v l) {r : Resolved} (resolved : resolve doc v = .ok r) :
    Arrival doc (r.locationOr l) (r.location?.bind Location.last?).isSome := by
  refine ⟨⟨_, h.comes resolved⟩, fun unnamed below => ?_⟩
  have implied := impliedIff resolved l
  rw [unnamed] at implied
  have plain : refOf v = none := by
    by_contra named
    simp [Option.isSome_iff_ne_none.mpr named, below] at implied
  cases resolved.symm.trans (resolvePlain plain)
  exact ⟨v, h.resolve_right fun led => by simp [plain] at led, plain⟩

theorem schemaNodeArrives {steps : Nat} {id : SchemaId}
    (sent : Sent cx.doc v l) (h : Arrived cx.doc g) (run : schemaNode cx steps v l g = .ok (id, g')) :
    Arrived cx.doc g' := by
  induction steps generalizing v l g g' id with
  | zero => exact (runThrow.mp run).elim
  | succ steps ih =>
    obtain ⟨r, resolved, ⟨_, rfl⟩ | ⟨_, c, _, rfl, filled⟩⟩ := runSchemaNode.mp run
    · exact h
    · obtain ⟨_, ids, k, m, runs, rfl⟩ := fillSchemaRuns filled
      have planted : Arrived cx.doc (g.plant (newSchema c r.value (r.locationOr l)
          (r.location?.bind Location.last?))) := by
        intro e mem
        rw [plantSkeleton] at mem
        rcases List.mem_append.mp mem with old | new
        · exact h e old
        · rw [List.mem_singleton.mp new]
          exact sent.arrival resolved
      have inner : Arrived cx.doc m := by
        refine runs.keeps (R := fun a b => Arrived cx.doc a → Arrived cx.doc b) (fun _ => id)
          (fun first rest before => rest (first before)) (fun e mem _ _ _ one before => ?_) planted
        have part := contentsInline (sent.comes resolved) (resolvedPlain resolved) mem
        exact ih (.inl part) before one
      exact inner.same (fillSkeleton m _ k)

theorem Toured.arrives {es : List (Value × Location)}
    (toured : Toured cx es g g') (inline : ∀ e ∈ es, Inline cx.doc e.2 e.1) (h : Arrived cx.doc g) :
    Arrived cx.doc g' := by
  obtain ⟨ids, runs⟩ := toured.runs
  exact runs.keeps (R := fun a b => Arrived cx.doc a → Arrived cx.doc b) (fun _ => id)
    (fun first rest before => rest (first before))
    (fun e mem _ _ _ one before => schemaNodeArrives (.inl (inline e mem)) before one) h

theorem parameterNodeArrives (lawful : cx.doc.lawful = true) (owner : Comes cx.doc .parameter l v)
    (plain : refOf v = none) (h : Arrived cx.doc g) {id : ParameterId}
    (run : parameterNode cx l v g = .ok (id, g')) : Arrived cx.doc g' := by
  obtain ⟨_, rfl⟩ | ⟨_, rfl, p, schema, m, _, _, visited, rfl⟩ := runParameterNode run
  · exact h
  · have toured := headerAtTours lawful (owner.reads lawful) _ _ _ visited
    exact (toured.arrives (headersInline _ _ owner plain) (h.same rfl)).same rfl

theorem bodyNodeArrives (lawful : cx.doc.lawful = true) (owner : Comes cx.doc .content l v)
    (plain : refOf v = none) (h : Arrived cx.doc g) {name : String} {preferred : List String}
    {id : BodyId} (run : bodyNode cx l v name preferred g = .ok (id, g')) : Arrived cx.doc g' := by
  obtain ⟨_, rfl⟩ | ⟨_, rfl, b, _, m, schemas, _, _, _, _, visited, _, rfl⟩ := runBodyNode run
  · exact h
  · have toured := mediaOfContentTours lawful (owner.reads lawful) _ _ _ visited
    exact (toured.arrives (fun e mem => bodyInline owner plain mem) (h.same rfl)).same rfl

theorem responseNodeArrives (lawful : cx.doc.lawful = true) {preferred : List ResponseCode}
    (owners : ∀ code ∈ preferred, ∃ raw, Comes cx.doc .response (l.child code.code) raw)
    (h : Arrived cx.doc g) {id : ResponseId} (run : responseNode cx l preferred g = .ok (id, g')) :
    Arrived cx.doc g' := by
  obtain ⟨_, rfl⟩ | ⟨_, rfl, r, carried, m, rfl, rfl, _, visited, rfl⟩ := runResponseNode run
  · exact h
  · have codes : Tours cx (responseAsks cx r)
        (r.preferred.foldlM (visitCode cx r.location) ⟨[], r.hasAny⟩) :=
      Tours.foldlM (fun code _ acc => visitCodeTours lawful code acc) _
    refine ((codes _ _ _ visited).arrives (fun e mem => ?_) (h.same rfl)).same rfl
    obtain ⟨code, inside, listed⟩ := List.mem_flatMap.mp mem
    obtain ⟨raw, owner⟩ := owners code inside
    exact codeInline (owner.reads lawful) owner listed

end Nodes

section Operations
variable {cx : Setting} {g g' : Graph} {doc v : Value} {l : Location} {f : Found}

theorem memberRead {key : String} {x : Value} (at_ : Tree.get? l doc = some v)
    (read : Tree.get? (l.child key) doc = some x) (word : Tree.index? key = none) :
    v.get? key = some x := by
  rw [Tree.getChild, at_, Option.bind_some] at read
  cases v with
  | obj members => exact read
  | _ => simp [Tree.step?, word] at read

theorem parametersCome (lawful : doc.lawful = true) {role : Hoist.Role} (owner : Comes doc role l v)
    (open_ : entered role v = true)
    (slot : (⟨"parameters", .items, .parameter⟩ : Slot) ∈ slots role) {e : ParamKey × Location}
    (mem : e ∈ declaredParameters doc l) : ∃ x, Comes doc .parameter e.2 x := by
  unfold declaredParameters at mem
  simp only at mem
  split at mem
  · rename_i items here
    have held : v.get? "parameters" = some (.arr items) :=
      memberRead (owner.reads lawful) here (by decide)
    obtain ⟨⟨raw, i⟩, inside, told⟩ := List.mem_filterMap.mp mem
    have found := List.mk_mem_zipIdx_iff_getElem?.mp inside
    have item : Held v ⟨"parameters", .items, .parameter⟩ ["parameters", toString i] raw :=
      .item rfl held found
    have comes : Comes doc .parameter (l.join ["parameters", toString i]) raw :=
      owner.held open_ slot item
    unfold declaredParameter at told
    split at told
    · rename_i r resolved
      obtain ⟨_, _, rfl⟩ := Option.map_eq_some_iff.mp told
      rw [joinTwo] at comes
      exact ⟨_, comes.follow resolved⟩
    · contradiction
  · cases mem

structure Grounded (doc : Value) (f : Found) : Prop where
  operation : Comes doc .operation f.place f.operation
  item : ∃ item, Comes doc .pathItem f.item item ∧ refOf item = none

theorem itemHeld (plain : PathItems.Plain doc) (h : PathItems.Stands doc f) : ∃ members,
    Held doc ⟨"paths", .members, .pathItem⟩ ["paths", f.pattern] (.obj members) ∧
    refOf (.obj members) = none ∧ members.lookup f.verb = some f.operation := by
  obtain ⟨entries, members, here, held, inside⟩ := h.member
  exact ⟨members, .member rfl (Value.membersAtSome here) (Entries.mem_of_lookup held),
    plain entries f.pattern _ here held, inside⟩

theorem verbSlot (h : PathItems.Stands doc f) (spelled : Text.asciiLowercase f.verb = f.verb) :
    (⟨f.verb, .one, .operation⟩ : Slot) ∈ slots .pathItem := by
  have valid := h.valid
  simp only [Operation.isOperation, Bool.and_eq_true, List.contains_iff_mem, spelled] at valid
  exact List.mem_cons_of_mem _ (List.mem_map_of_mem valid.2)

theorem groundedOf (plain : PathItems.Plain doc) (h : PathItems.Stands doc f) : Grounded doc f := by
  obtain ⟨members, at_, bare, inside⟩ := itemHeld plain h
  have above : Comes doc .pathItem f.item (.obj members) := by
    rw [h.item]
    exact Comes.document.held rfl (by decide) at_
  refine ⟨?_, _, above, bare⟩
  by_cases spelled : Text.asciiLowercase f.verb = f.verb
  · exact above.held (by simp [entered, bare]) (verbSlot h spelled) (.one rfl inside)
  · exact above.turn (.operation bare inside h.valid spelled)

def PlanArrives (doc : Value) : InputPlan → Prop
  | .parameter p => Comes doc .parameter p.location p.value ∧ refOf p.value = none
  | .body b => Comes doc .content b.location b.value ∧ refOf b.value = none

theorem planArrives (lawful : cx.doc.lawful = true) (grounded : Grounded cx.doc f)
    {plans : List InputPlan} (planned : InputPlans cx f plans) (sound : ∀ p ∈ plans, SoundInput cx p) :
    ∀ p ∈ plans, PlanArrives cx.doc p := by
  intro plan mem
  cases plan with
  | parameter p =>
    obtain ⟨at_, bare⟩ := sound _ mem
    obtain ⟨k, _, chosen⟩ := planned.chosenOf mem
    obtain ⟨item, above, plain⟩ := grounded.item
    have comes : ∃ x, Comes cx.doc .parameter p.location x := by
      rcases Option.or_eq_some_iff.mp chosen with own | ⟨_, shared⟩
      · have listed := List.mem_reverse.mp (Entries.mem_of_lookup own)
        exact parametersCome lawful grounded.operation rfl (by decide) listed
      · have listed := List.mem_reverse.mp (Entries.mem_of_lookup shared)
        exact parametersCome lawful above (by simp [entered, plain]) (by decide) listed
    obtain ⟨x, comes⟩ := comes
    cases (comes.reads lawful).symm.trans at_
    exact ⟨comes, bare⟩
  | body b =>
    obtain ⟨at_, bare, _⟩ := sound _ mem
    have declared := memBodies mem
    rw [planned.bodies, Option.mem_toList] at declared
    obtain ⟨raw, held, told⟩ := Option.bind_eq_some_iff.mp declared
    have slot : (⟨"requestBody", .one, .content⟩ : Slot) ∈ slots .operation := by decide
    have comes : Comes cx.doc .content (f.place.join ["requestBody"]) raw :=
      grounded.operation.held rfl slot (.one rfl held)
    cases resolved : resolve cx.doc raw with
    | error _ => simp [resolved] at told
    | ok r =>
      simp only [resolved, Option.map_eq_some_iff] at told
      obtain ⟨_, _, place⟩ := told
      have there := comes.follow resolved
      rw [show r.locationOr (f.place.join ["requestBody"]) = b.location from place] at there
      have same : r.value = b.value := Option.some.inj ((there.reads lawful).symm.trans at_)
      exact ⟨same ▸ there, bare⟩

theorem codesCome (lawful : cx.doc.lawful = true) (grounded : Grounded cx.doc f)
    {verb : String} {codes : List ResponseCode}
    (ranked : preferredResponses cx verb f.operation g = .ok (codes, g)) :
    ∀ code ∈ codes, ∃ raw,
      Comes cx.doc .response ((f.place.child "responses").child code.code) raw := by
  intro code mem
  have at_ := grounded.operation.reads lawful
  obtain ⟨raw, _, there, _⟩ := (preferredResponsesSound at_ ranked).2 code mem
  cases held : f.operation.membersAt? "responses" with
  | none =>
    simp only [preferredResponses, held, runPure] at ranked
    simp [ranked.1] at mem
  | some responses =>
    have here := Tree.childAt at_ (Value.membersAtSome held)
    rw [Tree.getChild, here] at there
    have inside : (code.code, raw) ∈ (f.operation.membersAt? "responses").getD [] := by
      rw [held]
      exact Entries.mem_of_lookup there
    have comes : Comes cx.doc .response (f.place.join ["responses", code.code]) raw :=
      grounded.operation.held rfl (by decide) (heldMember inside)
    exact ⟨raw, joinTwo f.place _ _ ▸ comes⟩

theorem inputNodesArrive (lawful : cx.doc.lawful = true) {plans : List InputPlan}
    (each : ∀ p ∈ plans, PlanArrives cx.doc p) {result : Except OperationError (List MethodInput)}
    (h : Arrived cx.doc g) (run : inputNodes cx plans g = .ok (result, g')) : Arrived cx.doc g' := by
  induction plans generalizing g result with
  | nil =>
    obtain ⟨_, rfl⟩ := runPure.mp run
    exact h
  | cons plan more ih =>
    obtain ⟨here, later⟩ := List.forall_mem_cons.mp each
    obtain ⟨i, m, first, others⟩ := runInputNodes.mp run
    have after : Arrived cx.doc m := by
      cases plan with
      | parameter p =>
        simp only [inputNode, runBind, runPure] at first
        obtain ⟨_, _, made, _, rfl⟩ := first
        exact parameterNodeArrives lawful here.1 here.2 h made
      | body b =>
        simp only [inputNode, runBind, runPure] at first
        obtain ⟨_, _, made, _, rfl⟩ := first
        exact bodyNodeArrives lawful here.1 here.2 h made
    rcases others with ⟨_, _, _, rfl⟩ | ⟨_, _, others, _⟩
    · exact after
    · exact ih later after others

theorem methodNodeArrives (lawful : cx.doc.lawful = true) (grounded : Grounded cx.doc f)
    (h : Arrived cx.doc g) {result : Except OperationError MethodId}
    (run : methodNode cx (planOf cx.config f) f.operation g = .ok (result, g')) :
    Arrived cx.doc g' := by
  have at_ := grounded.operation.reads lawful
  have inputs : ∀ {plans result m}, inputPlans cx f.operation f.place g = .ok (plans, g) →
      inputNodes cx (Preference.sortInputs InputPlan.order plans) g = .ok (result, m) →
      Arrived cx.doc m := by
    intro plans result m asked visited
    have perm : (Preference.sortInputs InputPlan.order plans).Perm plans := Stable.sortPerm _ plans
    have each := planArrives lawful grounded (inputPlansSource asked)
      (inputPlansSound at_ asked).2
    exact inputNodesArrive lawful (fun p mem => each p (perm.mem_iff.mp mem)) h visited
  cases methodNodeSource run with
  | failed asked _ visited => exact inputs asked visited
  | made asked ranked visited settled _ added =>
    have settles := responseNodeArrives lawful (codesCome lawful grounded ranked)
      (inputs asked visited) settled
    exact settles.same (added ▸ rfl)

theorem visitOperationArrives (lawful : cx.doc.lawful = true) (grounded : Grounded cx.doc f)
    (h : Arrived cx.doc g) {u : PUnit} (run : visitOperation cx f g = .ok (u, g')) :
    Arrived cx.doc g' := by
  have grouped : ∀ {name id m}, apiNamed cx name g = .ok (id, m) → Arrived cx.doc m := by
    intro name id m run
    cases apiNamedSource run with
    | known _ same | held _ _ _ same => exact same ▸ h
    | made _ _ _ added => exact h.same (added ▸ rfl)
  cases visitOperationSource run with
  | omitted _ same => exact same ▸ h
  | dropped _ named _ => exact grouped named
  | @made api m result m' _ named _ node listed =>
    have after := methodNodeArrives lawful grounded (grouped named) node
    cases result <;> exact after.same (listed ▸ rfl)

theorem modelSent {l : Location} (mem : l ∈ modelPlaces cx) :
    Sent cx.doc (reference l.toPointer) l := by
  refine .inr ⟨rfl, fun r resolved => ?_⟩
  unfold modelPlaces at mem
  split at mem
  · obtain ⟨⟨name, x⟩, inside, rfl⟩ := List.mem_map.mp mem
    cases here : Tree.get? ⟨["components", "schemas"]⟩ cx.doc with
    | none => simp [here] at inside
    | some schemas =>
      cases above : Tree.get? ⟨["components"]⟩ cx.doc with
      | none =>
        have nowhere := Tree.getChild (⟨["components"]⟩ : Location) "schemas" cx.doc
        rw [above] at nowhere
        exact absurd (here.symm.trans nowhere) (Option.some_ne_none _)
      | some components =>
        have outer : cx.doc.get? "components" = some components :=
          memberRead (l := .root) rfl above (by decide)
        have inner : components.get? "schemas" = some schemas := memberRead above here (by decide)
        cases schemas with
        | obj members =>
          rw [here] at inside
          have first : Comes cx.doc .components ⟨["components"]⟩ components :=
            Comes.document.held rfl (s := ⟨"components", .one, .components⟩) (by decide) (.one rfl outer)
          have second : Comes cx.doc .definition ⟨["components", "schemas", name]⟩ x :=
            first.held rfl (s := ⟨"schemas", .members, .definition⟩) (by decide)
              (.member rfl inner inside)
          exact second.turn (.definition resolved)
        | _ => simp [here, Value.members?] at inside
  · cases mem

theorem walkArrives {u : PUnit} (run : walk cx .empty = .ok (u, g)) (lawful : cx.doc.lawful = true)
    {found : List Found} (operations : Declaration.operations cx.doc = .ok found)
    (grounded : ∀ f ∈ found, Grounded cx.doc f) : Arrived cx.doc g := by
  obtain ⟨m, us, visits, last⟩ := (walkParts operations).mp run
  have nothing : Arrived cx.doc .empty := fun _ mem => by simp [skeleton, Graph.empty] at mem
  have visited : Arrived cx.doc m :=
    visits.keeps (R := fun a b => Arrived cx.doc a → Arrived cx.doc b) (fun _ => id)
      (fun first rest before => rest (first before))
      (fun f mem _ _ _ one before => visitOperationArrives lawful (grounded f mem) before one) nothing
  obtain ⟨_, runs⟩ := runForM.mp last
  refine runs.keeps (R := fun a b => Arrived cx.doc a → Arrived cx.doc b) (fun _ => id)
    (fun first rest before => rest (first before)) (fun l mem _ _ _ one before => ?_) visited
  simp only [Hydrate.registerAt, runBind, runPure] at one
  obtain ⟨_, _, registered, _, rfl⟩ := one
  exact schemaNodeArrives (modelSent mem) before registered

end Operations
end ApiGraph.Build
