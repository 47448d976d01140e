import ApiGraph.Proofs.Groups
import ApiGraph.Proofs.Identity
import ApiGraph.Proofs.Replay
import ApiGraph.Proofs.Types

/-! Reading the outline of a built graph. All that an outline names can be made again from the
document, so reading fails only at an operation that leads elsewhere, and what it makes is told
in the same way, up to the names of bodies. -/
namespace ApiGraph

def InputOutline.location : InputOutline → Location
  | .parameter l => l
  | .request l _ _ => l

def InputOutline.name? : InputOutline → Option String
  | .parameter _ => none
  | .request _ name _ => some name

def InputOutline.unnamed : InputOutline → InputOutline
  | .parameter l => .parameter l
  | .request l _ preferred => .request l "" preferred

def MethodOutline.unnamed (m : MethodOutline) : MethodOutline :=
  { m with inputs := m.inputs.map InputOutline.unnamed }

def ApiOutline.unnamed (a : ApiOutline) : ApiOutline :=
  { a with methods := a.methods.map MethodOutline.unnamed }

def Outline.bodyNames (o : Outline) : List (List (List (Option String))) :=
  o.apis.map fun a => a.methods.map fun m => m.inputs.map InputOutline.name?

theorem mapsDetermine {α β γ : Type} {p : α → β} {q : α → γ}
    (both : ∀ x y, p x = p y → q x = q y → x = y) {xs ys : List α} (first : xs.map p = ys.map p)
    (second : xs.map q = ys.map q) : xs = ys := by
  induction xs generalizing ys with
  | nil => simpa using first.symm
  | cons x xs ih =>
    cases ys with
    | nil => simp at first
    | cons y ys =>
      simp only [List.map_cons, List.cons.injEq] at first second
      rw [both x y first.1 second.1, ih first.2 second.2]

theorem apisDetermined {o o' : Outline}
    (same : o.apis.map ApiOutline.unnamed = o'.apis.map ApiOutline.unnamed)
    (names : o.bodyNames = o'.bodyNames) : o.apis = o'.apis := by
  have inputs : ∀ x y : InputOutline, x.unnamed = y.unnamed → x.name? = y.name? → x = y := by
    intro x y unnamed name
    cases x <;> cases y <;> simp_all [InputOutline.unnamed, InputOutline.name?]
  have methods : ∀ m m' : MethodOutline, m.unnamed = m'.unnamed →
      m.inputs.map InputOutline.name? = m'.inputs.map InputOutline.name? → m = m' := by
    intro m m' unnamed names
    cases m
    cases m'
    simp only [MethodOutline.unnamed, MethodOutline.mk.injEq] at unnamed
    obtain ⟨rfl, rfl, rfl, listed, rfl⟩ := unnamed
    rw [mapsDetermine inputs listed names]
  refine mapsDetermine (fun a a' unnamed names => ?_) same names
  cases a
  cases a'
  simp only [ApiOutline.unnamed, ApiOutline.mk.injEq] at unnamed
  obtain ⟨rfl, rfl, rfl, listed⟩ := unnamed
  rw [mapsDetermine methods listed names]

end ApiGraph

namespace ApiGraph.Hydrate
open Json Build ApiGraph.Graph Resolve

inductive ReadableInput (cx : Setting) (g : Graph) : InputOutline → Prop
  | parameter {p} (made : MadeParameter cx g p) : ReadableInput cx g (.parameter p.location)
  | request {b} (made : MadeBody cx g b) (files : FiledBody cx g b) :
      ReadableInput cx g (.request b.location b.name b.preferred)

structure ReadableMethod (cx : Setting) (g : Graph) (m : MethodOutline) : Prop where
  kind : m.kind = .method
  inputs : ∀ x ∈ m.inputs, ReadableInput cx g x
  response : ∃ r, MadeResponse cx g r ∧ SettledResponse cx g r ∧
    m.response = ⟨.return, r.location, r.preferred⟩
  below : m.response.location = m.location.child "responses"
  secured : ∃ s, Security.extract cx.doc m.location = .ok s

structure ReadableApi (cx : Setting) (g : Graph) (a : ApiOutline) : Prop where
  kind : a.kind = .api
  tag : ∃ tag, Tree.get? a.location cx.doc = some tag ∧ refOf tag = none ∧
    (tag.textAt? "name").getD "" = a.name
  methods : ∀ m ∈ a.methods, ReadableMethod cx g m

structure ReadableApis (cx : Setting) (g : Graph) (apis : List ApiOutline) : Prop where
  each : ∀ a ∈ apis, ReadableApi cx g a
  apart : (apis.map ApiOutline.location).Nodup
  methodsApart : ((apis.flatMap ApiOutline.methods).map MethodOutline.location).Nodup

section Built
variable {cx : Setting} {g : Graph}

theorem inputReadable (builds : Builds .whole cx .all .empty g) {i : MethodInput}
    {x : InputOutline} (told : g.inputOutline i = some x) : ReadableInput cx g x := by
  cases i with
  | parameter id =>
    obtain ⟨p, held, rfl⟩ := Option.map_eq_some_iff.mp told
    exact .parameter (builds.parameters.fresh emptyIndexed _ p (Nat.zero_le _) held).2
  | body id =>
    obtain ⟨b, held, rfl⟩ := Option.map_eq_some_iff.mp told
    obtain ⟨_, files, made⟩ := builds.bodies.fresh emptyIndexed _ b (Nat.zero_le _) held
    exact .request made files

theorem methodReadable (builds : Builds .whole cx .all .empty g) {places : List Location}
    (methods : AddsMethods cx places .empty g) {id : MethodId} {o : MethodOutline}
    (told : g.methodOutline id = some o) : ReadableMethod cx g o := by
  simp only [methodOutline, bind, Option.bind_eq_some_iff, Option.some.injEq] at told
  obtain ⟨m, held, r, held', rfl⟩ := told
  have made := methods.made.fresh emptyIndexed _ m (Nat.zero_le _) held
  obtain ⟨_, settled, replay⟩ := builds.responses.fresh emptyIndexed _ r (Nat.zero_le _) held'
  refine ⟨rfl, fun x mem => ?_, ⟨r, replay, settled, rfl⟩, ?_, made.secured⟩
  · obtain ⟨i, _, told⟩ := List.mem_filterMap.mp mem
    exact inputReadable builds told
  · obtain ⟨r', same, placed⟩ := made.response
    cases held'.symm.trans same
    exact placed

theorem outlineReadable (builds : Builds .whole cx .all .empty g) {places : List Location}
    (methods : AddsMethods cx places .empty g) (grouped : Grouped cx.doc g)
    (once : (g.methods.map Method.location).Nodup) : ReadableApis cx g g.outline.apis where
  each a mem := by
    obtain ⟨api, inside, rfl⟩ := List.mem_map.mp mem
    refine ⟨rfl, grouped.tags api inside, fun m listed => ?_⟩
    obtain ⟨id, _, told⟩ := List.mem_filterMap.mp listed
    exact methodReadable builds methods told
  apart := by
    have named : (g.outline.apis.map ApiOutline.location).map (fun l =>
        (((Tree.get? l cx.doc).bind (·.textAt? "name")).getD "")) = g.apis.map Api.name := by
      simp only [outline, List.map_map]
      refine List.map_congr_left fun a mem => ?_
      obtain ⟨tag, at_, _, name⟩ := grouped.tags a mem
      simp [at_, name]
    exact List.Nodup.of_map _ (named ▸ grouped.names)
  methodsApart := by
    have flat : (g.outline.apis.flatMap ApiOutline.methods).map MethodOutline.location =
        (g.apis.flatMap Api.methods).filterMap fun id =>
          (g.methodOutline id).map MethodOutline.location := by
      simp only [outline, List.flatMap_map, List.map_flatMap, List.filterMap_flatMap,
        List.map_filterMap]
    rw [flat]
    refine List.Nodup.filterMap (fun a b l ha hb => ?_) grouped.listed
    have stands : ∀ {id : MethodId}, l ∈ (g.methodOutline id).map MethodOutline.location →
        g.location? (.method id) = some l := by
      intro id told
      obtain ⟨o, held, rfl⟩ := Option.map_eq_some_iff.mp told
      simp only [methodOutline, bind, Option.bind_eq_some_iff, Option.some.injEq] at held
      obtain ⟨m, found, r, _, rfl⟩ := held
      simp [location?, found]
    exact methodsApart once (stands ha) (stands hb)

end Built

def ReadMethod (h : Graph) (id : MethodId) (o : MethodOutline) : Prop :=
  ∃ m r xs, h.method? id = some m ∧ List.Forall₂ (fun i x => h.inputOutline i = some x) m.inputs xs ∧
    h.response? m.response = some r ∧
    MethodOutline.unnamed ⟨.method, m.location, m.pattern, xs, ⟨.return, r.location, r.preferred⟩⟩ =
      o.unnamed

theorem ReadMethod.mono {k : Scope} {h h' : Graph} (e : Edits k h h') {id : MethodId}
    {o : MethodOutline} (read : ReadMethod h id o) : ReadMethod h' id o := by
  obtain ⟨m, r, xs, held, inputs, held', told⟩ := read
  obtain ⟨r', found, placed, preferred⟩ := e.keepsResponse held'
  refine ⟨m, r', xs, e.keepsMethod held, inputs.imp fun _ _ => e.keepsInput, found, ?_⟩
  rw [placed, preferred]
  exact told

theorem toldInputs {h : Graph} {is : List MethodInput} {xs : List InputOutline}
    (told : List.Forall₂ (fun i x => h.inputOutline i = some x) is xs) :
    is.filterMap h.inputOutline = xs := by
  induction told with
  | nil => rfl
  | cons head _ ih => rw [List.filterMap_cons_some head, ih]

theorem ReadMethod.told {h : Graph} {id : MethodId} {o : MethodOutline}
    (read : ReadMethod h id o) : ∃ o', h.methodOutline id = some o' ∧ o'.unnamed = o.unnamed := by
  obtain ⟨m, r, xs, held, inputs, held', told⟩ := read
  refine ⟨_, ?_, told⟩
  simp [methodOutline, held, held', toldInputs inputs]

def landing (doc : Value) (m : MethodOutline) : Location :=
  match resolveAt doc m.location with
  | .ok (_, l) => l
  | .error _ => m.location

def landed (doc : Value) (m : MethodOutline) : MethodOutline :=
  { m with location := landing doc m }

def Lands (doc : Value) (m : MethodOutline) : Prop :=
  ∃ v s, resolveAt doc m.location = .ok (v, landing doc m) ∧
    Security.extract doc (landing doc m) = .ok s

/- The nodes of a method may stand where they are read. -/
structure Room (doc : Value) (free : Location → Prop) (named : Location → String → Prop)
    (m : MethodOutline) : Prop where
  own : free (landing doc m)
  inputs : ∀ x ∈ m.inputs, free x.location
  names : ∀ l n p, .request l n p ∈ m.inputs → named l n
  response : free m.response.location

def ReadApi (doc : Value) (h : Graph) (a : Api) (o : ApiOutline) : Prop :=
  a.location = o.location ∧ a.name = o.name ∧
    List.Forall₂ (fun id m => ReadMethod h id (landed doc m)) a.methods o.methods

theorem ReadApi.mono {k : Scope} {doc : Value} {h h' : Graph} (e : Edits k h h') {a : Api}
    {o : ApiOutline} (read : ReadApi doc h a o) : ReadApi doc h' a o :=
  ⟨read.1, read.2.1, read.2.2.imp fun _ _ => ReadMethod.mono e⟩

theorem childApart {l l' : Location} {k k' : String} (same : l.child k = l'.child k') : l = l' := by
  simp only [Location.child, Location.mk.injEq] at same
  exact congrArg Location.mk (List.append_inj_left' same rfl)

section Reading
variable {cx : Setting} {G : Graph} {free : Location → Prop} {named : Location → String → Prop}
  {Q : Graph → Prop} {g : Graph}

def inputSites : Sites := ⟨fun _ => True, fun _ => True, fun _ => False⟩

theorem hydrateInputReads (lawful : cx.doc.lawful = true) (kept : Keeps cx G.schemas free named Q)
    {x : InputOutline} (readable : ReadableInput cx G x) (here : free x.location)
    (names : ∀ l n p, x = .request l n p → named l n) (holds : Q g)
    (builds : Builds .whole cx .all .empty g) :
    ∃ i g' x', hydrateInput cx x g = .ok (i, g') ∧ Q g' ∧ Builds .inputs cx inputSites g g' ∧
      g'.inputOutline i = some x' ∧ x'.unnamed = x.unnamed := by
  have indexed := builds.grows.indexed emptyIndexed
  cases readable with
  | @parameter p made =>
    have again := made
    obtain ⟨v, at_, plain, _⟩ := again
    obtain ⟨id, g', run, holds'⟩ :=
      parameterNodeSucceeds lawful kept made (.refl _) here at_ g holds
    have making : Builds .inputs cx inputSites g g' ∧ _ :=
      parameterNodeBuilds lawful at_ plain trivial run
    obtain ⟨p', held, placed⟩ := Option.map_eq_some_iff.mp (making.2 indexed)
    refine ⟨.parameter id, g', .parameter p'.location, ?_, holds', making.1, ?_, ?_⟩
    · simp only [hydrateInput, runBind, runResolveAt, runPure]
      exact ⟨_, g, ⟨resolveAtFinal at_ plain, rfl⟩, id, g', run, rfl, rfl⟩
    · simp [inputOutline, held]
    · simp [InputOutline.unnamed, placed]
  | @request b made files =>
    have again := made
    obtain ⟨v, at_, plain, _⟩ := again
    obtain ⟨w, at', filed⟩ := files
    cases at_.symm.trans at'
    obtain ⟨id, g', run, holds'⟩ :=
      bodyNodeSucceeds lawful kept made (.refl _) here (names _ _ _ rfl) at_ g holds
    have making : Builds .inputs cx inputSites g g' ∧ _ :=
      bodyNodeBuilds lawful at_ plain trivial filed.ranked run
    obtain ⟨b', held, placed, own⟩ := making.2 indexed
    -- a body that was there before ranks its media types in the same way
    have preferred : b'.preferred = b.preferred := by
      have all := builds.trans ((making.1.widen (.inr (.inr rfl))).anywhere)
      obtain ⟨_, ⟨w, at', filed'⟩, _⟩ := all.bodies.fresh emptyIndexed _ b' (Nat.zero_le _) held
      rw [placed] at at'
      cases at_.symm.trans at'
      rw [filed'.ranked, filed.ranked]
    refine ⟨.body id, g', .request b'.location b'.name b'.preferred, ?_, holds', making.1, ?_, ?_⟩
    · simp only [hydrateInput, runBind, runResolveAt, runPure]
      exact ⟨_, g, ⟨resolveAtFinal at_ plain, rfl⟩, id, g', run, rfl, rfl⟩
    · simp [inputOutline, held]
    · simp [InputOutline.unnamed, placed, preferred]

theorem hydrateInputsRead (lawful : cx.doc.lawful = true) (kept : Keeps cx G.schemas free named Q)
    {xs : List InputOutline} (readable : ∀ x ∈ xs, ReadableInput cx G x)
    (here : ∀ x ∈ xs, free x.location) (names : ∀ l n p, .request l n p ∈ xs → named l n)
    (holds : Q g) (builds : Builds .whole cx .all .empty g) :
    ∃ is g' xs', xs.mapM (hydrateInput cx) g = .ok (is, g') ∧ Q g' ∧
      Builds .inputs cx inputSites g g' ∧
      List.Forall₂ (fun i x => g'.inputOutline i = some x) is xs' ∧
      xs'.map InputOutline.unnamed = xs.map InputOutline.unnamed := by
  induction xs generalizing g with
  | nil => exact ⟨[], g, [], rfl, holds, .refl g, .nil, rfl⟩
  | cons x xs ih =>
    obtain ⟨i, m, x', run, holds₁, first, told, same⟩ := hydrateInputReads lawful kept
      (readable x List.mem_cons_self) (here x List.mem_cons_self)
      (fun l n p eq => names l n p (eq ▸ List.mem_cons_self)) holds builds
    obtain ⟨is, g', xs', runs, holds₂, rest, tolds, sames⟩ := ih
      (fun y mem => readable y (List.mem_cons_of_mem _ mem))
      (fun y mem => here y (List.mem_cons_of_mem _ mem))
      (fun l n p mem => names l n p (List.mem_cons_of_mem _ mem)) holds₁
      (builds.trans (first.widen (.inr (.inr rfl))).anywhere)
    refine ⟨i :: is, g', x' :: xs', ?_, holds₂, first.trans rest, ?_, ?_⟩
    · exact runMapM.mpr (.cons run (runMapM.mp runs))
    · exact .cons (rest.grows.edits.keepsInput told) tolds
    · simp [same, sames]

theorem responseReads (lawful : cx.doc.lawful = true) (kept : Keeps cx G.schemas free named Q)
    {r : Response} (made : MadeResponse cx G r) (settled : SettledResponse cx G r)
    (here : free r.location) (holds : Q g) (builds : Builds .whole cx .all .empty g)
    (fresh : ∀ r' ∈ g.responses, r'.location ≠ r.location) :
    ∃ id g' r', responseNode cx r.location r.preferred g = .ok (id, g') ∧ Q g' ∧
      Builds .inputs cx ⟨fun _ => True, fun _ => True, (· = r.location)⟩ g g' ∧
      g'.response? id = some r' ∧ r'.location = r.location ∧ r'.preferred = r.preferred := by
  have indexed := builds.grows.indexed emptyIndexed
  obtain ⟨id, g', run, holds'⟩ := responseNodeSucceeds lawful kept made (.refl _) here g holds
  have making : Builds .inputs cx ⟨fun _ => True, fun _ => True, (· = r.location)⟩ g g' ∧ _ :=
    responseNodeBuilds lawful settled.codes rfl run
  obtain ⟨r', held, placed, own | old⟩ := making.2 indexed
  · exact ⟨id, g', r', run, holds', making.1, held, placed, own⟩
  · obtain ⟨r₀, found, same⟩ := Option.map_eq_some_iff.mp (indexed.placed old)
    exact (fresh r₀ (List.mem_of_getElem? found) same).elim

theorem hydrateMethodReads (lawful : cx.doc.lawful = true) (kept : Keeps cx G.schemas free named Q)
    {m : MethodOutline} (readable : ReadableMethod cx G m) (lands : Lands cx.doc m)
    (room : Room cx.doc free named m) (holds : Q g) (builds : Builds .whole cx .all .empty g)
    (fresh : ∀ r ∈ g.responses, r.location ≠ m.response.location) :
    ∃ id g', hydrateMethod cx m g = .ok (id, g') ∧ Q g' ∧ Builds .whole cx .all g g' ∧
      ReadMethod g' id (landed cx.doc m) ∧ g'.apis = g.apis ∧
      ∀ r ∈ g'.responses, r ∈ g.responses ∨ r.location = m.response.location := by
  obtain ⟨v, secured, found, extracted⟩ := lands
  obtain ⟨r, made, settled, response⟩ := readable.response
  obtain ⟨is, g₁, xs, inputs, holds₁, first, told, same⟩ := hydrateInputsRead lawful kept
    readable.inputs room.inputs room.names holds builds
  have still : ∀ r ∈ g₁.responses, r ∈ g.responses := fun r mem =>
    (first.responsesWithin (builds.grows.indexed emptyIndexed) mem).resolve_right id
  have builds₁ := builds.trans (first.widen (.inr (.inr rfl))).anywhere
  have site : m.response.location = r.location := by rw [response]
  obtain ⟨rid, g₂, r', answered, holds₂, second, held, placed, preferred⟩ := responseReads lawful kept
    made settled (site ▸ room.response) holds₁ builds₁
    fun r₀ mem => site ▸ fresh r₀ (still r₀ mem)
  let verb := Text.asciiLowercase ((landing cx.doc m).last?.getD "")
  let operationId := Operation.operationId v verb m.pattern
  let method : Method := ⟨landing cx.doc m, m.pattern, verb, operationId,
    Words.setCase operationId cx.config.operationCase, is, rid, secured⟩
  have added : Edit .whole g₂ (g₂.addMethod method).2 := .method method
  have third : Builds .whole cx .all g₂ (g₂.addMethod method).2 := .edit added rfl rfl rfl rfl rfl
  have both := (first.widen (.inr (.inr rfl))).anywhere.trans (second.widen (.inr (.inr rfl))).anywhere
  refine ⟨⟨g₂.methods.length⟩, (g₂.addMethod method).2, ?_, ?_, both.trans third, ?_, ?_, ?_⟩
  · simp only [hydrateMethod, security, runBind, runResolveAt, runLift, mapErrorOk, runGet, runSet,
      runPure]
    refine ⟨_, g, ⟨found, rfl⟩, is, g₁, inputs, rid, g₂, ?_, secured, g₂, ⟨extracted, rfl⟩, g₂, g₂,
      ⟨rfl, rfl⟩, ⟨⟩, _, rfl, rfl, rfl⟩
    rw [response]
    exact answered
  · exact kept.other holds₂ rfl rfl (otherNode rfl (by simp) room.own)
  · refine ⟨method, r', xs, by simp [method?, addMethod],
      told.imp fun _ _ => second.grows.edits.keepsInput, held, ?_⟩
    simp [MethodOutline.unnamed, landed, method, readable.kind, response, placed, preferred, same]
  · have one := first.grows.edits.keepsMethods (by simp)
    have two := second.grows.edits.keepsMethods (by simp)
    exact two.1.trans one.1
  · intro r₀ mem
    rcases second.responsesWithin (builds₁.grows.indexed emptyIndexed) mem with old | new
    · exact .inl (still r₀ old)
    · exact .inr (site ▸ new)

theorem hydrateMethodsRead (lawful : cx.doc.lawful = true) (kept : Keeps cx G.schemas free named Q)
    {ms : List MethodOutline} (readable : ∀ m ∈ ms, ReadableMethod cx G m)
    (lands : ∀ m ∈ ms, Lands cx.doc m) (room : ∀ m ∈ ms, Room cx.doc free named m)
    (apart : (ms.map MethodOutline.location).Nodup) (old : List Api) (a : Api)
    (groups : g.apis = old ++ [a]) (holds : Q g) (builds : Builds .whole cx .all .empty g)
    (fresh : ∀ r ∈ g.responses, ∀ m ∈ ms, r.location ≠ m.response.location) :
    ∃ ids g', (ms.forM fun m => do
        let id ← hydrateMethod cx m
        modify fun g : Graph => g.enlist ⟨old.length⟩ id) g = .ok (⟨⟩, g') ∧ Q g' ∧
      Builds .whole cx .all g g' ∧ g'.apis = old ++ [{ a with methods := a.methods ++ ids }] ∧
      List.Forall₂ (fun id m => ReadMethod g' id (landed cx.doc m)) ids ms ∧
      ∀ r ∈ g'.responses, r ∈ g.responses ∨ ∃ m ∈ ms, r.location = m.response.location := by
  induction ms generalizing g a with
  | nil => exact ⟨[], g, rfl, holds, .refl g, by simpa using groups, .nil, fun r mem => .inl mem⟩
  | cons m ms ih =>
    have own := readable m List.mem_cons_self
    obtain ⟨id, g₁, run, holds₁, first, read, apis, within⟩ := hydrateMethodReads lawful kept own
      (lands m List.mem_cons_self) (room m List.mem_cons_self) holds builds
      fun r mem => fresh r mem m List.mem_cons_self
    let a' : Api := { a with methods := a.methods ++ [id] }
    have listed : (g₁.enlist ⟨old.length⟩ id).apis = old ++ [a'] := by
      simp only [Graph.enlist, apis, groups]
      exact modifyMiddle old [] a fun a => { a with methods := a.methods ++ [id] }
    have enlists : Builds .whole cx .all g₁ (g₁.enlist ⟨old.length⟩ id) :=
      .edit (.enlist ⟨old.length⟩ id) rfl rfl rfl rfl rfl
    have so := first.trans enlists
    have holds₂ : Q (g₁.enlist ⟨old.length⟩ id) := kept.other holds₁ rfl rfl fun _ => .inr rfl
    have others : m.location ∉ ms.map MethodOutline.location := (List.nodup_cons.mp apart).1
    have fresh' : ∀ r ∈ (g₁.enlist ⟨old.length⟩ id).responses, ∀ m' ∈ ms,
        r.location ≠ m'.response.location := by
      intro r mem m' mem' same
      rcases within r mem with before | here
      · exact fresh r before m' (List.mem_cons_of_mem _ mem') same
      · have below := own.below.symm.trans (here.symm.trans (same.trans
          (readable m' (List.mem_cons_of_mem _ mem')).below))
        have same' := childApart below
        exact others (same' ▸ List.mem_map_of_mem mem')
    obtain ⟨ids, g', runs, holds', rest, apis', reads, within'⟩ := ih
      (fun m' mem => readable m' (List.mem_cons_of_mem _ mem))
      (fun m' mem => lands m' (List.mem_cons_of_mem _ mem))
      (fun m' mem => room m' (List.mem_cons_of_mem _ mem)) (List.nodup_cons.mp apart).2 a' listed
      holds₂ (builds.trans so) fresh'
    refine ⟨id :: ids, g', ?_, holds', so.trans rest, ?_, ?_, fun r mem => ?_⟩
    · refine forMCons ?_ runs
      simp only [runBind, runModify]
      exact ⟨id, g₁, run, rfl⟩
    · simp [apis', a']
    · exact .cons ((read.mono enlists.grows.edits).mono rest.grows.edits) reads
    · rcases within' r mem with before | ⟨m', mem', same⟩
      · rcases within r before with older | here
        · exact .inl older
        · exact .inr ⟨m, List.mem_cons_self, here⟩
      · exact .inr ⟨m', List.mem_cons_of_mem _ mem', same⟩

theorem hydrateApiReads (lawful : cx.doc.lawful = true) (kept : Keeps cx G.schemas free named Q)
    {a : ApiOutline} (readable : ReadableApi cx G a) (lands : ∀ m ∈ a.methods, Lands cx.doc m)
    (here : free a.location) (room : ∀ m ∈ a.methods, Room cx.doc free named m)
    (apart : (a.methods.map MethodOutline.location).Nodup) (holds : Q g)
    (builds : Builds .whole cx .all .empty g) (free : ∀ a' ∈ g.apis, a'.location ≠ a.location)
    (fresh : ∀ r ∈ g.responses, ∀ m ∈ a.methods, r.location ≠ m.response.location) :
    ∃ g' a', hydrateApi cx a g = .ok (⟨⟩, g') ∧ Q g' ∧ Builds .whole cx .all g g' ∧
      g'.apis = g.apis ++ [a'] ∧ ReadApi cx.doc g' a' a ∧
      ∀ r ∈ g'.responses, r ∈ g.responses ∨ ∃ m ∈ a.methods, r.location = m.response.location := by
  obtain ⟨tag, at_, plain, name⟩ := readable.tag
  have indexed := builds.grows.indexed emptyIndexed
  have unlisted : ∀ id, g.nodeAt a.location ≠ some (.api id) := by
    intro id held
    obtain ⟨a', found, same⟩ := Option.map_eq_some_iff.mp (indexed.placed held)
    exact free a' (List.mem_of_getElem? found) same
  let group : Api := ⟨a.location, (tag.textAt? "name").getD "", []⟩
  have added : Builds .whole cx .all g (g.addApi group).2 :=
    .edit (.api group unlisted) rfl rfl rfl rfl rfl
  have holds₁ : Q (g.addApi group).2 := kept.other holds rfl rfl (otherNode rfl (by simp) here)
  obtain ⟨ids, g', runs, holds', rest, apis, reads, within⟩ := hydrateMethodsRead lawful kept
    readable.methods lands room apart g.apis group (g := (g.addApi group).2) rfl
    holds₁ (builds.trans added) fresh
  have found : apiAt cx a.location g = .ok (⟨g.apis.length⟩, (g.addApi group).2) := by
    simp only [apiAt, runBind, runGet]
    refine ⟨g, g, ⟨rfl, rfl⟩, ?_⟩
    change StateT.run _ _ = _
    split
    · rename_i id held
      exact (unlisted id held).elim
    · simp only [StateT.run, runBind, runResolveAt, runGet, runSet, runPure]
      exact ⟨_, g, ⟨resolveAtFinal at_ plain, rfl⟩, g, g, ⟨rfl, rfl⟩, ⟨⟩, _, rfl, rfl, rfl⟩
  refine ⟨g', { group with methods := ids }, ?_, holds', added.trans rest, by simp [apis, group],
    ⟨rfl, name, reads⟩, within⟩
  simp only [hydrateApi, runBind]
  exact ⟨_, _, found, runs⟩

theorem hydrateApisRead (lawful : cx.doc.lawful = true) (kept : Keeps cx G.schemas free named Q)
    {os : List ApiOutline} (readable : ReadableApis cx G os)
    (lands : ∀ o ∈ os, ∀ m ∈ o.methods, Lands cx.doc m) (here : ∀ o ∈ os, free o.location)
    (room : ∀ o ∈ os, ∀ m ∈ o.methods, Room cx.doc free named m) (holds : Q g)
    (builds : Builds .whole cx .all .empty g)
    (unlisted : ∀ a ∈ g.apis, ∀ o ∈ os, a.location ≠ o.location)
    (fresh : ∀ r ∈ g.responses, ∀ o ∈ os, ∀ m ∈ o.methods, r.location ≠ m.response.location) :
    ∃ g' as, os.forM (hydrateApi cx) g = .ok (⟨⟩, g') ∧ Q g' ∧ Builds .whole cx .all g g' ∧
      g'.apis = g.apis ++ as ∧ List.Forall₂ (ReadApi cx.doc g') as os := by
  induction os generalizing g with
  | nil => exact ⟨g, [], rfl, holds, .refl g, by simp, .nil⟩
  | cons o os ih =>
    have inside : o ∈ o :: os := List.mem_cons_self
    have outside : ∀ {o' : ApiOutline}, o' ∈ os → o' ∈ o :: os := List.mem_cons_of_mem _
    obtain ⟨each, groups, methods⟩ := readable
    rw [List.flatMap_cons, List.map_append, List.nodup_append] at methods
    obtain ⟨own, others, disjoint⟩ := methods
    have groups := List.nodup_cons.mp groups
    obtain ⟨g₁, a, run, holds₁, first, apis, read, within⟩ := hydrateApiReads lawful kept
      (each o inside) (lands o inside) (here o inside) (room o inside) own holds builds
      (fun a mem => unlisted a mem o inside) (fun r mem => fresh r mem o inside)
    have unlisted' : ∀ a' ∈ g₁.apis, ∀ o' ∈ os, a'.location ≠ o'.location := by
      intro a' mem o' mem' same
      rcases List.mem_append.mp (apis ▸ mem) with old | new
      · exact unlisted a' old o' (outside mem') same
      · rw [List.mem_singleton.mp new, read.1] at same
        exact groups.1 (same ▸ List.mem_map_of_mem mem')
    have fresh' : ∀ r ∈ g₁.responses, ∀ o' ∈ os, ∀ m ∈ o'.methods,
        r.location ≠ m.response.location := by
      intro r mem o' mem' m listed same
      rcases within r mem with old | ⟨m', listed', same'⟩
      · exact fresh r old o' (outside mem') m listed same
      · have below := ((each o inside).methods m' listed').below
        have below' := ((each o' (outside mem')).methods m listed).below
        have clash := childApart (below.symm.trans (same'.symm.trans (same.trans below')))
        exact disjoint _ (List.mem_map_of_mem listed') _
          (List.mem_map_of_mem (List.mem_flatMap.mpr ⟨o', mem', listed⟩)) clash
    obtain ⟨g', as, runs, holds', rest, apis', reads⟩ := ih
      ⟨fun o' mem => each o' (outside mem), groups.2, others⟩
      (fun o' mem => lands o' (outside mem)) (fun o' mem => here o' (outside mem))
      (fun o' mem => room o' (outside mem)) holds₁ (builds.trans first) unlisted' fresh'
    refine ⟨g', a :: as, ?_, holds', first.trans rest, ?_, .cons (read.mono rest.grows.edits) reads⟩
    · exact forMCons run runs
    · rw [apis', apis, List.append_assoc]
      rfl

theorem toldApis {doc : Value} {h : Graph} {os : List ApiOutline}
    (kinds : ∀ o ∈ os, o.kind = .api) (read : List.Forall₂ (ReadApi doc h) h.apis os) :
    h.outline.apis.map ApiOutline.unnamed = os.map fun o =>
      ApiOutline.unnamed { o with methods := o.methods.map (landed doc) } := by
  have methods : ∀ {ids : List MethodId} {ms : List MethodOutline},
      List.Forall₂ (fun id m => ReadMethod h id (landed doc m)) ids ms →
      (ids.filterMap h.methodOutline).map MethodOutline.unnamed =
        (ms.map (landed doc)).map MethodOutline.unnamed := by
    intro ids ms reads
    induction reads with
    | nil => rfl
    | cons head _ ih =>
      obtain ⟨o, told, same⟩ := head.told
      rw [List.filterMap_cons_some told]
      simp [same, ih]
  simp only [outline, List.map_map]
  generalize h.apis = as at read
  induction read with
  | nil => rfl
  | @cons a o as os head _ ih =>
    obtain ⟨location, name, listed⟩ := head
    rw [List.map_cons, List.map_cons, ih fun o' mem => kinds o' (List.mem_cons_of_mem _ mem)]
    simp only [Function.comp_apply, ApiOutline.unnamed, methods listed, location, name,
      kinds o List.mem_cons_self]

end Reading

structure Finished (cx : Setting) (g : Graph) : Prop where
  lawful : cx.doc.lawful = true
  builds : Builds .whole cx .all .empty g
  methods : ∃ places, AddsMethods cx places .empty g
  grouped : Grouped cx.doc g
  once : (g.methods.map Method.location).Nodup

theorem builtFinished {fragments : List Value} {o : Pipeline.Options} {p : Pipeline.Prepared}
    {c : Config} {doc : Value} {g : Graph} (prepared : Pipeline.prepare fragments o = .ok p)
    (lawful : p.doc.lawful = true) (built : build c p.doc = (doc, .ok g)) :
    ∃ cx, Setting.make doc c = .ok cx ∧ cx.doc = doc ∧ Finished cx g := by
  have once := builtMethodsApart prepared lawful built
  have lawful' := buildLawful lawful built
  obtain ⟨cx, made, walked⟩ := graphOfSource (buildSource built).2
  obtain ⟨request, accept, _, _, rfl⟩ := settingSource made
  obtain ⟨found, _, builds, methods⟩ := walkBuilds lawful' walked
  exact ⟨_, made, rfl, lawful', builds, ⟨_, methods⟩, walkGroups lawful' walked, once⟩

namespace Finished
variable {cx : Setting} {g : Graph}

theorem mirrored (fin : Finished cx g) : Mirrored cx.doc g.schemas := mirroredSchemas fin.builds

theorem typed (fin : Finished cx g) : Typed g := fin.builds.grows.edits.typed emptyTyped

theorem readable (fin : Finished cx g) : ReadableApis cx g g.outline.apis := by
  obtain ⟨places, methods⟩ := fin.methods
  exact outlineReadable fin.builds methods fin.grouped fin.once

theorem typeKnown (fin : Finished cx g) {l : Location} (mem : l ∈ g.typePlaces) :
    ∃ v, Known cx.doc g.schemas v l ∧ refOf v = none ∧ l.Spelled := by
  simp only [typePlaces, typesOf, skeleton, List.filter_map, List.map_map, List.mem_map,
    List.mem_filter, Function.comp_apply] at mem
  obtain ⟨s, ⟨inside, isType⟩, rfl⟩ := mem
  obtain ⟨v, mirrors⟩ := fin.mirrored s inside
  obtain ⟨i, found⟩ := List.getElem?_of_mem inside
  obtain ⟨name, told⟩ := Option.isSome_iff_exists.mp isType
  have stands : StandsFor cx.doc g.schemas v s.location ⟨i⟩ :=
    ⟨⟨v, none⟩, s, resolvePlain mirrors.plain, found, rfl⟩
  exact ⟨v, ⟨mirrors.located, _, stands⟩, mirrors.plain, (fin.typed.named s inside name told).1⟩

theorem registerSucceeds (fin : Finished cx g) {l : Location} (mem : l ∈ g.typePlaces) :
    Succeeds (fun _ => True) (registerType cx l) := by
  obtain ⟨v, known, plain, spelled⟩ := fin.typeKnown mem
  intro m _
  obtain ⟨id, m', run, _⟩ := (registerTypeEnds (g := m)
    (knownPermits fin.lawful fin.mirrored) known plain spelled).succeeds
  exact ⟨id, m', run, trivial⟩

end Finished

def registerAt (cx : Setting) (l : Location) : Walk PUnit := do
  let _ ← registerType cx l

theorem hydrateWalkParts (cx : Setting) (o : Outline) {g : Graph} {u : PUnit} :
    hydrateWalk cx o .empty = .ok (u, g) ↔ ∃ h,
      (o.types.map TypeOutline.location).forM (registerAt cx) .empty = .ok (⟨⟩, h) ∧
        o.apis.forM (hydrateApi cx) h = .ok (⟨⟩, g) := by
  have types : (o.types.map TypeOutline.location).forM (registerAt cx) =
      o.types.forM fun t => registerAt cx t.location := List.forM_map
  rw [types]
  exact runBind.trans ⟨fun ⟨_, h, first, rest⟩ => ⟨h, first, rest⟩,
    fun ⟨h, first, rest⟩ => ⟨⟨⟩, h, first, rest⟩⟩

theorem registerAtTravels (cx : Setting) (l : Location) : Travels cx (registerAt cx l) := by
  intro g u g' run
  simp only [registerAt, runBind, runPure] at run
  obtain ⟨id, _, registered, _, rfl⟩ := run
  exact .single (.register registered)

theorem outlineReads {cx : Setting} {g m : Graph} {free : Location → Prop}
    {named : Location → String → Prop} {Q : Graph → Prop} (fin : Finished cx g)
    (kept : Keeps cx g.schemas free named Q)
    (lands : ∀ o ∈ g.outline.apis, ∀ m ∈ o.methods, Lands cx.doc m)
    (here : ∀ o ∈ g.outline.apis, free o.location)
    (room : ∀ o ∈ g.outline.apis, ∀ m ∈ o.methods, Room cx.doc free named m)
    (types : g.typePlaces.forM (registerAt cx) .empty = .ok (⟨⟩, m)) (holds : Q m) :
    ∃ h, hydrateWalk cx g.outline .empty = .ok (⟨⟩, h) ∧ Q h ∧ Builds .whole cx .all .empty h ∧
      h.outline.apis.map ApiOutline.unnamed = g.outline.apis.map fun o =>
        ApiOutline.unnamed { o with methods := o.methods.map (landed cx.doc) } := by
  have trips : Trips cx .empty m :=
    Travels.forM (fun l _ => registerAtTravels cx l) _ _ _ types
  have builds : Builds .whole cx .all .empty m :=
    (Builds.schemas fin.lawful trips).widen (.inr (.inr rfl))
  have edits := (trips.grows fin.lawful).edits
  have apis : m.apis = [] := (edits.keepsMethods (by simp)).1
  have responses : m.responses = [] := edits.keepsInputs.2.2
  obtain ⟨h, as, run, holds', rest, listed, reads⟩ := hydrateApisRead fin.lawful kept fin.readable
    lands here room holds builds (by simp [apis]) (by simp [responses])
  refine ⟨h, (hydrateWalkParts cx _).mpr ⟨m, ?_, run⟩, holds', builds.trans rest, ?_⟩
  · rw [fin.typed.places]
    exact types
  · rw [apis, List.nil_append] at listed
    exact toldApis (fun o mem => (fin.readable.each o mem).kind) (listed ▸ reads)

end ApiGraph.Hydrate
