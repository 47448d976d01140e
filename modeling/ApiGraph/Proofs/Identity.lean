import ApiGraph.Proofs.BuiltGraph
import ApiGraph.Proofs.PathItems

/-! One node for each place. The index holds one node for a spelled location, the one made there
last, and a walk asks it for one kind at a time. So there is one node for each place of the document
as long as no place is spelled in two ways, as `0` and `00` do for the first element of a list, and
none serves two kinds. -/
namespace ApiGraph.Tree
open Json

inductive Step where
  | key (k : String)
  | index (i : Nat)
  deriving DecidableEq, Repr

/- The place that segments lead to, however they spell it; past what the document holds the segments
stand for themselves. -/
def position : Value → List String → List Step
  | _, [] => []
  | .obj members, s :: r => .key s :: (match members.lookup s with
    | some x => position x r
    | none => r.map .key)
  | .arr items, s :: r => match index? s with
    | some i => .index i :: (match items[i]? with
      | some x => position x r
      | none => r.map .key)
    | none => (s :: r).map .key
  | _, segments => segments.map .key

def SamePlace (doc : Value) (l l' : Location) : Prop :=
  position doc l.segments = position doc l'.segments

instance (doc : Value) (l l' : Location) : Decidable (SamePlace doc l l') :=
  inferInstanceAs (Decidable (_ = _))

end ApiGraph.Tree

namespace ApiGraph.Graph
open Json ApiGraph.Tree

theorem NodeRef.sameKindRefl (n : NodeRef) : n.SameKind n := by cases n <;> trivial

def NodeRef.number : NodeRef → Nat
  | .api _ => 0
  | .method _ => 1
  | .parameter _ => 2
  | .body _ => 3
  | .response _ => 4
  | .schema _ => 5

theorem NodeRef.sameNumber {n m : NodeRef} (h : NodeRef.number n = NodeRef.number m) : n.SameKind m := by
  cases n <;> cases m <;> first | trivial | simp [NodeRef.number] at h

def placed (g : Graph) : List (Location × Nat) :=
  g.apis.map (·.location, 0) ++ (g.methods.map (·.location, 1) ++
    (g.parameters.map (·.location, 2) ++ (g.bodies.map (·.location, 3) ++
      (g.responses.map (·.location, 4) ++ g.schemas.map (·.location, 5)))))

theorem memPlaced {g : Graph} {n : NodeRef} {l : Location} (stands : g.location? n = some l) :
    (l, NodeRef.number n) ∈ g.placed := by
  simp only [placed, List.mem_append, List.mem_map]
  cases n with
  | api id =>
    obtain ⟨a, held, rfl⟩ := Option.map_eq_some_iff.mp stands
    exact .inl ⟨a, List.mem_of_getElem? held, rfl⟩
  | method id =>
    obtain ⟨m, held, rfl⟩ := Option.map_eq_some_iff.mp stands
    exact .inr (.inl ⟨m, List.mem_of_getElem? held, rfl⟩)
  | parameter id =>
    obtain ⟨p, held, rfl⟩ := Option.map_eq_some_iff.mp stands
    exact .inr (.inr (.inl ⟨p, List.mem_of_getElem? held, rfl⟩))
  | body id =>
    obtain ⟨b, held, rfl⟩ := Option.map_eq_some_iff.mp stands
    exact .inr (.inr (.inr (.inl ⟨b, List.mem_of_getElem? held, rfl⟩)))
  | response id =>
    obtain ⟨r, held, rfl⟩ := Option.map_eq_some_iff.mp stands
    exact .inr (.inr (.inr (.inr (.inl ⟨r, List.mem_of_getElem? held, rfl⟩))))
  | schema id =>
    obtain ⟨s, held, rfl⟩ := Option.map_eq_some_iff.mp stands
    exact .inr (.inr (.inr (.inr (.inr ⟨s, List.mem_of_getElem? held, rfl⟩))))

def Mixed (g : Graph) : Prop :=
  ∀ n m l, g.location? n = some l → g.location? m = some l → n ≠ m →
    (∃ a b, n = .method a ∧ m = .method b) ∨
      ∃ k k', g.location? k = some l ∧ g.location? k' = some l ∧ ¬ k.SameKind k'

theorem Makes.mixed {g g' : Graph} {n : NodeRef} {l : Location} (made : Makes g n l g')
    (indexed : Indexed g)
    (alone : (∃ id, n = .method id) ∨ ∀ m, g.nodeAt l = some m → ¬ m.SameKind n)
    (h : Mixed g) : Mixed g' := by
  -- an old node keeps its location
  have kept : ∀ {m k}, g.location? m = some k → g'.location? m = some k := by
    intro m k stands
    rw [made.others m, stands]
    rintro rfl
    simp [made.fresh] at stands
  -- a node beside the new one is of another kind, or shows that one is there
  have beside : ∀ m, m ≠ n → g'.location? m = some l → (∃ a b, n = .method a ∧ m = .method b) ∨
      ∃ k k', g'.location? k = some l ∧ g'.location? k' = some l ∧ ¬ k.SameKind k' := by
    intro m other stands
    have before : g.location? m = some l := by rw [← made.others m other, stands]
    rcases alone with ⟨id, rfl⟩ | alone
    · cases m with
      | method b => exact .inl ⟨id, b, rfl, rfl⟩
      | _ => exact .inr ⟨_, _, made.here, stands, fun kinds => kinds⟩
    · obtain ⟨m', held⟩ := indexed.known before
      exact .inr ⟨m', n, kept (indexed.placed held), made.here, alone m' held⟩
  intro a b k ha hb apart
  by_cases first : a = n
  · subst first
    cases made.here.symm.trans ha
    exact beside b (Ne.symm apart) hb
  · by_cases second : b = n
    · subst second
      cases made.here.symm.trans hb
      rcases beside a first ha with ⟨i, j, hi, hj⟩ | mixed
      · exact .inl ⟨j, i, hj, hi⟩
      · exact .inr mixed
    · rw [made.others a first] at ha
      rw [made.others b second] at hb
      rcases h a b k ha hb apart with methods | ⟨c, c', hc, hc', kinds⟩
      · exact .inl methods
      · exact .inr ⟨c, c', kept hc, kept hc', kinds⟩

theorem editsMixed {k : Scope} {g : Graph} (e : Edits k empty g) : Mixed g := by
  have both : Indexed g ∧ Mixed g := by
    refine e.keeps (P := fun g => Indexed g ∧ Mixed g) ?_ ⟨emptyIndexed, ?_⟩
    · rintro a b edit ⟨indexed, mixed⟩
      rcases edit.effect with same | ⟨n, l, made, alone⟩
      · refine ⟨same.indexed indexed, ?_⟩
        intro n m l
        rw [same.places]
        exact mixed n m l
      · exact ⟨made.indexed indexed, made.mixed indexed alone mixed⟩
    · intro n m l stands
      obtain ⟨_, held⟩ := emptyIndexed.known stands
      simp [nodeAt, empty] at held
  exact both.2

/- One node for each place, found under its location, by every reference that leads there. -/
structure Identified (doc : Value) (g : Graph) : Prop where
  apart : ∀ n m l l', g.location? n = some l → g.location? m = some l' → SamePlace doc l l' → n = m
  found : ∀ n l, g.location? n = some l → g.nodeAt l = some n
  referred : ∀ v v' place place' r r' a b, Resolve.resolve doc v = .ok r →
    Resolve.resolve doc v' = .ok r' → SamePlace doc (r.locationOr place) (r'.locationOr place') →
    Build.StandsFor doc g.schemas v place a → Build.StandsFor doc g.schemas v' place' b → a = b

def OneSpelling (doc : Value) (g : Graph) : Prop :=
  ∀ n m l l', g.location? n = some l → g.location? m = some l' → SamePlace doc l l' →
    n.SameKind m ∧ l = l'

theorem oneSpellingPlaced {doc : Value} {g : Graph}
    (alike : ∀ a ∈ g.placed, ∀ b ∈ g.placed, SamePlace doc a.1 b.1 → a = b) : OneSpelling doc g := by
  intro n m l l' hn hm same
  obtain ⟨placed, kind⟩ := Prod.mk.inj (alike _ (memPlaced hn) _ (memPlaced hm) same)
  exact ⟨NodeRef.sameNumber kind, placed⟩

theorem methodsApart {g : Graph} (once : (g.methods.map Method.location).Nodup) {a b : MethodId}
    {l : Location} (ha : g.location? (.method a) = some l) (hb : g.location? (.method b) = some l) :
    a = b := by
  obtain ⟨i⟩ := a
  obtain ⟨j⟩ := b
  have at_ : (g.methods.map Method.location)[i]? = some l := by rw [List.getElem?_map]; exact ha
  have at' : (g.methods.map Method.location)[j]? = some l := by rw [List.getElem?_map]; exact hb
  obtain ⟨inside, _⟩ := List.getElem?_eq_some_iff.mp at_
  rw [(List.getElem?_inj inside once).mp (at_.trans at'.symm)]

theorem identifiedIff {doc : Value} {g : Graph} (indexed : Indexed g) (mixed : Mixed g)
    (once : (g.methods.map Method.location).Nodup) : Identified doc g ↔ OneSpelling doc g := by
  constructor
  · intro h n m l l' hn hm same
    cases h.apart n m l l' hn hm same
    exact ⟨NodeRef.sameKindRefl n, Option.some.inj (hn.symm.trans hm)⟩
  · intro h
    have apart : ∀ n m l l', g.location? n = some l → g.location? m = some l' →
        SamePlace doc l l' → n = m := by
      intro n m l l' hn hm same
      obtain ⟨_, rfl⟩ := h n m l l' hn hm same
      by_contra other
      rcases mixed n m l hn hm other with ⟨a, b, rfl, rfl⟩ | ⟨k, k', hk, hk', kinds⟩
      · exact other (congrArg NodeRef.method (methodsApart once hn hm))
      · exact kinds (h k k' l l hk hk' rfl).1
    refine ⟨apart, fun n l stands => ?_, ?_⟩
    · obtain ⟨m, held⟩ := indexed.known stands
      cases apart n m l l stands (indexed.placed held) rfl
      exact held
    · intro v v' place place' r r' a b resolved resolved' same ha hb
      obtain ⟨_, s, again, found, placed⟩ := ha
      obtain ⟨_, t, again', found', placed'⟩ := hb
      cases resolved.symm.trans again
      cases resolved'.symm.trans again'
      have at_ : g.location? (.schema a) = some (r.locationOr place) := by
        simp [location?, schema?, found, placed]
      have at' : g.location? (.schema b) = some (r'.locationOr place') := by
        simp [location?, schema?, found', placed']
      cases apart _ _ _ _ at_ at' same
      rfl

end ApiGraph.Graph

namespace ApiGraph.Build
open Json ApiGraph.Graph ApiGraph.Tree

theorem builtMethodsApart {fragments : List Value} {o : Pipeline.Options} {p : Pipeline.Prepared}
    {c : Config} {doc : Value} {g : Graph} (prepared : Pipeline.prepare fragments o = .ok p)
    (lawful : p.doc.lawful = true) (built : build c p.doc = (doc, .ok g)) :
    (g.methods.map Method.location).Nodup := by
  have lawful' := buildLawful lawful built
  obtain ⟨⟨n, declared⟩, walked⟩ := buildSource built
  have plain := PathItems.declarePlain lawful (PathItems.preparePlain prepared) declared
  obtain ⟨cx, found, _, operations, _, methods⟩ := graphOfBuilds lawful' walked
  obtain ⟨ms, added, inside⟩ := methods.places
  rw [PathItems.operationsPlain lawful' plain] at operations
  cases operations
  rw [added]
  exact (PathItems.operationsApart lawful').sublist inside

/- The graph of a prepared document has one node for each place exactly if the places of its nodes
are spelled in one way and serve one kind each. -/
theorem nodesIdentified {fragments : List Value} {o : Pipeline.Options} {p : Pipeline.Prepared}
    {c : Config} {doc : Value} {g : Graph} (prepared : Pipeline.prepare fragments o = .ok p)
    (lawful : p.doc.lawful = true) (built : build c p.doc = (doc, .ok g)) :
    Identified doc g ↔ OneSpelling doc g := by
  obtain ⟨_, _, _, _, builds, _⟩ := graphOfBuilds (buildLawful lawful built) (buildSource built).2
  exact identifiedIff (builds.grows.indexed emptyIndexed) (editsMixed builds.grows.edits)
    (builtMethodsApart prepared lawful built)

theorem generateSource {fragments : List Value} {o : Pipeline.Options} {c : Config}
    {r : Pipeline.Generated} (h : Pipeline.generate fragments o c = .ok r) :
    ∃ p, Pipeline.prepare fragments o = .ok p ∧ build c p.doc = (r.doc, .ok r.graph) := by
  unfold Pipeline.generate at h
  cases prepared : Pipeline.prepare fragments o with
  | error e => simp [prepared, bind, Except.bind] at h
  | ok p =>
    simp only [prepared, bind, Except.bind] at h
    split at h
    · rename_i doc g built
      cases h
      exact ⟨p, rfl, built⟩
    · contradiction

def bareOptions : Pipeline.Options := ⟨[], [], none⟩

theorem noteIdentified : ∃ p doc g, Pipeline.prepare [noteDocument] bareOptions = .ok p ∧
    build Config.default p.doc = (doc, .ok g) ∧ g.nodeCount = 8 ∧ Identified doc g := by
  have facts : (Pipeline.generate [noteDocument] bareOptions Config.default).toOption.map
      (fun r => (r.graph.nodeCount, decide (∀ a ∈ r.graph.placed, ∀ b ∈ r.graph.placed,
        SamePlace r.doc a.1 b.1 → a = b))) = some (8, true) := by decide +kernel
  have before : (Pipeline.prepare [noteDocument] bareOptions).toOption.map (·.doc.lawful) =
      some true := by decide +kernel
  cases generated : Pipeline.generate [noteDocument] bareOptions Config.default with
  | error e => simp [generated, Except.toOption] at facts
  | ok r =>
    obtain ⟨p, prepared, built⟩ := generateSource generated
    simp only [generated, Except.toOption, Option.map_some, Option.some.injEq, Prod.mk.injEq,
      decide_eq_true_eq] at facts
    simp only [prepared, Except.toOption, Option.map_some, Option.some.injEq] at before
    exact ⟨p, r.doc, r.graph, prepared, built, facts.1,
      (nodesIdentified prepared before built).mpr (oneSpellingPlaced facts.2)⟩

def spelledTwice : Value :=
  let alternatives : Value := .arr [.obj [("type", .str "string")], .obj [("$ref", .str
    "#/paths/~1notes/get/responses/200/content/application~1json/schema/anyOf/00")]]
  .obj [("paths", .obj [("/notes", .obj [("get", .obj [
    ("tags", .arr [.str "notes"]), ("operationId", .str "getNotes"),
    ("responses", .obj [("200", .obj [("content", .obj [("application/json", .obj [
      ("schema", .obj [("anyOf", alternatives)])])])])])])])])]

def alternative (index : String) : Location := ⟨["paths", "/notes", "get", "responses", "200",
  "content", "application/json", "schema", "anyOf", index]⟩

theorem spelledTwiceApart : ∃ p doc g, Pipeline.prepare [spelledTwice] bareOptions = .ok p ∧
    build Config.default p.doc = (doc, .ok g) ∧ ¬ Identified doc g := by
  have places : (Pipeline.generate [spelledTwice] bareOptions Config.default).toOption.map
      (fun r => (r.graph.location? (.schema ⟨1⟩), r.graph.location? (.schema ⟨2⟩),
        decide (SamePlace r.doc (alternative "0") (alternative "00")))) =
      some (some (alternative "0"), some (alternative "00"), true) := by decide +kernel
  cases generated : Pipeline.generate [spelledTwice] bareOptions Config.default with
  | error e => simp [generated, Except.toOption] at places
  | ok r =>
    obtain ⟨p, prepared, built⟩ := generateSource generated
    simp only [generated, Except.toOption, Option.map_some, Option.some.injEq, Prod.mk.injEq,
      decide_eq_true_eq] at places
    obtain ⟨first, second, same⟩ := places
    refine ⟨p, r.doc, r.graph, prepared, built, fun h => ?_⟩
    have one := h.apart _ _ _ _ first second same
    simp at one

end ApiGraph.Build
