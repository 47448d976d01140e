import ApiGraph.Proofs.Interchange
import Mathlib.Logic.Relation

/-! One schema in several spellings. Its keys may stand in another order, and in any of its objects
the legacy types may be rewritten. However deep that is, the schema is classified as it was; and it
agrees with what it was, unless a type was rewritten that is no schema but part of a list of types or
of a format. -/
namespace ApiGraph.Json
open Agreement Classify

/- A value with one of its objects rewritten. Only those members are entered that may be. -/
inductive Within (step : Members → Members → Prop) (enters : Members → String → Prop) :
    Value → Value → Prop
  | here {xs ys} (rewritten : step xs ys) : Within step enters (.obj xs) (.obj ys)
  | item {xs i x y} (held : xs[i]? = some x) (inside : Within step enters x y) :
      Within step enters (.arr xs) (.arr (xs.set i y))
  | member {xs k x y} (held : xs.lookup k = some x) (may : enters xs k)
      (inside : Within step enters x y) :
      Within step enters (.obj xs) (.obj (Entries.put k y xs))

def Reordered (xs ys : Members) : Prop := xs.Perm ys

def Modernized (xs ys : Members) : Prop := ys = modernized xs

def anywhere (_ : Members) (_ : String) : Prop := True

def asSchema (members : Members) (key : String) : Prop :=
  isTyped members = true → key ≠ "type" ∧ (key = "format" → formatForLegacy members ≠ none)

inductive Respells (enters : Members → String → Prop) (v w : Value) : Prop
  | keys (reordered : Within Reordered anywhere v w)
  | types (modernized : Within Modernized enters v w)

def Respelled (enters : Members → String → Prop) : Value → Value → Prop :=
  Relation.ReflTransGen (Respells enters)

section Parts
variable {r : Value → Value → Prop} {x y : Value}

theorem itemsSet {xs : List Value} {i : Nat} (held : xs[i]? = some x) (each : ∀ z ∈ xs, r z z)
    (related : r x y) : List.Forall₂ r xs (xs.set i y) := by
  induction xs generalizing i with
  | nil => simp at held
  | cons z more ih =>
    have later : ∀ z ∈ more, r z z := fun z mem => each z (List.mem_cons_of_mem _ mem)
    cases i with
    | zero =>
      cases held
      exact .cons related (List.forall₂_same.mpr later)
    | succ i => exact .cons (each z List.mem_cons_self) (ih held later)

theorem lookupSelf {xs : Members} (each : ∀ e ∈ xs, r e.2 e.2) (key : String) :
    Option.Rel r (xs.lookup key) (xs.lookup key) := by
  cases held : xs.lookup key with
  | none => exact .none
  | some z => exact .some (each _ (Entries.mem_of_lookup held))

theorem lookupPutRel {xs : Members} {key : String} (held : xs.lookup key = some x)
    (each : ∀ e ∈ xs, r e.2 e.2) (related : r x y) (k : String) :
    Option.Rel r (xs.lookup k) ((Entries.put key y xs).lookup k) := by
  by_cases same : k = key
  · subst same
    rw [held, Entries.lookupPut]
    exact .some related
  · rw [Entries.lookupPutOther same]
    exact lookupSelf each k

end Parts

theorem lookupPerm {xs ys : Members} (perm : xs.Perm ys) (once : (Entries.keys xs).Nodup)
    (key : String) : ys.lookup key = xs.lookup key := by
  cases held : xs.lookup key with
  | some x =>
    have once' : (Entries.keys ys).Nodup := (perm.map Prod.fst).nodup_iff.mp once
    exact Entries.lookupOfMem once' (perm.mem_iff.mp (Entries.mem_of_lookup held))
  | none =>
    rw [List.lookup_eq_none_iff] at held ⊢
    exact fun e mem => held e (perm.mem_iff.mpr mem)

section Kept
variable {step : Members → Members → Prop} {enters : Members → String → Prop} {v w : Value}
  {xs ys : Members} {l : Location}

theorem reorderedLawful (h : Reordered xs ys) (lawful : (Value.obj xs).lawful = true) :
    (Value.obj ys).lawful = true := by
  obtain ⟨once, each⟩ := Value.lawfulObject.mp lawful
  have once' : (Entries.keys ys).Nodup := (h.map Prod.fst).nodup_iff.mp once
  exact Value.lawfulObject.mpr ⟨once', fun e mem => each e (h.mem_iff.mpr mem)⟩

theorem textTypesLawful (lawful : v.lawful = true) : (textTypes v).lawful = true := by
  have text : ∀ x : Value, x.lawful = true → (textForLegacy x).lawful = true := by
    intro x lawful
    cases x <;> first | rfl | exact lawful
  cases v with
  | arr items =>
    refine Value.lawfulList.mpr fun y listed => ?_
    obtain ⟨x, mem, rfl⟩ := List.mem_map.mp listed
    exact text x (Value.lawfulList.mp lawful x mem)
  | _ => exact text _ lawful

theorem modernizedLawful (h : Modernized xs ys) (lawful : (Value.obj xs).lawful = true) :
    (Value.obj ys).lawful = true := by
  subst h
  unfold modernized
  split
  · rename_i type format held _
    have fits := (Value.lawfulObject.mp lawful).2 _ (Entries.mem_of_lookup held)
    exact Tree.lawfulObjectPut (Tree.lawfulObjectPut lawful (textTypesLawful fits)) rfl
  · exact lawful

theorem Within.lawful (h : Within step enters v w)
    (kept : ∀ {xs ys}, step xs ys → (Value.obj xs).lawful = true → (Value.obj ys).lawful = true)
    (lawful : v.lawful = true) : w.lawful = true := by
  induction h with
  | here rewritten => exact kept rewritten lawful
  | item held _ ih =>
    have fits := Value.lawfulList.mp lawful _ (List.mem_of_getElem? held)
    exact Tree.lawfulListSet lawful (ih fits)
  | member held _ _ ih =>
    have fits := (Value.lawfulObject.mp lawful).2 _ (Entries.mem_of_lookup held)
    exact Tree.lawfulObjectPut lawful (ih fits)

theorem Respells.lawful (h : Respells enters v w) (lawful : v.lawful = true) : w.lawful = true := by
  cases h with
  | keys reordered => exact reordered.lawful reorderedLawful lawful
  | types modernized => exact modernized.lawful modernizedLawful lawful

theorem Respelled.lawful (h : Respelled enters v w) (lawful : v.lawful = true) : w.lawful = true := by
  induction h with
  | refl => exact lawful
  | tail _ last ih => exact last.lawful ih

theorem surfaceRefl (v : Value) : SameSurface v v := by
  refine ⟨rfl, rfl, ?_⟩
  cases v.items? with
  | none => exact .none
  | some xs => exact .some (List.forall₂_same.mpr fun _ _ => ⟨rfl, rfl⟩)

theorem Within.surface (h : Within step enters v w) : SameSurface v w ∧ v.isNull = w.isNull := by
  induction h with
  | here | member => exact ⟨⟨rfl, rfl, .none⟩, rfl⟩
  | item held _ ih =>
    refine ⟨⟨rfl, rfl, .some ?_⟩, rfl⟩
    exact itemsSet held (fun _ _ => ⟨rfl, rfl⟩) ⟨ih.1.text, ih.2⟩

theorem Within.classifies (h : Within step enters v w)
    (kept : ∀ {xs ys}, step xs ys → (Value.obj xs).lawful = true →
      classify (.obj ys) l = classify (.obj xs) l)
    (lawful : v.lawful = true) : classify w l = classify v l := by
  cases h with
  | here rewritten => exact kept rewritten lawful
  | item => exact classifySurface fun _ _ => .none
  | member held _ inside =>
    refine (classifySurface fun key _ => ?_).symm
    exact lookupPutRel held (fun e _ => surfaceRefl e.2) inside.surface.1 key

theorem reorderedClassifies (h : Reordered xs ys) (lawful : (Value.obj xs).lawful = true) :
    classify (.obj ys) l = classify (.obj xs) l := by
  refine classifySurface fun key _ => ?_
  simp only [Value.get?, lookupPerm h (Value.lawfulObject.mp lawful).1]
  exact lookupSelf (fun e _ => surfaceRefl e.2) key

theorem Respelled.classifies (h : Respelled enters v w) (lawful : v.lawful = true) (l : Location) :
    classify w l = classify v l := by
  induction h with
  | refl => rfl
  | tail before last ih =>
    have fits := Respelled.lawful before lawful
    rw [← ih]
    cases last with
    | keys reordered => exact reordered.classifies reorderedClassifies fits
    | types modernized =>
      exact modernized.classifies (fun rewritten _ => rewritten ▸ classifyModern _ l) fits

end Kept

section Keys
variable {v w : Value} {xs ys : Members}

theorem Within.same {enters : Members → String → Prop} (h : Within Reordered enters v w)
    (lawful : v.lawful = true) : v.same w = true := by
  induction h with
  | here perm =>
    obtain ⟨once, each⟩ := Value.lawfulObject.mp lawful
    refine (sameObject once (Value.lawfulObject.mp (reorderedLawful perm lawful)).1).mpr fun key _ => ?_
    rw [lookupPerm perm once]
    exact lookupSelf (fun e mem => sameRefl e.2 (each e mem)) key
  | item held _ ih =>
    have each := Value.lawfulList.mp lawful
    rw [Value.same, sameItemsIff]
    exact itemsSet held (fun x mem => sameRefl x (each x mem))
      (ih (each _ (List.mem_of_getElem? held)))
  | member held _ _ ih =>
    obtain ⟨once, each⟩ := Value.lawfulObject.mp lawful
    refine (sameObject once (Entries.nodupPut _ _ once)).mpr fun key _ => ?_
    exact lookupPutRel held (fun e mem => sameRefl e.2 (each e mem))
      (ih (each _ (Entries.mem_of_lookup held))) key

theorem sameNormal (type : Option.Rel (fun x y => Value.same x y = true) (xs.lookup "type")
      (ys.lookup "type"))
    (format : Option.Rel (fun x y => Value.same x y = true) (xs.lookup "format")
      (ys.lookup "format")) : Option.Rel sameType (normalType xs) (normalType ys) := by
  have formats : ∀ implied : Option String, Option.Rel (fun x y => Value.same x y = true)
      ((implied.map Value.str).or (xs.lookup "format"))
      ((implied.map Value.str).or (ys.lookup "format")) := by
    intro implied
    cases implied with
    | none => exact format
    | some name => exact .some (by simp [Value.same])
  simp only [normalType]
  generalize xs.lookup "type" = a at type
  generalize ys.lookup "type" = b at type
  cases type with
  | none => exact .none
  | @some x y same =>
    cases x with
    | str name =>
      cases y <;> simp only [Value.same, Bool.false_eq_true, beq_iff_eq] at same
      subst same
      exact .some ⟨by simp [modernType, Value.same], formats _⟩
    | arr items =>
      cases y with
      | arr items' =>
        obtain ⟨_, here, each⟩ := relFrom (sameSurface same).items
        cases here
        refine .some ⟨?_, (surfaceTexts each).1 ▸ formats _⟩
        rw [Value.same, sameItemsIff] at same
        rw [Value.same, sameItemsIff, List.forall₂_map_left_iff, List.forall₂_map_right_iff]
        refine same.imp fun a b equal => ?_
        cases a <;> cases b <;> simp_all [modernType, Value.same]
      | _ => simp [Value.same] at same
    | _ => cases y <;> first | exact .none | simp [Value.same] at same

theorem sameAgrees (v : Value) {w : Value} (lawful : v.lawful = true) (lawful' : w.lawful = true)
    (h : v.same w = true) : agree v w = true := by
  induction v using Value.fromParts generalizing w with
  | items xs ih =>
    cases w with
    | arr ys =>
      have each := Value.lawfulList.mp lawful
      have each' := Value.lawfulList.mp lawful'
      simp only [Value.same, sameItemsIff, agree, agreeItemsIff] at h ⊢
      exact itemsTrans h (List.forall₂_same.mpr fun _ _ => rfl) fun x mem y mem' _ _ same equal =>
        equal ▸ ih x mem (each x mem) (each' y mem') same
    | _ => simp [Value.same] at h
  | members es ih =>
    cases w with
    | obj es' =>
      obtain ⟨once, each⟩ := Value.lawfulObject.mp lawful
      obtain ⟨once', each'⟩ := Value.lawfulObject.mp lawful'
      have equal := (sameObject once once').mp h
      have pairs : ∀ typed, Pairs (compared typed) agree es es' := by
        intro typed key _
        refine relBack (relBack (equal key rfl) fun _ _ _ _ => id) fun y x held' held same => ?_
        have mem := Entries.mem_of_lookup held
        exact ih _ mem (each _ mem) (each' _ (Entries.mem_of_lookup held')) same
      refine (agreeObject once once').mpr ?_
      have normal := sameNormal (equal "type" rfl) (equal "format" rfl)
      generalize normalType es = a at normal
      generalize normalType es' = b at normal
      cases normal with
      | none => exact .inr ⟨rfl, rfl, pairs false⟩
      | some same => exact .inl ⟨_, _, rfl, rfl, same, pairs true⟩
    | _ => simp [Value.same] at h
  | leaf v noItems noMembers => rwa [agreeLeaf noItems noMembers]

end Keys

section Types
variable {v w x y : Value} {xs ys : Members} {key : String}

theorem untypedNormal (untyped : isTyped xs = false) : normalType xs = none := by
  simp [normalTypeIs, untyped]

theorem untypedModern (untyped : isTyped xs = false) : modernized xs = xs := by
  unfold modernized
  split
  · rename_i type _ held format
    simp only [isTyped, held, Option.any_some] at untyped
    cases type <;> simp [formatForLegacy, held, typeNames, Value.str?, Value.items?] at format untyped
  · rfl

theorem normalAlike (type : ys.lookup "type" = xs.lookup "type")
    (format : formatForLegacy xs = none → ys.lookup "format" = xs.lookup "format") :
    normalType ys = normalType xs := by
  have legacy : formatForLegacy ys = formatForLegacy xs := by rw [formatForLegacy, type, formatForLegacy]
  have formats : (modernized ys).lookup "format" = (modernized xs).lookup "format" := by
    rw [modernizedFormat, modernizedFormat, legacy]
    cases named : formatForLegacy xs with
    | none => exact format named
    | some name => rfl
  rw [normalTypeIs, normalTypeIs, isTyped, isTyped, modernizedType, modernizedType, type, formats]

theorem enteredNormal (held : xs.lookup key = some x) (may : asSchema xs key)
    (surface : SameSurface x y) : normalType (Entries.put key y xs) = normalType xs := by
  cases typed : isTyped xs with
  | true =>
    obtain ⟨other, format⟩ := may typed
    refine normalAlike (Entries.lookupPutOther other.symm _ _) fun none => ?_
    exact Entries.lookupPutOther (fun same => format same.symm none) _ _
  | false =>
    have untyped : isTyped (Entries.put key y xs) = false := by
      by_cases same : "type" = key
      · subst same
        have items : x.items?.isSome = y.items?.isSome := by
          have items := surface.items
          generalize x.items? = a at items
          generalize y.items? = b at items
          cases items <;> rfl
        simpa [isTyped, held, surface.text, items] using typed
      · rwa [isTyped, Entries.lookupPutOther same]
    rw [untypedNormal typed, untypedNormal untyped]

theorem agreeAlike (lawful : (Value.obj xs).lawful = true) (once : (Entries.keys ys).Nodup)
    (normal : normalType ys = normalType xs)
    (pairs : Pairs (compared (normalType xs).isSome) agree xs ys) :
    agree (.obj xs) (.obj ys) = true := by
  refine (agreeObject (Value.lawfulObject.mp lawful).1 once).mpr ?_
  rw [normal]
  cases typed : normalType xs with
  | none => exact .inr ⟨rfl, rfl, by simpa [typed] using pairs⟩
  | some t => exact .inl ⟨t, t, rfl, rfl, sameTypeRefl lawful typed, by simpa [typed] using pairs⟩

theorem modernizedAgrees (lawful : (Value.obj xs).lawful = true) :
    agree (.obj xs) (.obj (modernized xs)) = true := by
  cases typed : isTyped xs with
  | false =>
    rw [untypedModern typed]
    exact agreeRefl _ lawful
  | true =>
    have each := (Value.lawfulObject.mp lawful).2
    have once := (Value.lawfulObject.mp (modernizedLawful rfl lawful)).1
    refine agreeAlike lawful once (modernizedNormal xs) fun key counted => ?_
    have held : (normalType xs).isSome = true := by
      rw [normalTypeIs, if_pos typed, modernizedType]
      cases held : xs.lookup "type" with
      | none => simp [isTyped, held] at typed
      | some type => rfl
    simp only [held, compared, Bool.true_and, Bool.and_eq_true, Bool.not_eq_true',
      Bool.or_eq_false_iff, beq_eq_false_iff_ne] at counted
    rw [modernizedOther counted.2.1 counted.2.2]
    exact lookupSelf (fun e mem => agreeRefl e.2 (each e mem)) key

theorem Within.agrees (h : Within Modernized asSchema v w) (lawful : v.lawful = true) :
    agree v w = true := by
  induction h with
  | here rewritten => exact rewritten ▸ modernizedAgrees lawful
  | item held _ ih =>
    have each := Value.lawfulList.mp lawful
    rw [agree, agreeItemsIff]
    exact itemsSet held (fun x mem => agreeRefl x (each x mem))
      (ih (each _ (List.mem_of_getElem? held)))
  | member held may inside ih =>
    obtain ⟨once, each⟩ := Value.lawfulObject.mp lawful
    refine agreeAlike lawful (Entries.nodupPut _ _ once)
      (enteredNormal held may inside.surface.1) fun key _ => ?_
    exact lookupPutRel held (fun e mem => agreeRefl e.2 (each e mem))
      (ih (each _ (Entries.mem_of_lookup held))) key

theorem Respells.agrees (h : Respells asSchema v w) (lawful : v.lawful = true) :
    agree v w = true := by
  cases h with
  | keys reordered =>
    have fits := reordered.lawful reorderedLawful lawful
    exact sameAgrees v lawful fits (reordered.same lawful)
  | types modernized => exact modernized.agrees lawful

theorem Respelled.agrees (h : Respelled asSchema v w) (lawful : v.lawful = true) :
    agree v w = true := by
  induction h with
  | refl => exact agreeRefl v lawful
  | tail before last ih =>
    have fits := Respelled.lawful before lawful
    exact agreeTrans v lawful fits (last.lawful fits) ih (last.agrees fits)

theorem agreeCongr {v' w' : Value} (fit : v.lawful = true) (fit' : v'.lawful = true)
    (fitOther : w.lawful = true) (fitOther' : w'.lawful = true) (agrees : agree v v' = true)
    (agreesOther : agree w w' = true) : agree v' w' = agree v w := by
  refine Bool.eq_iff_iff.mpr ⟨fun h => ?_, fun h => ?_⟩
  · have half := agreeTrans v fit fit' fitOther' agrees h
    exact agreeTrans v fit fitOther' fitOther half (agreeSymm w fitOther fitOther' agreesOther)
  · have half := agreeTrans v' fit' fit fitOther (agreeSymm v fit fit' agrees) h
    exact agreeTrans v' fit' fitOther fitOther' half agreesOther

end Types

end ApiGraph.Json

namespace ApiGraph
open Json

def Graph.valueOf? (g : Graph) (doc : Value) (id : SchemaId) : Option Value :=
  (g.schema? id).bind fun s => Tree.get? s.location doc

end ApiGraph

namespace ApiGraph.Build
open Json Agreement Classify

section Nodes
variable {c : Config} {before doc v w : Value} {g : Graph} {a b : SchemaId}

theorem builtNode (lawful : before.lawful = true) (built : build c before = (doc, .ok g))
    (at_ : g.valueOf? doc a = some v) : ∃ s, g.schema? a = some s ∧ Mirrors doc g.schemas s v := by
  obtain ⟨s, held, located⟩ := Option.bind_eq_some_iff.mp at_
  obtain ⟨x, mirrors⟩ := builtSchemas lawful built (List.mem_of_getElem? held)
  cases mirrors.located.symm.trans located
  exact ⟨s, held, mirrors⟩

theorem matchAgrees (lawful : before.lawful = true) (built : build c before = (doc, .ok g))
    (at_ : g.valueOf? doc a = some v) (at' : g.valueOf? doc b = some w) :
    g.schemasMatch doc a b = agree v w := by
  obtain ⟨s, held, mirrors⟩ := builtNode lawful built at_
  obtain ⟨t, held', mirrors'⟩ := builtNode lawful built at'
  exact Bool.eq_iff_iff.mpr (matchIff (buildLawful lawful built)
    (fun s mem => builtSchemas lawful built mem) held mirrors.located held' mirrors'.located)

end Nodes

/- The nodes of a graph that match form classes. A node that is made for another spelling of a schema
is classified as that schema is, and nodes that are made for other spellings of two schemas match if
those two do. -/
theorem matchingRespelled {c c' : Config} {before before' doc doc' : Value} {g g' : Graph}
    (lawful : before.lawful = true) (built : build c before = (doc, .ok g))
    (lawful' : before'.lawful = true) (built' : build c' before' = (doc', .ok g')) :
    (Equivalence fun a b => g.schemasMatch doc a b = true) ∧
    (∀ a v v', g.valueOf? doc a = some v → Respelled anywhere v v' →
      (∀ l, classify v' l = classify v l) ∧ ∀ a', g'.valueOf? doc' a' = some v' →
        (g'.schema? a').map Schema.classified = (g.schema? a).map Schema.classified) ∧
    ∀ a b v w a' b' v' w', g.valueOf? doc a = some v → g.valueOf? doc b = some w →
      g'.valueOf? doc' a' = some v' → g'.valueOf? doc' b' = some w' →
      Respelled asSchema v v' → Respelled asSchema w w' →
      g'.schemasMatch doc' a' b' = g.schemasMatch doc a b := by
  have fit := buildLawful lawful built
  refine ⟨g.schemasMatchClasses fit, ?_, ?_⟩
  · intro a v v' at_ respelled
    obtain ⟨s, held, mirrors⟩ := builtNode lawful built at_
    have same := respelled.classifies (Tree.lawfulAt fit mirrors.located)
    refine ⟨same, fun a' at' => ?_⟩
    obtain ⟨s', held', mirrors'⟩ := builtNode lawful' built' at'
    have told := same .root
    rw [mirrors.classifies, mirrors'.classifies, Except.ok.injEq] at told
    rw [held, held', Option.map_some, Option.map_some, told]
  · intro a b v w a' b' v' w' at_ atOther at' atOther' respelled respelledOther
    rw [matchAgrees lawful built at_ atOther, matchAgrees lawful' built' at' atOther']
    have fits : ∀ {id x}, g.valueOf? doc id = some x → x.lawful = true := fun at_ => by
      obtain ⟨_, _, mirrors⟩ := builtNode lawful built at_
      exact Tree.lawfulAt fit mirrors.located
    exact agreeCongr (fits at_) (respelled.lawful (fits at_)) (fits atOther)
      (respelledOther.lawful (fits atOther)) (respelled.agrees (fits at_))
      (respelledOther.agrees (fits atOther))

theorem valueThere {doc v : Value} {g : Graph} {a : SchemaId} {l : Location}
    (placed : (g.schema? a).map Schema.location = some l) (at_ : Tree.get? l doc = some v) :
    g.valueOf? doc a = some v := by
  obtain ⟨s, held, rfl⟩ := Option.map_eq_some_iff.mp placed
  exact Option.bind_eq_some_iff.mpr ⟨s, held, at_⟩

def recordOf (properties : Members) : Value :=
  .obj [("type", .str "object"), ("properties", .obj properties)]

theorem datedSpelled (enters : Members → String → Prop)
    (properties : enters [("type", .str "object"), ("properties", .obj dated)] "properties")
    (property : enters dated "on") : Respelled enters (recordOf dated) (recordOf datedText) := by
  have modern : modernized [("type", .str "date")] =
      [("type", .str "string"), ("format", .str "date")] := by rfl
  have rewritten : Within Modernized enters (recordOf dated)
      (recordOf [("on", .obj [("type", .str "string"), ("format", .str "date")])]) :=
    .member (k := "properties") rfl properties (.member (k := "on") rfl property (.here modern.symm))
  refine .tail (.single (.types rewritten)) (.keys ?_)
  exact .member (k := "properties") rfl trivial
    (.member (k := "on") rfl trivial (.here (.swap _ _ _)))

theorem datedRespelled : ∃ g g', build Config.default (eitherDocument dated dated) =
      (eitherDocument dated dated, .ok g) ∧
    build Config.default (eitherDocument dated datedText) =
      (eitherDocument dated datedText, .ok g') ∧
    g.valueOf? (eitherDocument dated dated) ⟨2⟩ = some (recordOf dated) ∧
    g'.valueOf? (eitherDocument dated datedText) ⟨2⟩ = some (recordOf datedText) ∧
    (∀ l, classify (recordOf datedText) l = classify (recordOf dated) l) ∧
    (g'.schema? ⟨2⟩).map Schema.classified = (g.schema? ⟨2⟩).map Schema.classified ∧
    g'.schemasMatch (eitherDocument dated datedText) ⟨0⟩ ⟨2⟩ =
      g.schemasMatch (eitherDocument dated dated) ⟨0⟩ ⟨2⟩ := by
  have told : Declaration.declare Config.default (eitherDocument dated dated) =
      .ok (eitherDocument dated dated, 0) := by rfl
  have told' : Declaration.declare Config.default (eitherDocument dated datedText) =
      .ok (eitherDocument dated datedText, 0) := by rfl
  obtain ⟨g, walked, json, text⟩ : ∃ g,
      graphOf Config.default (eitherDocument dated dated) = .ok g ∧
      (g.schema? ⟨0⟩).map Schema.location = some (eitherPlace "application/json" []) ∧
      (g.schema? ⟨2⟩).map Schema.location = some (eitherPlace "text/plain" []) := by
    decide +kernel
  obtain ⟨g', walked', json', text'⟩ : ∃ g,
      graphOf Config.default (eitherDocument dated datedText) = .ok g ∧
      (g.schema? ⟨0⟩).map Schema.location = some (eitherPlace "application/json" []) ∧
      (g.schema? ⟨2⟩).map Schema.location = some (eitherPlace "text/plain" []) := by
    decide +kernel
  have built : build Config.default (eitherDocument dated dated) =
      (eitherDocument dated dated, .ok g) := by simp [build, told, walked]
  have built' : build Config.default (eitherDocument dated datedText) =
      (eitherDocument dated datedText, .ok g') := by simp [build, told', walked']
  have first : g.valueOf? (eitherDocument dated dated) ⟨0⟩ = some (recordOf dated) :=
    valueThere json rfl
  have first' : g'.valueOf? (eitherDocument dated datedText) ⟨0⟩ = some (recordOf dated) :=
    valueThere json' rfl
  have second : g.valueOf? (eitherDocument dated dated) ⟨2⟩ = some (recordOf dated) :=
    valueThere text rfl
  have second' : g'.valueOf? (eitherDocument dated datedText) ⟨2⟩ = some (recordOf datedText) :=
    valueThere text' rfl
  have spelled : Respelled asSchema (recordOf dated) (recordOf datedText) :=
    datedSpelled asSchema (fun _ => by decide) fun _ => by decide
  obtain ⟨_, classified, compared⟩ :=
    matchingRespelled (by decide +kernel) built (by decide +kernel) built'
  obtain ⟨same, nodes⟩ := classified _ _ _ second (datedSpelled anywhere trivial trivial)
  exact ⟨g, g', built, built', second, second', same, nodes _ second',
    compared _ _ _ _ _ _ _ _ first second first' second' .refl spelled⟩

def listedType (types : Members) : Value := .obj [("type", .arr [.str "string", .obj types])]

def listedTypes : Members :=
  [("on", listedType [("type", .str "date")]), ("at", listedType [("type", .str "date")]),
    ("by", listedType (modernized [("type", .str "date")]))]

/- A list of types with a type that is no name is compared as it is: of two schemas that match,
one does not match once its list is rewritten. -/
theorem listedUnmatched : ∃ g v v',
    build Config.default (eitherDocument listedTypes []) = (eitherDocument listedTypes [], .ok g) ∧
    g.valueOf? (eitherDocument listedTypes []) ⟨1⟩ = some v ∧
    g.valueOf? (eitherDocument listedTypes []) ⟨2⟩ = some v ∧
    g.valueOf? (eitherDocument listedTypes []) ⟨3⟩ = some v' ∧ Respelled anywhere v v' ∧
    g.schemasMatch (eitherDocument listedTypes []) ⟨1⟩ ⟨2⟩ = true ∧
    g.schemasMatch (eitherDocument listedTypes []) ⟨1⟩ ⟨3⟩ = false := by
  have told : Declaration.declare Config.default (eitherDocument listedTypes []) =
      .ok (eitherDocument listedTypes [], 0) := by rfl
  obtain ⟨g, walked, on, at_, by_, same, other⟩ : ∃ g,
      graphOf Config.default (eitherDocument listedTypes []) = .ok g ∧
      (g.schema? ⟨1⟩).map Schema.location =
        some (eitherPlace "application/json" ["properties", "on"]) ∧
      (g.schema? ⟨2⟩).map Schema.location =
        some (eitherPlace "application/json" ["properties", "at"]) ∧
      (g.schema? ⟨3⟩).map Schema.location =
        some (eitherPlace "application/json" ["properties", "by"]) ∧
      g.schemasMatch (eitherDocument listedTypes []) ⟨1⟩ ⟨2⟩ = true ∧
      g.schemasMatch (eitherDocument listedTypes []) ⟨1⟩ ⟨3⟩ = false := by decide +kernel
  have rewritten : Within Modernized anywhere (listedType [("type", .str "date")])
      (listedType (modernized [("type", .str "date")])) :=
    .member (k := "type") rfl trivial (.item (i := 1) rfl (.here rfl))
  exact ⟨g, _, _, by simp [build, told, walked], valueThere on rfl, valueThere at_ rfl,
    valueThere by_ rfl, .single (.types rewritten), same, other⟩

end ApiGraph.Build
