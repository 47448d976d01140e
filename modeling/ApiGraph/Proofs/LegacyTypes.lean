import ApiGraph.Graph.Classify
import ApiGraph.Proofs.BuiltGraph
import ApiGraph.Proofs.Writes

/-! Types that have a legacy name. To rewrite an object is to give it the text type and the format
that its legacy names stand for. Both readings of a schema, the one that classifies it and the one
that compares it, read a rewritten object as they read the original, and schemas that agree are
classified alike. -/
namespace ApiGraph.Json
open Agreement Classify

def legacyFormat (name : String) : Option String :=
  match name with
  | "date" => some "date"
  | "dateTime" => some "date-time"
  | "password" => some "password"
  | _ => none

def typeNames : Value → List String
  | .str name => [name]
  | .arr items => items.filterMap Value.str?
  | _ => []

def textName (name : String) : String := if (legacyFormat name).isSome then "string" else name

def textForLegacy : Value → Value
  | .str name => .str (textName name)
  | v => v

def textTypes : Value → Value
  | .arr items => .arr (items.map textForLegacy)
  | v => textForLegacy v

def formatForLegacy (members : Members) : Option String :=
  ((((members.lookup "type").map typeNames).getD []).filterMap legacyFormat).getLast?

def modernized (members : Members) : Members :=
  match members.lookup "type", formatForLegacy members with
  | some type, some format =>
    Entries.put "format" (.str format) (Entries.put "type" (textTypes type) members)
  | _, _ => members

section Tables
variable {v : Value} {members : Members} {name key : String}

theorem legacyTypeIs (name : String) : legacyType name = (textName name, legacyFormat name) := by
  unfold legacyType textName legacyFormat
  split <;> simp_all

theorem modernTypeIs (v : Value) : modernType v = textForLegacy v := by
  cases v <;> simp [modernType, textForLegacy, legacyTypeIs]

theorem impliedFormatIs (names : List String) :
    impliedFormat names = (names.filterMap legacyFormat).getLast? := by
  have from_ : ∀ acc, names.foldl (fun acc name => (legacyType name).2.or acc) acc =
      (names.filterMap legacyFormat).getLast?.or acc := by
    induction names with
    | nil => simp
    | cons name more ih =>
      intro acc
      rw [List.foldl_cons, ih, legacyTypeIs]
      cases named : legacyFormat name with
      | none => simp [named]
      | some format =>
        simp only [List.filterMap_cons, named, List.getLast?_cons]
        cases (more.filterMap legacyFormat).getLast? <;> rfl
  rw [impliedFormat, from_, Option.or_none]

theorem textNameFormat (name : String) : legacyFormat (textName name) = none := by
  unfold textName
  cases named : legacyFormat name with
  | none => simpa using named
  | some format => rfl

theorem textNamePlain (plain : legacyFormat name = none) : textName name = name := by
  simp [textName, plain]

theorem textTypesNames (v : Value) : (typeNames (textTypes v)).filterMap legacyFormat = [] := by
  rw [List.filterMap_eq_nil_iff]
  cases v with
  | str name => simp [textTypes, textForLegacy, typeNames, textNameFormat]
  | arr items =>
    intro name mem
    simp only [textTypes, typeNames, List.mem_filterMap, List.mem_map] at mem
    obtain ⟨_, ⟨x, _, rfl⟩, text⟩ := mem
    cases x with
    | str name =>
      cases text
      exact textNameFormat name
    | _ => simp [textForLegacy, Value.str?] at text
  | _ => simp [textTypes, textForLegacy, typeNames]

theorem textTypesPlain (plain : (typeNames v).filterMap legacyFormat = []) : textTypes v = v := by
  rw [List.filterMap_eq_nil_iff] at plain
  cases v with
  | str name => simp [textTypes, textForLegacy, textNamePlain (plain name (by simp [typeNames]))]
  | arr items =>
    have each : ∀ x ∈ items, textForLegacy x = id x := by
      intro x mem
      cases x with
      | str name =>
        simp [textForLegacy, textNamePlain (plain name (List.mem_filterMap.mpr ⟨_, mem, rfl⟩))]
      | _ => rfl
    rw [textTypes, List.map_congr_left each, List.map_id]
  | _ => rfl

theorem formatForLegacyNone (none : formatForLegacy members = none) {type : Value}
    (held : members.lookup "type" = some type) : (typeNames type).filterMap legacyFormat = [] := by
  simpa [formatForLegacy, held] using none

theorem modernizedType (members : Members) :
    (modernized members).lookup "type" = (members.lookup "type").map textTypes := by
  unfold modernized
  cases held : members.lookup "type" with
  | none => simpa using held
  | some type =>
    cases format : formatForLegacy members with
    | none => simpa [textTypesPlain (formatForLegacyNone format held)] using held
    | some format => simp [Entries.lookupPutOther]

theorem modernizedFormat (members : Members) : (modernized members).lookup "format" =
    ((formatForLegacy members).map Value.str).or (members.lookup "format") := by
  unfold modernized
  cases format : formatForLegacy members with
  | none => cases members.lookup "type" <;> simp
  | some format =>
    cases held : members.lookup "type" with
    | none => simp [formatForLegacy, held] at format
    | some type => simp

theorem modernizedOther (type : key ≠ "type") (format : key ≠ "format") :
    (modernized members).lookup key = members.lookup key := by
  unfold modernized
  split
  · rw [Entries.lookupPutOther format, Entries.lookupPutOther type]
  · rfl

theorem modernizedLegacy (members : Members) : formatForLegacy (modernized members) = none := by
  rw [formatForLegacy, modernizedType]
  cases members.lookup "type" with
  | none => rfl
  | some type => simp [textTypesNames]

def isTyped (members : Members) : Bool :=
  (members.lookup "type").any fun type => type.str?.isSome || type.items?.isSome

theorem normalTypeIs (members : Members) : normalType members =
    if isTyped members then
      ((modernized members).lookup "type").map fun type =>
        (type, (modernized members).lookup "format")
    else none := by
  rw [modernizedType, modernizedFormat, isTyped, formatForLegacy]
  cases held : members.lookup "type" with
  | none => simp [normalType, held]
  | some type =>
    cases type <;>
      simp [normalType, held, Value.str?, Value.items?, textTypes, typeNames, impliedFormatIs,
        funext modernTypeIs]

theorem modernizedTyped (members : Members) : isTyped (modernized members) = isTyped members := by
  rw [isTyped, modernizedType, isTyped]
  cases members.lookup "type" with
  | none => rfl
  | some type => cases type <;> simp [textTypes, textForLegacy, Value.str?, Value.items?]

theorem modernizedNormal (members : Members) :
    normalType (modernized members) = normalType members := by
  rw [normalTypeIs, normalTypeIs members, modernizedTyped, modernizedType, modernizedType,
    modernizedFormat, modernizedLegacy]
  have again : ∀ type, textTypes (textTypes type) = textTypes type := fun type =>
    textTypesPlain (textTypesNames type)
  cases members.lookup "type" <;> simp [again]

end Tables

def classifiedKeys : List String := ["type", "format", "nullable", "required", "additionalProperties"]

/- All that is read of such a member: a text, a boolean, and the texts and nulls of a list. -/
structure SameSurface (x y : Value) : Prop where
  text : x.str? = y.str?
  bool : x.bool? = y.bool?
  items : Option.Rel (List.Forall₂ fun a b => a.str? = b.str? ∧ a.isNull = b.isNull) x.items? y.items?

section Surface
variable {v w x y : Value} {a b : Option Value} {xs ys : List Value} {l : Location}

theorem surfaceNull (h : x.str? = y.str? ∧ x.isNull = y.isNull) : isNullType x = isNullType y := by
  rw [isNullType, isNullType, h.1, h.2]

theorem surfaceTexts (h : List.Forall₂ (fun a b => a.str? = b.str? ∧ a.isNull = b.isNull) xs ys) :
    xs.filterMap Value.str? = ys.filterMap Value.str? ∧
    (xs.filter fun v => !isNullType v).filterMap Value.str? =
      (ys.filter fun v => !isNullType v).filterMap Value.str? ∧
    xs.any isNullType = ys.any isNullType := by
  induction h with
  | nil => exact ⟨rfl, rfl, rfl⟩
  | cons head _ ih =>
    obtain ⟨texts, others, nulls⟩ := ih
    refine ⟨by simp only [List.filterMap_cons, head.1, texts], ?_, ?_⟩
    · simp only [List.filter_cons, surfaceNull head]
      split
      · simp only [List.filterMap_cons, head.1, others]
      · exact others
    · simp only [List.any_cons, surfaceNull head, nulls]

theorem surfaceBind {α : Type} {read : Value → Option α}
    (each : ∀ x y, SameSurface x y → read x = read y) (h : Option.Rel SameSurface a b) :
    a.bind read = b.bind read := by
  cases h with
  | none => rfl
  | some same => exact each _ _ same

theorem surfaceItems (h : Option.Rel SameSurface a b) :
    ((a.bind Value.items?).getD []).filterMap Value.str? =
      ((b.bind Value.items?).getD []).filterMap Value.str? := by
  cases h with
  | none => rfl
  | @some x y same =>
    have items := same.items
    simp only [Option.bind_some]
    generalize x.items? = xs at items
    generalize y.items? = ys at items
    cases items with
    | none => rfl
    | some each => exact (surfaceTexts each).1

theorem surfaceTypes (h : Option.Rel SameSurface (v.get? "type") (w.get? "type")) :
    declaredTypes v l = declaredTypes w l := by
  unfold declaredTypes
  generalize v.get? "type" = a at h
  generalize w.get? "type" = b at h
  cases h with
  | none => rfl
  | @some x y same =>
    obtain ⟨text, _, items⟩ := same
    cases x <;> cases y <;> simp only [Value.str?, Value.items?, reduceCtorEq, Option.some.injEq,
      Option.not_rel_some_none, Option.not_rel_none_some, Option.rel_some_some] at text items ⊢
    · rw [text]
    · obtain ⟨_, others, nulls⟩ := surfaceTexts items
      rw [items.length_eq, others, nulls]

theorem classifySurface
    (same : ∀ key ∈ classifiedKeys, Option.Rel SameSurface (v.get? key) (w.get? key)) :
    classify v l = classify w l := by
  have texts : ∀ key ∈ classifiedKeys, v.textAt? key = w.textAt? key := fun key mem =>
    surfaceBind (fun _ _ h => h.text) (same key mem)
  have bools : ∀ key ∈ classifiedKeys, v.boolAt? key = w.boolAt? key := fun key mem =>
    surfaceBind (fun _ _ h => h.bool) (same key mem)
  have required : v.textsAt "required" = w.textsAt "required" :=
    surfaceItems (same _ (by decide))
  unfold classify shapeOf
  rw [surfaceTypes (same _ (by decide)), texts "format" (by decide), bools "nullable" (by decide),
    bools "additionalProperties" (by decide), required]

end Surface

section Modern
variable {v w x y : Value} {members xs ys : Members} {l : Location}

theorem nullForLegacy (v : Value) : isNullType (textForLegacy v) = isNullType v := by
  cases v with
  | str name =>
    have null : textName name = "null" ↔ name = "null" := by
      by_cases plain : legacyFormat name = none
      · rw [textNamePlain plain]
      · have legacy := Option.isSome_iff_ne_none.mpr plain
        have other : name ≠ "null" := by
          rintro rfl
          exact plain rfl
        simp [textName, legacy, other]
    simp [textForLegacy, isNullType, Value.str?, Value.isNull, null]
  | _ => rfl

theorem textsForLegacy (items : List Value) :
    (items.map textForLegacy).filterMap Value.str? = (items.filterMap Value.str?).map textName := by
  rw [List.filterMap_map, List.map_filterMap]
  refine List.filterMap_congr fun v _ => ?_
  cases v <;> rfl

theorem othersForLegacy (items : List Value) :
    ((items.map textForLegacy).filter fun v => !isNullType v) =
      (items.filter fun v => !isNullType v).map textForLegacy := by
  rw [List.filter_map]
  congr 1
  exact List.filter_congr fun v _ => by simp [nullForLegacy]

theorem othersFormats (items : List Value) :
    ((items.filter fun v => !isNullType v).filterMap Value.str?).filterMap legacyFormat =
      (items.filterMap Value.str?).filterMap legacyFormat := by
  simp only [List.filterMap_filterMap]
  induction items with
  | nil => rfl
  | cons v more ih =>
    rw [List.filter_cons]
    by_cases null : isNullType v = true
    · have none : (v.str?.bind legacyFormat) = none := by
        cases v with
        | str name =>
          obtain rfl : name = "null" := by simpa [isNullType, Value.isNull, Value.str?] using null
          rfl
        | _ => rfl
      simp [null, none, ih]
    · simp [null, List.filterMap_cons, ih]

theorem declaredModern (members : Members) :
    declaredTypes (.obj (modernized members)) l =
      (declaredTypes (.obj members) l).map fun told => (told.1.map textName, told.2) := by
  unfold declaredTypes
  simp only [Value.get?, modernizedType]
  cases members.lookup "type" with
  | none => rfl
  | some type =>
    cases type with
    | str name => rfl
    | arr items =>
      simp only [Option.map_some, textTypes, List.length_map, List.any_map, othersForLegacy,
        textsForLegacy]
      have nulls : isNullType ∘ textForLegacy = isNullType := funext nullForLegacy
      rw [nulls]
      split <;> rfl
    | _ => rfl

theorem declaredFormat {told : List String × Bool} (h : declaredTypes (.obj members) l = .ok told) :
    impliedFormat told.1 = formatForLegacy members := by
  rw [impliedFormatIs, formatForLegacy]
  unfold declaredTypes at h
  simp only [Value.get?] at h
  cases held : members.lookup "type" with
  | none =>
    rw [held] at h
    cases h
    rfl
  | some type =>
    rw [held] at h
    cases type with
    | str name =>
      cases h
      rfl
    | arr items =>
      simp only at h
      split at h
      · contradiction
      · cases h
        simp only [Option.map_some, Option.getD_some, typeNames, othersFormats]
    | _ => contradiction

theorem classifyModern (members : Members) (l : Location) :
    classify (.obj (modernized members)) l = classify (.obj members) l := by
  have others : ∀ key, key ≠ "type" → key ≠ "format" →
      (Value.obj (modernized members)).get? key = (Value.obj members).get? key :=
    fun key type format => modernizedOther type format
  have format : (Value.obj (modernized members)).textAt? "format" =
      (formatForLegacy members).or ((Value.obj members).textAt? "format") := by
    simp only [Value.textAt?, Value.get?, modernizedFormat]
    cases formatForLegacy members <;> rfl
  unfold classify shapeOf
  rw [declaredModern]
  cases told : declaredTypes (.obj members) l with
  | error e => rfl
  | ok types =>
    have implied := declaredFormat told
    have none : impliedFormat (types.1.map textName) = none := by
      rw [impliedFormatIs, List.filterMap_map]
      simp [textNameFormat]
    have again : ∀ name, (legacyType (textName name)).1 = (legacyType name).1 := fun name => by
      rw [legacyTypeIs, legacyTypeIs name]
      exact textNamePlain (textNameFormat name)
    simp only [Except.map, bind, Except.bind, none, implied, format, Option.none_or, List.map_map,
      Function.comp_def, again, Value.boolAt?, Value.textsAt, Value.itemsAt?,
      others "nullable" (by decide) (by decide), others "required" (by decide) (by decide),
      others "additionalProperties" (by decide) (by decide)]

theorem relImp {α β : Type} {r r' : α → β → Prop} {a : Option α} {b : Option β}
    (each : ∀ x y, r x y → r' x y) (h : Option.Rel r a b) : Option.Rel r' a b := by
  cases h with
  | none => exact .none
  | some related => exact .some (each _ _ related)

theorem sameSurface (h : x.same y = true) : SameSurface x y := by
  cases x <;> cases y <;> simp only [Value.same, Bool.false_eq_true, beq_iff_eq, sameItemsIff] at h
  · exact ⟨rfl, rfl, .none⟩
  · exact ⟨rfl, congrArg some h, .none⟩
  · exact ⟨rfl, rfl, .none⟩
  · exact ⟨congrArg some h, rfl, .none⟩
  · refine ⟨rfl, rfl, .some (h.imp fun a b same => ?_)⟩
    cases a <;> cases b <;> simp_all [Value.same, Value.str?, Value.isNull]
  · exact ⟨rfl, rfl, .none⟩

theorem agreeSurface (h : agree x y = true) : SameSurface x y := by
  cases x with
  | obj => cases y with
    | obj => exact ⟨rfl, rfl, .none⟩
    | _ => simp [agree, BEq.beq, Value.same] at h
  | arr xs => cases y with
    | arr ys =>
      rw [agree, agreeItemsIff] at h
      refine ⟨rfl, rfl, .some (h.imp fun a b agrees => ?_)⟩
      cases a with
      | obj | arr => cases b <;> simp_all [agree, BEq.beq, Value.same, Value.str?, Value.isNull]
      | _ =>
        rw [agreeLeaf rfl rfl] at agrees
        cases b <;> simp_all [Value.same, Value.str?, Value.isNull]
    | _ => simp [agree, BEq.beq, Value.same] at h
  | _ =>
    rw [agreeLeaf rfl rfl] at h
    exact sameSurface h

theorem keysCompared {typed : Bool} : ∀ key ∈ classifiedKeys, key ≠ "type" → key ≠ "format" →
    compared typed key = true := by
  cases typed <;> decide

theorem agreeClassifies (lawful : v.lawful = true) (lawful' : w.lawful = true)
    (h : agree v w = true) (l : Location) : classify v l = classify w l := by
  cases v with
  | obj xs =>
    cases w with
    | obj ys =>
      obtain ⟨once, _⟩ := Value.lawfulObject.mp lawful
      obtain ⟨once', _⟩ := Value.lawfulObject.mp lawful'
      rcases (agreeObject once once').mp h with ⟨t, u, typed, typed', same, pairs⟩ | ⟨_, _, pairs⟩
      · -- rewritten, both have the types and the formats that were compared
        rw [← classifyModern xs, ← classifyModern ys]
        have reads : ∀ {members r}, normalType members = some r →
            (modernized members).lookup "type" = some r.1 ∧
            (modernized members).lookup "format" = r.2 := by
          intro members r told
          rw [normalTypeIs] at told
          split at told
          · obtain ⟨type, held, rfl⟩ := Option.map_eq_some_iff.mp told
            exact ⟨held, rfl⟩
          · contradiction
        obtain ⟨type, format⟩ := reads typed
        obtain ⟨type', format'⟩ := reads typed'
        refine classifySurface fun key mem => ?_
        by_cases isType : key = "type"
        · subst isType
          simp only [Value.get?, type, type']
          exact .some (sameSurface same.1)
        · by_cases isFormat : key = "format"
          · subst isFormat
            simp only [Value.get?, format, format']
            exact relImp (fun _ _ => sameSurface) same.2
          · simp only [Value.get?, modernizedOther isType isFormat]
            have related := pairs key (keysCompared key mem isType isFormat)
            exact relImp (fun _ _ => agreeSurface) related
      · refine classifySurface fun key mem => ?_
        have counts : compared false key = true := by revert key; decide
        exact relImp (fun _ _ => agreeSurface) (pairs key counts)
    | _ => simp [agree, BEq.beq, Value.same] at h
  | _ => cases w <;> first | rfl | simp [agree, BEq.beq, Value.same] at h

end Modern
end ApiGraph.Json
