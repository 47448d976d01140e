import ApiGraph.Graph.OutlineJson

/-! Reading the JSON value of an outline. Each part is read back as what it was written for: a record
from members that stand in the order of its fields, a choice from its name and what it carries, and an
input by its tag. -/
namespace ApiGraph.Outline
open Json

def ReadsBack {α : Type} (write : α → Value) (read : Decode α) : Prop := ∀ a, read (write a) = .ok a

section Parts
variable {α : Type} {write : α → Value} {read : Decode α}

theorem ReadsBack.checked (back : ReadsBack write read) (a : α) : check read (write a) = .ok () := by
  rw [check, back a]
  rfl

theorem textsBack : ReadsBack .str decodeText := fun _ => rfl

theorem listsBack (back : ReadsBack write read) :
    ReadsBack (fun xs => .arr (xs.map write)) (decodeList read) := by
  intro xs
  change (xs.map write).mapM read = .ok xs
  induction xs with
  | nil => rfl
  | cons x r ih => simp [back x, ih, bind, Except.bind, pure, Except.pure]

theorem checkFirst {fields : List FieldCheck} {key : String} {v : Value} {more : Members}
    {item : Value → Except DecodeError Unit} (known : fields.lookup key = some item)
    (valid : item v = .ok ()) : checkMembers fields ((key, v) :: more) = checkMembers fields more := by
  simp [checkMembers, known, valid, bind, Except.bind]

theorem checkTag {fields : List FieldCheck} {key : String} {v : Value} {more : Members}
    (unknown : fields.lookup key = none) :
    checkMembers fields ((key, v) :: more) = checkMembers fields more := by
  simp [checkMembers, unknown, bind, Except.bind]

variable {β : Type}

theorem recordThen {name : String} {fields : List FieldCheck} {optional : Nat} {ms : Members}
    {next : Members → Except DecodeError β} (valid : checkMembers fields ms = .ok ()) :
    (recordMembers name fields optional (.obj ms) >>= next) = next ms := by
  simp [recordMembers, valid, bind, Except.bind]

theorem fieldThen (back : ReadsBack write read) (a : α) {ms : Members} {name : String}
    {next : α → Except DecodeError β} (held : ms.lookup name = some (write a)) :
    (field ms name read >>= next) = next a := by
  simp [field, held, back a, bind, Except.bind]

end Parts

theorem textListsBack : ReadsBack textsJson readTexts := listsBack textsBack

theorem locationsBack : ReadsBack locationJson readLocation := by
  intro l
  rw [readLocation, locationJson, textListsBack l.segments]
  rfl

theorem kindsBack : ReadsBack kindJson readKind := by
  intro k
  cases k <;> rfl

theorem mediaBack : ReadsBack mediaJson readMedia := by
  intro m
  cases m with
  | void => rfl
  | any => rfl
  | types mediaTypes =>
    have carried : readTypes (some (textsJson mediaTypes)) = .ok (.types mediaTypes) := by
      rw [readTypes, textListsBack mediaTypes]
      rfl
    change (readTypes (some (textsJson mediaTypes)) >>= _) = _
    rw [carried]
    rfl

theorem codesBack : ReadsBack codeJson readCode := by
  intro c
  calc readCode (codeJson c)
    _ = _ := recordThen (by
      rw [checkFirst rfl (textsBack.checked c.code), checkFirst rfl (mediaBack.checked c.media)]
      rfl)
    _ = _ := fieldThen textsBack c.code rfl
    _ = .ok c := fieldThen mediaBack c.media rfl

theorem inputThen {isRequest : Bool} {ms : Members} (tagged : field ms "nodeKind" readTag = .ok isRequest)
    (valid : checkMembers (inputFields isRequest) ms = .ok ()) :
    readInput (.obj ms) = inputOf isRequest ms := by
  simp [readInput, tagged, valid, bind, Except.bind]

theorem inputsBack : ReadsBack inputJson readInput := by
  intro i
  cases i with
  | parameter l =>
    calc readInput (inputJson (.parameter l))
      _ = _ := inputThen rfl (by
        rw [checkTag rfl, checkFirst rfl (locationsBack.checked l)]
        rfl)
      _ = .ok (.parameter l) := fieldThen locationsBack l rfl
  | request l name preferred =>
    calc readInput (inputJson (.request l name preferred))
      _ = _ := inputThen rfl (by
        rw [checkTag rfl, checkFirst rfl (locationsBack.checked l), checkFirst rfl (textsBack.checked name),
          checkFirst rfl (textListsBack.checked preferred)]
        rfl)
      _ = _ := fieldThen locationsBack l rfl
      _ = _ := fieldThen textsBack name rfl
      _ = .ok (.request l name preferred) := fieldThen textListsBack preferred rfl

theorem responsesBack : ReadsBack responseJson readResponse := by
  intro r
  calc readResponse (responseJson r)
    _ = _ := recordThen (by
      rw [checkFirst rfl (kindsBack.checked r.kind), checkFirst rfl (locationsBack.checked r.location),
        checkFirst rfl ((listsBack codesBack).checked r.preferred)]
      rfl)
    _ = _ := fieldThen kindsBack r.kind rfl
    _ = _ := fieldThen locationsBack r.location rfl
    _ = .ok r := fieldThen (listsBack codesBack) r.preferred rfl

theorem methodsBack : ReadsBack methodJson readMethod := by
  intro m
  calc readMethod (methodJson m)
    _ = _ := recordThen (by
      rw [checkFirst rfl (kindsBack.checked m.kind), checkFirst rfl (locationsBack.checked m.location),
        checkFirst rfl (textsBack.checked m.pattern),
        checkFirst rfl ((listsBack inputsBack).checked m.inputs),
        checkFirst rfl (responsesBack.checked m.response)]
      rfl)
    _ = _ := fieldThen kindsBack m.kind rfl
    _ = _ := fieldThen locationsBack m.location rfl
    _ = _ := fieldThen textsBack m.pattern rfl
    _ = _ := fieldThen (listsBack inputsBack) m.inputs rfl
    _ = .ok m := fieldThen responsesBack m.response rfl

theorem apisBack : ReadsBack apiJson readApi := by
  intro a
  calc readApi (apiJson a)
    _ = _ := recordThen (by
      rw [checkFirst rfl (kindsBack.checked a.kind), checkFirst rfl (locationsBack.checked a.location),
        checkFirst rfl (textsBack.checked a.name),
        checkFirst rfl ((listsBack methodsBack).checked a.methods)]
      rfl)
    _ = _ := fieldThen kindsBack a.kind rfl
    _ = _ := fieldThen locationsBack a.location rfl
    _ = _ := fieldThen textsBack a.name rfl
    _ = .ok a := fieldThen (listsBack methodsBack) a.methods rfl

theorem typesBack : ReadsBack typeJson readType := by
  intro t
  obtain ⟨kind, l, name⟩ := t
  cases name with
  | none =>
    calc readType (typeJson ⟨kind, l, none⟩)
      _ = readType (.obj [("nodeKind", kindJson kind), ("location", locationJson l)]) := rfl
      _ = _ := recordThen (by
        rw [checkFirst rfl (kindsBack.checked kind), checkFirst rfl (locationsBack.checked l)]
        rfl)
      _ = _ := fieldThen kindsBack kind rfl
      _ = .ok ⟨kind, l, none⟩ := fieldThen locationsBack l rfl
  | some name =>
    calc readType (typeJson ⟨kind, l, some name⟩)
      _ = readType (.obj [("nodeKind", kindJson kind), ("location", locationJson l),
          ("name", .str name)]) := rfl
      _ = _ := recordThen (by
        rw [checkFirst rfl (kindsBack.checked kind), checkFirst rfl (locationsBack.checked l),
          checkFirst rfl rfl]
        rfl)
      _ = _ := fieldThen kindsBack kind rfl
      _ = .ok ⟨kind, l, some name⟩ := fieldThen locationsBack l rfl

/- The JSON value of an outline loses nothing of it. -/
theorem outlinesBack (o : Outline) : ofJson o.toJson = .ok o := by
  calc ofJson o.toJson
    _ = _ := recordThen (by
      rw [checkFirst rfl ((listsBack apisBack).checked o.apis),
        checkFirst rfl ((listsBack typesBack).checked o.types)]
      rfl)
    _ = _ := fieldThen (listsBack apisBack) o.apis rfl
    _ = .ok o := fieldThen (listsBack typesBack) o.types rfl

end ApiGraph.Outline
