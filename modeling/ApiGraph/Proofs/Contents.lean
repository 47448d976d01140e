import ApiGraph.Proofs.SchemaWalk

/-! What a schema contains, as one list. A node is filled by visiting its contents in order, so what
holds of a visit can be carried to the walk by induction on that list. -/
namespace ApiGraph.Build
open Json Resolve ApiGraph.Graph

def itemsWithin (schema : Value) (l : Location) (key : String) : List (Value × Location) :=
  ((schema.itemsAt? key).getD []).zipIdx.map fun e => (e.1, (l.child key).child (toString e.2))

def optionWithin (l : Location) (key : String) (x : Option Value) : List (Value × Location) :=
  x.toList.map fun v => (v, l.child key)

def membersWithin (schema : Value) (l : Location) (key : String) : List (Value × Location) :=
  ((schema.membersAt? key).getD []).map fun e => (e.2, (l.child key).child e.1)

def contents (shape : Shape) (schema : Value) (l : Location) : List (Value × Location) :=
  itemsWithin schema l "allOf" ++ (itemsWithin schema l "oneOf" ++
    (itemsWithin schema l "anyOf" ++ (optionWithin l "not" (schema.get? "not") ++
      (membersWithin schema l "properties" ++
        (optionWithin l "additionalProperties" (additionalSchema shape schema) ++
          optionWithin l "items" (itemsSchema shape schema))))))

def Declares (shape : Shape) (schema : Value) : Prop :=
  schema.membersAt? "properties" = none ∨ ∃ r, shape = .record r

section Runs
variable {α β γ : Type} {g m g' : Graph}

theorem Runs.append {f : α → Walk β} {xs xs' : List α} {ys ys' : List β}
    (h : Runs f xs g ys m) (h' : Runs f xs' m ys' g') : Runs f (xs ++ xs') g (ys ++ ys') g' := by
  induction h with
  | nil => exact h'
  | cons head _ ih => exact .cons head (ih h')

theorem forMAppend {f : α → Walk PUnit} {xs ys : List α} (first : xs.forM f g = .ok (⟨⟩, m))
    (rest : ys.forM f m = .ok (⟨⟩, g')) :
    (xs ++ ys).forM f g = .ok (⟨⟩, g') := by
  obtain ⟨us, runs⟩ := runForM.mp first
  obtain ⟨us', runs'⟩ := runForM.mp rest
  exact runForM.mpr ⟨us ++ us', runs.append runs'⟩

theorem forMCons {f : α → Walk PUnit} {x : α} {xs : List α} (first : f x g = .ok (⟨⟩, m))
    (rest : xs.forM f m = .ok (⟨⟩, g')) :
    (x :: xs).forM f g = .ok (⟨⟩, g') := by
  obtain ⟨us, runs⟩ := runForM.mp rest
  exact runForM.mpr ⟨⟨⟩ :: us, .cons first runs⟩

theorem Runs.along {f : α → Walk β} {p : γ → α} {xs : List γ} {ys : List β}
    (h : Runs (fun x => f (p x)) xs g ys g') : Runs f (xs.map p) g ys g' := by
  induction h with
  | nil => exact .nil _
  | cons head _ ih => exact .cons head ih

theorem Runs.results {f : α → Walk β} {k : α → β → γ} {xs : List α} {ys : List γ}
    (h : Runs (fun x => do return k x (← f x)) xs g ys g') : ∃ zs, Runs f xs g zs g' := by
  induction h with
  | nil g => exact ⟨[], .nil g⟩
  | cons head _ ih =>
    obtain ⟨zs, rest⟩ := ih
    simp only [runBind, runPure] at head
    obtain ⟨z, _, one, _, rfl⟩ := head
    exact ⟨z :: zs, .cons one rest⟩

end Runs

section Filling
variable {visit : Value → Location → Walk SchemaId} {g g' : Graph} {schema : Value} {l : Location}

theorem visitItemsRuns {key : String} {ids : List SchemaId}
    (run : visitItems visit schema l key g = .ok (ids, g')) :
    Runs (fun e => visit e.1 e.2) (itemsWithin schema l key) g ids g' :=
  Runs.along (runMapM.mp run)

theorem visitOptionRuns {key : String} {x : Option Value} {id : Option SchemaId}
    (run : visitOption visit l key x g = .ok (id, g')) :
    ∃ ids, Runs (fun e => visit e.1 e.2) (optionWithin l key x) g ids g' := by
  cases x with
  | none =>
    obtain ⟨rfl, rfl⟩ := runPure.mp run
    exact ⟨[], .nil _⟩
  | some v =>
    simp only [visitOption, runBind, runPure] at run
    obtain ⟨made, m, one, rfl, rfl⟩ := run
    exact ⟨[made], .cons one (.nil _)⟩

theorem visitPropertiesRuns {shape : Shape} {ids : List (String × SchemaId)}
    (run : visitProperties visit shape schema l g = .ok (ids, g')) :
    Declares shape schema ∧
      ∃ ids, Runs (fun e => visit e.1 e.2) (membersWithin schema l "properties") g ids g' := by
  cases held : schema.membersAt? "properties" with
  | none =>
    simp only [visitProperties, held, runPure] at run
    obtain ⟨rfl, rfl⟩ := run
    have bare : membersWithin schema l "properties" = [] := by simp [membersWithin, held]
    exact ⟨.inl held, [], bare ▸ .nil _⟩
  | some members =>
    cases shape with
    | record r =>
      simp only [visitProperties, held, visitMembers] at run
      obtain ⟨ids, runs⟩ := Runs.results (runMapM.mp run)
      have same : membersWithin schema l "properties" =
          members.map fun e => (e.2, (l.child "properties").child e.1) := by
        simp [membersWithin, held]
      exact ⟨.inr ⟨r, rfl⟩, ids, same ▸ Runs.along runs⟩
    | leaf => simp only [visitProperties, held, runThrow] at run
    | array unset => simp only [visitProperties, held, runThrow] at run

/- To fill a node is to visit its contents and to write down their nodes. -/
theorem fillSchemaRuns {id : SchemaId} {shape : Shape} {u : PUnit}
    (run : fillSchema visit id shape schema l g = .ok (u, g')) :
    Declares shape schema ∧ ∃ ids c m, Runs (fun e => visit e.1 e.2) (contents shape schema l) g ids m ∧
      g' = m.setSchema id (·.withChildren c) := by
  simp only [fillSchema, runBind, runModify] at run
  obtain ⟨allOf, _, run₁, oneOf, _, run₂, anyOf, _, run₃, not, _, run₄, properties, _, run₅,
    additional, _, run₆, items, m, run₇, rfl⟩ := run
  have first := visitItemsRuns run₁
  have second := visitItemsRuns run₂
  have third := visitItemsRuns run₃
  obtain ⟨_, fourth⟩ := visitOptionRuns run₄
  obtain ⟨declares, _, fifth⟩ := visitPropertiesRuns run₅
  obtain ⟨_, sixth⟩ := visitOptionRuns run₆
  obtain ⟨_, last⟩ := visitOptionRuns run₇
  have all := first.append (second.append (third.append (fourth.append
    (fifth.append (sixth.append last)))))
  exact ⟨declares, _, ⟨allOf, oneOf, anyOf, not, properties, additional, items⟩, m, all, rfl⟩

end Filling

section Places
variable {doc schema : Value} {l : Location} {shape : Shape} {e : Value × Location}

theorem memItemsWithin {key : String} (mem : e ∈ itemsWithin schema l key) :
    ∃ (items : List Value) (i : Nat), schema.itemsAt? key = some items ∧ items[i]? = some e.1 ∧
      e.2 = (l.child key).child (toString i) := by
  obtain ⟨⟨x, i⟩, inside, rfl⟩ := List.mem_map.mp mem
  have found := List.mk_mem_zipIdx_iff_getElem?.mp inside
  cases held : schema.itemsAt? key with
  | none => simp [held] at found
  | some items =>
    rw [held] at found
    exact ⟨items, i, rfl, found, rfl⟩

theorem memOptionWithin {key : String} {x : Option Value} (mem : e ∈ optionWithin l key x) :
    x = some e.1 ∧ e.2 = l.child key := by
  obtain ⟨v, inside, rfl⟩ := List.mem_map.mp mem
  exact ⟨Option.mem_toList.mp inside, rfl⟩

theorem memMembersWithin {key : String} (mem : e ∈ membersWithin schema l key) :
    ∃ members name, schema.membersAt? key = some members ∧ (name, e.1) ∈ members ∧
      e.2 = (l.child key).child name := by
  obtain ⟨⟨name, x⟩, inside, rfl⟩ := List.mem_map.mp mem
  cases held : schema.membersAt? key with
  | none => simp [held] at inside
  | some members =>
    rw [held] at inside
    exact ⟨members, name, rfl, inside, rfl⟩

inductive Contains (shape : Shape) (schema : Value) (l : Location) (e : Value × Location) : Prop
  | item (key : String) (listed : key = "allOf" ∨ key = "oneOf" ∨ key = "anyOf")
      (mem : e ∈ itemsWithin schema l key)
  | not (mem : e ∈ optionWithin l "not" (schema.get? "not"))
  | property (mem : e ∈ membersWithin schema l "properties")
  | additional
      (mem : e ∈ optionWithin l "additionalProperties" (additionalSchema shape schema))
  | items (mem : e ∈ optionWithin l "items" (itemsSchema shape schema))

theorem memContents (mem : e ∈ contents shape schema l) : Contains shape schema l e := by
  simp only [contents, List.mem_append] at mem
  rcases mem with mem | mem | mem | mem | mem | mem | mem
  · exact .item "allOf" (.inl rfl) mem
  · exact .item "oneOf" (.inr (.inl rfl)) mem
  · exact .item "anyOf" (.inr (.inr rfl)) mem
  · exact .not mem
  · exact .property mem
  · exact .additional mem
  · exact .items mem

theorem contentsAt (lawful : doc.lawful = true) (at_ : Tree.get? l doc = some schema)
    (mem : e ∈ contents shape schema l) : Tree.get? e.2 doc = some e.1 := by
  cases memContents mem with
  | item key _ mem =>
    obtain ⟨items, i, held, found, place⟩ := memItemsWithin mem
    rw [place]
    exact Tree.itemAt at_ held found
  | not mem =>
    obtain ⟨held, place⟩ := memOptionWithin mem
    rw [place]
    exact Tree.childAt at_ held
  | property mem =>
    obtain ⟨members, name, held, found, place⟩ := memMembersWithin mem
    rw [place]
    exact Tree.memberAt lawful at_ held found
  | additional mem =>
    obtain ⟨held, place⟩ := memOptionWithin mem
    rw [place]
    exact Tree.childAt at_ (additionalSchemaSource held)
  | items mem =>
    obtain ⟨held, place⟩ := memOptionWithin mem
    rw [place]
    exact Tree.childAt at_ (itemsSchemaSource held)

theorem startsWithJoin (l : Location) (segments : List String) :
    (l.join segments).startsWith l = true := by
  simp [Location.join, Location.startsWith]

theorem contentsBelow (mem : e ∈ contents shape schema l) : e.2.startsWith l = true := by
  have one := fun a => startsWithJoin l [a]
  have two := fun a b => startsWithJoin l [a, b]
  simp only [joinTwo] at two
  cases memContents mem with
  | item key _ mem =>
    obtain ⟨_, i, _, _, place⟩ := memItemsWithin mem
    exact place ▸ two key (toString i)
  | property mem =>
    obtain ⟨_, name, _, _, place⟩ := memMembersWithin mem
    exact place ▸ two "properties" name
  | not mem => exact (memOptionWithin mem).2 ▸ one "not"
  | additional mem => exact (memOptionWithin mem).2 ▸ one "additionalProperties"
  | items mem => exact (memOptionWithin mem).2 ▸ one "items"

theorem contentsStand {nodes : List Schema} {s : Schema} {v : Value} {c : Classify.Classified}
    (mirrors : Mirrors doc nodes s v) (told : Classify.classify v s.location = .ok c)
    (mem : e ∈ contents c.shape v s.location) : ∃ id, StandsFor doc nodes e.1 e.2 id := by
  obtain ⟨c', told', _, _, _, shape⟩ := mirrors.classified
  cases told.symm.trans told'
  generalize c.shape = told' at shape mem
  generalize s.shape = own at shape
  have option : ∀ {key : String} {x : Option Value} {id : Option SchemaId},
      MirrorsOption doc nodes (s.location.child key) x id →
      e ∈ optionWithin s.location key x → ∃ id, StandsFor doc nodes e.1 e.2 id := by
    intro key x id holds inside
    obtain ⟨rfl, place⟩ := memOptionWithin inside
    cases id with
    | none => exact holds.elim
    | some id => exact ⟨id, place ▸ holds⟩
  have items : ∀ {key : String} {ids : List SchemaId},
      MirrorsItems doc nodes v s.location key ids → e ∈ itemsWithin v s.location key →
      ∃ id, StandsFor doc nodes e.1 e.2 id := by
    intro key ids holds inside
    obtain ⟨x, within, rfl⟩ := List.mem_map.mp inside
    obtain ⟨id, _, stands⟩ := counterpart holds within
    exact ⟨id, stands⟩
  cases memContents mem with
  | item key listed mem =>
    rcases listed with rfl | rfl | rfl
    · exact items mirrors.allOf mem
    · exact items mirrors.oneOf mem
    · exact items mirrors.anyOf mem
  | not mem => exact option mirrors.not mem
  | property mem =>
    obtain ⟨members, name, held, inside, place⟩ := memMembersWithin mem
    cases shape with
    | leaf bare => simp [bare] at held
    | array bare _ => simp [bare] at held
    | record _ properties _ =>
      rw [held] at properties
      obtain ⟨id, _, _, stands⟩ := counterpart properties inside
      exact ⟨id.2, place ▸ stands⟩
  | additional mem =>
    obtain ⟨held, place⟩ := memOptionWithin mem
    cases shape with
    | leaf bare => simp [additionalSchema] at held
    | array bare _ => simp [additionalSchema] at held
    | record _ _ additional =>
      cases object : v.get? "additionalProperties" with
      | none => simp [additionalSchema, object] at held
      | some w =>
        cases w with
        | obj members =>
          simp only [additionalSchema, object, Option.some.injEq] at held additional
          obtain ⟨id, _, stands⟩ := additional
          exact ⟨id, by rw [place, ← held]; exact stands⟩
        | _ => simp [additionalSchema, object] at held
  | items mem =>
    cases shape with
    | leaf bare => simp [optionWithin, itemsSchema] at mem
    | array bare element => exact option element mem
    | record _ _ _ => simp [optionWithin, itemsSchema] at mem

end Places
end ApiGraph.Build
