import ApiGraph.Proofs.Sites

/-! What becomes of the sites of a document when one of them gives way to a reference, and when a
definition is added. The sites that are left keep their fingerprints and the names they ask for. -/
namespace ApiGraph.Tree
open Json

theorem Wrote.split {w v v' u : Value} {p q : List String} (wrote : Wrote w (p ++ q) v v')
    (held : walk? p v = some u) : ∃ x, Wrote w q u x ∧ Wrote x p v v' := by
  induction p generalizing v v' with
  | nil =>
    cases held
    exact ⟨v', wrote, .here _⟩
  | cons s r ih =>
    obtain ⟨y, step, rest⟩ := Option.bind_eq_some_iff.mp held
    generalize way : s :: r ++ q = path at wrote
    cases wrote with
    | here => simp at way
    | @member _ _ _ members _ isObject below =>
      obtain ⟨rfl, rfl⟩ := List.cons.inj way
      have inside : members.lookup s = some y := by
        have walked := (positionOpened isObject []).2 s []
        simpa [walk?, step] using walked.symm
      rw [inside, Option.getD_some] at below
      obtain ⟨x, inner, outer⟩ := ih below rest
      exact ⟨x, inner, .member isObject (by rw [inside]; exact outer)⟩
    | element named there below =>
      obtain ⟨rfl, rfl⟩ := List.cons.inj way
      simp only [step?, named, Option.bind_some, there, Option.some.injEq] at step
      subst step
      obtain ⟨x, inner, outer⟩ := ih below rest
      exact ⟨x, inner, .element named there outer⟩
    | appended named =>
      obtain ⟨rfl, _⟩ := List.cons.inj way
      simp [step?, named] at step

theorem writeOver {v node x : Value} {p : List String} (held : walk? p node = some x) :
    ∃ node', write? v p node = some node' := by
  induction p generalizing node with
  | nil => exact ⟨v, rfl⟩
  | cons s r ih =>
    obtain ⟨y, step, rest⟩ := Option.bind_eq_some_iff.mp held
    obtain ⟨w, below⟩ := ih rest
    cases node with
    | obj members =>
      have inside : members.lookup s = some y := step
      exact ⟨.obj (Entries.put s w members), by simp [write?, opened, inside, below]⟩
    | arr items =>
      obtain ⟨i, named, there⟩ := Option.bind_eq_some_iff.mp step
      exact ⟨.arr (items.set i w), by simp [write?, opened, named, there, below]⟩
    | _ => simp [step?] at step

end ApiGraph.Tree

namespace ApiGraph.Hoist
open Json ApiGraph.Tree Fingerprint

theorem slotKeys (role : Role) : ∀ s ∈ slots role, s.key ≠ "$ref" ∧ s.key ≠ "x-schema-name" ∧
    (role = .schema → s.key ≠ "type" ∧ s.key ≠ "required" ∧ s.key ≠ "enum") := by
  cases role <;> decide

theorem Held.object {v x : Value} {s : Slot} {path : List String} (h : Held v s path x) :
    v.isObject = true := by
  cases v <;> cases h <;> simp_all [Value.get?, Value.isObject]

section Replaced
variable {role : Role} {v v' x x' : Value} {s t : Slot} {path : List String}

theorem wroteOne {k : String} {members : Members} (wrote : Wrote x' [k] (.obj members) v') :
    v' = .obj (Entries.put k x' members) := by
  cases wrote with
  | member isObject below =>
    cases isObject
    cases below
    rfl

theorem wroteTwo {k name : String} {members : Members} {y : Value}
    (held : members.lookup k = some y) (wrote : Wrote x' [k, name] (.obj members) v') :
    ∃ w, Wrote x' [name] y w ∧ v' = .obj (Entries.put k w members) := by
  cases wrote with
  | member isObject below =>
    cases isObject
    rw [held, Option.getD_some] at below
    exact ⟨_, below, rfl⟩

theorem heldOne (form : s.form = .one) {z : Value} :
    Held v s path z ↔ path = [s.key] ∧ v.get? s.key = some z := by
  constructor
  · intro h
    cases h with
    | one _ held => exact ⟨rfl, held⟩
    | item other => simp [form] at other
    | member other => simp [form] at other
  · rintro ⟨rfl, held⟩
    exact .one form held

theorem heldItem (form : s.form = .items) {items : List Value}
    (held : v.get? s.key = some (.arr items)) {z : Value} :
    Held v s path z ↔ ∃ i : Nat, path = [s.key, toString i] ∧ items[i]? = some z := by
  constructor
  · intro h
    cases h with
    | one other => simp [form] at other
    | @item _ i _ _ again found =>
      cases held.symm.trans again
      exact ⟨i, rfl, found⟩
    | member other => simp [form] at other
  · rintro ⟨i, rfl, found⟩
    exact .item form held found

theorem heldMember (form : s.form = .members) {members : Members}
    (held : v.get? s.key = some (.obj members)) (once : (Entries.keys members).Nodup) {z : Value} :
    Held v s path z ↔ ∃ name, path = [s.key, name] ∧ members.lookup name = some z := by
  constructor
  · intro h
    cases h with
    | one other => simp [form] at other
    | item other => simp [form] at other
    | @member _ name _ _ again found =>
      cases held.symm.trans again
      exact ⟨name, rfl, Entries.lookupOfMem once found⟩
  · rintro ⟨name, rfl, found⟩
    exact .member form held (Entries.mem_of_lookup found)

theorem wroteElement {items : List Value} {i : Nat} {w : Value} (small : i < items.length)
    (wrote : Wrote x' [toString i] (.arr items) w) : w = .arr (items.set i x') := by
  have numeral := indexOfNumeral i
  cases wrote with
  | member isObject => simp [opened] at isObject
  | element named there below =>
    cases numeral.symm.trans named
    cases below
    rfl
  | appended named =>
    cases numeral.symm.trans named
    omega

theorem Held.replaced (h : Held v s path x) (lawful : v.lawful = true) (wrote : Wrote x' path v v')
    {path' : List String} {z : Value} :
    Held v' s path' z ↔ (Held v s path' z ∧ path' ≠ path) ∨ (path' = path ∧ z = x') := by
  have object := h.object
  cases v with
  | obj members =>
    have each := (Value.lawfulObject.mp lawful).2
    cases h with
    | one form held =>
      cases wroteOne wrote
      have here : (Value.obj (Entries.put s.key x' members)).get? s.key = some x' := by
        simp [Value.get?]
      rw [heldOne form, heldOne form, here]
      constructor
      · rintro ⟨rfl, same⟩
        exact .inr ⟨rfl, (Option.some.inj same).symm⟩
      · rintro (⟨⟨rfl, _⟩, other⟩ | ⟨rfl, rfl⟩)
        · exact absurd rfl other
        · exact ⟨rfl, rfl⟩
    | @item items i x form held found =>
      obtain ⟨w, below, rfl⟩ := wroteTwo held wrote
      obtain ⟨small, _⟩ := List.getElem?_eq_some_iff.mp found
      cases wroteElement small below
      have here : (Value.obj (Entries.put s.key (.arr (items.set i x')) members)).get? s.key =
          some (.arr (items.set i x')) := by simp [Value.get?]
      rw [heldItem form here, heldItem form held]
      constructor
      · rintro ⟨j, rfl, found'⟩
        by_cases same : j = i
        · subst same
          exact .inr ⟨rfl, by simpa [small] using found'.symm⟩
        · rw [List.getElem?_set_ne (Ne.symm same)] at found'
          exact .inl ⟨⟨j, rfl, found'⟩, by simpa using fun equal => same (numeralInj equal)⟩
      · rintro (⟨⟨j, rfl, found'⟩, other⟩ | ⟨rfl, rfl⟩)
        · have apart : i ≠ j := fun equal => other (by rw [equal])
          exact ⟨j, rfl, by rw [List.getElem?_set_ne apart, found']⟩
        · exact ⟨i, rfl, by simp [small]⟩
    | @member inner name x form held found =>
      obtain ⟨w, below, rfl⟩ := wroteTwo held wrote
      cases wroteOne below
      have once := (Value.lawfulObject.mp (each _ (Entries.mem_of_lookup held))).1
      have here : (Value.obj (Entries.put s.key (.obj (Entries.put name x' inner)) members)).get?
          s.key = some (.obj (Entries.put name x' inner)) := by simp [Value.get?]
      rw [heldMember form here (Entries.nodupPut name x' once), heldMember form held once]
      constructor
      · rintro ⟨name', rfl, found'⟩
        rcases Entries.lookupPutCases found' with ⟨rfl, rfl⟩ | ⟨apart, old⟩
        · exact .inr ⟨rfl, rfl⟩
        · exact .inl ⟨⟨name', rfl, old⟩, by simpa using apart⟩
      · rintro (⟨⟨name', rfl, found'⟩, other⟩ | ⟨rfl, rfl⟩)
        · have apart : name' ≠ name := fun equal => other (by rw [equal])
          exact ⟨name', rfl, by rw [Entries.lookupPutOther apart, found']⟩
        · exact ⟨name, rfl, Entries.lookupPut _ _ _⟩
  | _ => simp [Value.isObject] at object

theorem heldSame (same : v'.get? s.key = v.get? s.key) {z : Value} :
    Held v' s path z ↔ Held v s path z := by
  constructor
  · intro h
    cases h with
    | one form held => exact .one form (same ▸ held)
    | item form held found => exact .item form (same ▸ held) found
    | member form held found => exact .member form (same ▸ held) found
  · intro h
    cases h with
    | one form held => exact .one form (same.symm ▸ held)
    | item form held found => exact .item form (same.symm ▸ held) found
    | member form held found => exact .member form (same.symm ▸ held) found

theorem wroteObject {k : String} {r : List String} (wrote : Wrote x' (k :: r) v v')
    (object : v.isObject = true) : v'.isObject = true := by
  cases wrote with
  | member => rfl
  | element => exact object
  | appended => exact object

theorem enteredReplaced (slot : s ∈ slots role) {r : List String}
    (wrote : Wrote x' (s.key :: r) v v') (object : v.isObject = true) :
    entered role v' = entered role v := by
  have named : refOf v' = refOf v := by
    rw [refOf, refOf, Value.textAt?, Value.textAt?, wrote.others (slotKeys role s slot).1.symm]
  have object' := wroteObject wrote object
  cases role <;> simp [entered, named, object, object']

theorem partsReplaced {p : Part} (mem : p ∈ parts role v) (lawful : v.lawful = true)
    (wrote : Wrote x' p.path v v') (q : Part) : q ∈ parts role v' ↔
      (q ∈ parts role v ∧ q.path ≠ p.path) ∨ q = ⟨p.role, p.path, x'⟩ := by
  obtain ⟨open_, s, slot, kind, held⟩ := memParts.mp mem
  obtain ⟨r, way⟩ := held.headed
  have below := way ▸ wrote
  have entered' : entered role v' = true :=
    (enteredReplaced slot below held.object).trans open_
  rw [memParts, memParts]
  simp only [entered', open_, true_and]
  constructor
  · rintro ⟨t, slot', kind', held'⟩
    by_cases same : t.key = s.key
    · cases slotUnique slot' slot same
      rcases (held.replaced lawful wrote).mp held' with ⟨old, other⟩ | ⟨path, value⟩
      · exact .inl ⟨⟨s, slot, kind', old⟩, other⟩
      · obtain ⟨_, _, _⟩ := q
        simp only at path value kind'
        subst path value
        rw [kind', ← kind]
        exact .inr rfl
    · refine .inl ⟨⟨t, slot', kind', (heldSame (below.others same)).mp held'⟩, fun path => same ?_⟩
      obtain ⟨r', way'⟩ := held'.headed
      rw [way, way'] at path
      exact (List.cons.inj path).1
  · rintro (⟨⟨t, slot', kind', held'⟩, other⟩ | rfl)
    · by_cases same : t.key = s.key
      · cases slotUnique slot' slot same
        exact ⟨s, slot, kind', (held.replaced lawful wrote).mpr (.inl ⟨held', other⟩)⟩
      · exact ⟨t, slot', kind', (heldSame (below.others same)).mpr held'⟩
    · exact ⟨s, slot, kind, (held.replaced lawful wrote).mpr (.inr ⟨rfl, rfl⟩)⟩

end Replaced

structure SameSite (y y' : Value) : Prop where
  entered : entered .schema y' = entered .schema y
  fingerprint : fingerprint y' = fingerprint y
  preset : preset y' = preset y

theorem SameSite.refl (y : Value) : SameSite y y := ⟨rfl, rfl, rfl⟩

section Fingerprints
variable {v v' x x' : Value} {s : Slot} {path : List String}

theorem keysReplaced (h : Held v s path x) (key : s.key = "properties") (slot : s ∈ slots .schema)
    (wrote : Wrote x' path v v') : (v'.membersAt? "properties").map Entries.keys =
      (v.membersAt? "properties").map Entries.keys := by
  have form : s.form = .members := by
    have found : (⟨"properties", .members, .schema⟩ : Slot) ∈ slots .schema := by decide
    rw [slotUnique slot found key]
  cases v with
  | obj members =>
    cases h with
    | one form' => simp [form] at form'
    | item form' => simp [form] at form'
    | @member inner name x form' held found =>
      rw [key] at held wrote
      have inside : members.lookup "properties" = some (.obj inner) := held
      obtain ⟨w, below, rfl⟩ := wroteTwo inside wrote
      cases wroteOne below
      have keys : Entries.keys (Entries.put name x' inner) = Entries.keys inner := by
        rcases Entries.keysPut name x' inner with same | ⟨fresh, _⟩
        · exact same
        · exact absurd (List.mem_map.mpr ⟨_, found, rfl⟩) fresh
      simp [Value.membersAt?, Value.get?, inside, Value.members?, keys]
  | _ => simpa [Value.isObject] using h.object

theorem ofObjectKeys {a b : Members} (same : Entries.keys a = Entries.keys b) :
    ofObject a = ofObject b ∧ a.isEmpty = b.isEmpty := by
  refine ⟨?_, ?_⟩
  · funext required additional
    simp [ofObject, same]
  · have lengths := congrArg List.length same
    cases a <;> cases b <;> simp [Entries.keys] at lengths ⊢

theorem fingerprintReplaced (h : Held v s path x) (slot : s ∈ slots .schema)
    (wrote : Wrote x' path v v') (kind : x'.isObject = x.isObject) :
    fingerprint v' = fingerprint v := by
  obtain ⟨r, way⟩ := h.headed
  obtain ⟨_, _, keys⟩ := slotKeys .schema s slot
  obtain ⟨type, required, enum⟩ := keys rfl
  have others : ∀ key, key ≠ s.key → v'.get? key = v.get? key := fun key other =>
    (way ▸ wrote).others other
  have properties : (v'.membersAt? "properties").map Entries.keys =
      (v.membersAt? "properties").map Entries.keys := by
    by_cases key : s.key = "properties"
    · exact keysReplaced h key slot wrote
    · rw [Value.membersAt?, Value.membersAt?, others _ (Ne.symm key)]
  have additional : (v'.get? "additionalProperties").any Value.isObject =
      (v.get? "additionalProperties").any Value.isObject := by
    by_cases key : s.key = "additionalProperties"
    · have found : (⟨"additionalProperties", .one, .schema⟩ : Slot) ∈ slots .schema := by decide
      cases slotUnique slot found key
      cases h with
      | one form held =>
        cases v with
        | obj members =>
          cases wroteOne wrote
          simp only [Value.get?] at held
          simp [Value.get?, held, kind]
        | _ => simp [Value.get?] at held
      | item form => simp at form
      | member form => simp at form
    · rw [others _ (Ne.symm key)]
  unfold fingerprint
  simp only [Value.textAt?, Value.textsAt, Value.itemsAt?, others _ type.symm, others _ required.symm,
    others _ enum.symm, additional]
  cases held : v.membersAt? "properties" <;> cases held' : v'.membersAt? "properties" <;>
    rw [held, held'] at properties
  · rfl
  · simp at properties
  · simp at properties
  · simp only [Option.map_some, Option.some.injEq] at properties
    simp only [Option.isSome_some, Option.getD_some, (ofObjectKeys properties).1,
      (ofObjectKeys properties).2]
    rfl

theorem sameSiteReplaced (h : Held v s path x) (slot : s ∈ slots .schema)
    (wrote : Wrote x' path v v') (kind : x'.isObject = x.isObject) : SameSite v v' where
  entered := by
    obtain ⟨r, way⟩ := h.headed
    exact enteredReplaced slot (way ▸ wrote) h.object
  fingerprint := fingerprintReplaced h slot wrote kind
  preset := by
    obtain ⟨r, way⟩ := h.headed
    have below : Wrote x' (s.key :: r) v v' := way ▸ wrote
    change Value.textAt? v' _ = Value.textAt? v _
    rw [Value.textAt?, Value.textAt?, below.others (slotKeys .schema s slot).2.1.symm]

end Fingerprints

/- A value with a schema that the walk reaches written over, level by level. -/
inductive Moves (w : Value) : Role → List String → Value → Value → Prop
  | here {y} (object : y.isObject = true) : Moves w .schema [] y w
  | part {role v p path x v'} (mem : p ∈ parts role v) (below : Moves w p.role path p.value x)
      (wrote : Wrote x p.path v v') : Moves w role (p.path ++ path) v v'

theorem Reach.moves {w : Value} {role : Role} {v v' y : Value} {path : List String}
    (reach : Reach role v path .schema y) (object : y.isObject = true) (lawful : v.lawful = true)
    (wrote : Wrote w path v v') : Moves w role path v v' := by
  generalize kind : Role.schema = σ at reach
  induction reach generalizing v' with
  | here role v =>
    subst kind
    cases wrote
    exact .here object
  | part mem _ ih =>
    obtain ⟨_, s, _, _, held⟩ := memParts.mp mem
    have reads := held.reads lawful
    obtain ⟨x, inner, outer⟩ := wrote.split reads
    exact .part mem (ih object (lawfulAt (l := ⟨_⟩) lawful reads) inner kind) outer

namespace Moves
variable {w : Value} {role : Role} {v v' : Value} {s path : List String}

theorem object (h : Moves w role s v v') (isObject : w.isObject = true) :
    v.isObject = true ∧ v'.isObject = true := by
  cases h with
  | here object => exact ⟨object, isObject⟩
  | part mem _ wrote =>
    obtain ⟨_, t, _, _, held⟩ := memParts.mp mem
    obtain ⟨r, way⟩ := held.headed
    exact ⟨held.object, wroteObject (way ▸ wrote) held.object⟩

theorem sameSite {p : Part} {x : Value} (mem : p ∈ parts .schema v)
    (below : Moves w p.role s p.value x)
    (isObject : w.isObject = true) (wrote : Wrote x p.path v v') : SameSite v v' := by
  obtain ⟨_, t, slot, _, held⟩ := memParts.mp mem
  have kinds := below.object isObject
  exact sameSiteReplaced held slot wrote (kinds.2.trans kinds.1.symm)

theorem partFilled {p : Part} (mem : p ∈ parts role v) : p.path ≠ [] := by
  obtain ⟨_, t, _, _, held⟩ := memParts.mp mem
  obtain ⟨r, way⟩ := held.headed
  simp [way]

/- The schemas that are reached after a schema gave way to what is not entered stood before, beside
that schema or around it. -/
theorem reached (h : Moves w role s v v') (lawful : v.lawful = true) (isObject : w.isObject = true)
    (shut : entered .schema w = false) {y' : Value} (reach : Reach role v' path .schema y')
    (open_ : entered .schema y' = true) :
    ¬ s <+: path ∧ ∃ y, Reach role v path .schema y ∧ SameSite y y' := by
  induction h generalizing path with
  | here =>
    cases reach with
    | here => simp [shut] at open_
    | part mem =>
      have entered' := (memParts.mp mem).1
      simp [shut] at entered'
  | @part role v p s x v' mem below wrote ih =>
    obtain ⟨_, t, slot, _, held⟩ := memParts.mp mem
    have lawful' := lawfulAt (l := ⟨_⟩) lawful (held.reads lawful)
    cases reach with
    | here =>
      refine ⟨fun inside => partFilled mem ?_, v, .here _ _, sameSite mem below isObject wrote⟩
      exact (List.append_eq_nil_iff.mp (List.prefix_nil.mp inside)).1
    | @part _ _ q path' _ _ mem' rest =>
      rcases (partsReplaced mem lawful wrote q).mp mem' with ⟨old, other⟩ | rfl
      · refine ⟨fun inside => other ?_, y', .part old rest, .refl _⟩
        have first := (List.prefix_append p.path s).trans inside
        rcases List.prefix_or_prefix_of_prefix first (List.prefix_append q.path path') with h | h
        · exact (partsPrefix mem old h).symm
        · exact partsPrefix old mem h
      · obtain ⟨apart, y, reach', same⟩ := ih lawful' rest
        exact ⟨fun inside => apart ((List.prefix_append_right_inj _).mp inside), y,
          .part (p := p) mem reach', same⟩

theorem kept (h : Moves w role s v v') (lawful : v.lawful = true) (isObject : w.isObject = true)
    {y : Value} (reach : Reach role v path .schema y) (apart : ¬ s <+: path) :
    ∃ y', Reach role v' path .schema y' ∧ SameSite y y' := by
  induction h generalizing path with
  | here => exact absurd List.nil_prefix apart
  | @part role v p s x v' mem below wrote ih =>
    obtain ⟨_, t, slot, _, held⟩ := memParts.mp mem
    have lawful' := lawfulAt (l := ⟨_⟩) lawful (held.reads lawful)
    cases reach with
    | here => exact ⟨v', .here _ _, sameSite mem below isObject wrote⟩
    | @part _ _ q path' _ _ mem' rest =>
      by_cases way : q.path = p.path
      · have same : q = p := by
          obtain ⟨_, u, slot', kind', held'⟩ := memParts.mp mem'
          obtain ⟨_, u', slot'', kind'', held''⟩ := memParts.mp mem
          obtain ⟨r, headed⟩ := held'.headed
          obtain ⟨r', headed'⟩ := held''.headed
          have key : u.key = u'.key := by
            rw [headed, headed'] at way
            exact (List.cons.inj way).1
          cases slotUnique slot' slot'' key
          have value : q.value = p.value := by
            have reads := held'.reads lawful
            rw [way, held''.reads lawful] at reads
            exact (Option.some.inj reads).symm
          obtain ⟨_, _, _⟩ := q
          obtain ⟨_, _, _⟩ := p
          simp_all
        subst same
        obtain ⟨y', reach', same⟩ := ih lawful' rest
          fun inside => apart ((List.prefix_append_right_inj _).mpr inside)
        have part := (partsReplaced mem lawful wrote ⟨q.role, q.path, x⟩).mpr (.inr rfl)
        exact ⟨y', .part (p := ⟨q.role, q.path, x⟩) part reach', same⟩
      · exact ⟨y, .part ((partsReplaced mem lawful wrote q).mpr (.inl ⟨mem', way⟩)) rest, .refl _⟩

end Moves

def definitionAt (name : String) : Location := ⟨["components", "schemas", name]⟩

def Unlisted (doc : Value) : Prop :=
  ∀ items, Tree.get? ⟨["components", "schemas"]⟩ doc ≠ some (.arr items)

def below (v : Value) (key : String) : Value := (v.get? key).getD (.obj [])

theorem belowHeld {v x : Value} {key : String} {s : Slot} {path : List String}
    (h : Held (below v key) s path x) : v.get? key = some (below v key) := by
  cases held : v.get? key with
  | some y => simp [below, held]
  | none =>
    have empty : below v key = .obj [] := by simp [below, held]
    rw [empty] at h
    cases h <;> simp_all [Value.get?]

inductive Adds (name : String) (v doc doc' : Value) : Prop
  | intro {components} {members : Members}
      (others : ∀ key, key ≠ "components" → doc'.get? key = doc.get? key)
      (whole : doc'.get? "components" = some components)
      (sections : ∀ key, key ≠ "schemas" → components.get? key = (below doc "components").get? key)
      (part : components.get? "schemas" = some (.obj (Entries.put name v members)))
      (before : opened (below (below doc "components") "schemas") = .obj members)

theorem wroteMember {w v v' : Value} {k : String} {r : List String} (wrote : Wrote w (k :: r) v v')
    (word : index? k = none) : ∃ x, v'.get? k = some x ∧ Wrote w r (below v k) x := by
  cases wrote with
  | @member _ _ _ members x isObject inner =>
    refine ⟨x, by simp [Value.get?], ?_⟩
    have same : below v k = (members.lookup k).getD (.obj []) := by
      cases v <;> simp only [opened, reduceCtorEq, Value.obj.injEq] at isObject
      · subst isObject
        rfl
      · subst isObject
        rfl
    exact same ▸ inner
  | element named => simp [word] at named
  | appended named => simp [word] at named

theorem openedMembers {v : Value} {key : String} {members : Members} {e : String × Value}
    (object : opened (below v key) = .obj members) (mem : e ∈ members) :
    v.get? key = some (.obj members) := by
  cases held : v.get? key with
  | none =>
    simp only [below, held, Option.getD_none, opened, Value.obj.injEq] at object
    subst object
    cases mem
  | some x =>
    simp only [below, held, Option.getD_some] at object
    cases x <;> simp only [opened, reduceCtorEq, Value.obj.injEq] at object
    · subst object
      cases mem
    · rw [object]

theorem belowListed {doc : Value} {items : List Value}
    (list : below (below doc "components") "schemas" = .arr items) :
    Tree.get? ⟨["components", "schemas"]⟩ doc = some (.arr items) := by
  have through : ∀ {v x : Value} {k : String} {l : Location}, below v k = x → x ≠ .obj [] →
      Tree.get? l doc = some v → Tree.get? (l.child k) doc = some x := by
    intro v x k l same filled at_
    refine childAt at_ ?_
    cases held : v.get? k with
    | none => simp [below, held] at same; exact absurd same.symm filled
    | some y => simpa [below, held] using same
  have filled : below doc "components" ≠ .obj [] := by
    intro empty
    rw [empty] at list
    simp [below, Value.get?] at list
  exact through list (by simp) (through (l := .root) rfl filled rfl)

theorem addsOf {name : String} {v doc doc' : Value} (unlisted : Unlisted doc)
    (wrote : Wrote v (definitionAt name).segments doc doc') : Adds name v doc doc' := by
  obtain ⟨components, whole, wrote'⟩ := wroteMember wrote (by decide)
  obtain ⟨schemas, part, wrote''⟩ := wroteMember wrote' (by decide)
  have others := fun key (other : key ≠ "components") => wrote.others other
  have sections := fun key (other : key ≠ "schemas") => wrote'.others other
  generalize held : below (below doc "components") "schemas" = inside at wrote''
  cases wrote'' with
  | member isObject last =>
    cases last
    exact .intro others whole sections part (held ▸ isObject)
  | element => exact absurd (belowListed held) (unlisted _)
  | appended => exact absurd (belowListed held) (unlisted _)

theorem definitionReach {v y : Value} {path : List String} :
    Reach .definition v path .schema y ↔ path ≠ [] ∧ Reach .schema v path .schema y := by
  constructor
  · intro h
    cases h with
    | part mem rest =>
      refine ⟨fun empty => Moves.partFilled mem (List.append_eq_nil_iff.mp empty).1, ?_⟩
      have listed : _ ∈ parts .schema v := mem
      exact .part listed rest
  · rintro ⟨filled, h⟩
    cases h with
    | here => exact absurd rfl filled
    | part mem rest =>
      have listed : _ ∈ parts .definition v := mem
      exact .part listed rest

def schemasSlot : Slot := ⟨"schemas", .members, .definition⟩

def componentsSlot : Slot := ⟨"components", .one, .components⟩

section Added
variable {name : String} {v doc doc' : Value} {path : List String} {y : Value}

theorem componentsReach {components : Value} (reach : Reach .components components path .schema y) :
    ∃ s ∈ slots .components, ∃ way x rest, path = way ++ rest ∧ Held components s way x ∧
      Reach s.role x rest .schema y := by
  cases reach with
  | part mem rest =>
    obtain ⟨_, s, slot, kind, held⟩ := memParts.mp mem
    exact ⟨s, slot, _, _, _, rfl, held, kind ▸ rest⟩

theorem documentReach (reach : Reach .document doc path .schema y) :
    ∃ s ∈ slots .document, ∃ way x rest, path = way ++ rest ∧ Held doc s way x ∧
      Reach s.role x rest .schema y := by
  cases reach with
  | part mem rest =>
    obtain ⟨_, s, slot, kind, held⟩ := memParts.mp mem
    exact ⟨s, slot, _, _, _, rfl, held, kind ▸ rest⟩

theorem throughSlot {role : Role} {s : Slot} (open_ : entered role v = true) (slot : s ∈ slots role)
    {way rest : List String} {x : Value} (held : Held v s way x)
    (reach : Reach s.role x rest .schema y) : Reach role v (way ++ rest) .schema y :=
  .part (p := ⟨s.role, way, x⟩) (memParts.mpr ⟨open_, s, slot, rfl, held⟩) reach

theorem Adds.reached (adds : Adds name v doc doc') (reach : Reach .document doc' path .schema y) :
    Reach .document doc path .schema y ∨
      ∃ rest, path = (definitionAt name).segments ++ rest ∧ Reach .definition v rest .schema y := by
  obtain ⟨others, whole, sections, part, before⟩ := adds
  obtain ⟨s, slot, way, x, rest, rfl, held, reach⟩ := documentReach reach
  by_cases key : s.key = "components"
  · cases slotUnique slot (show componentsSlot ∈ slots .document by decide) key
    cases held with
    | one _ held =>
      cases whole.symm.trans held
      obtain ⟨t, slot', way', z, rest', rfl, held', reach'⟩ := componentsReach reach
      by_cases key' : t.key = "schemas"
      · cases slotUnique slot' (show schemasSlot ∈ slots .components by decide) key'
        cases held' with
        | member form held' found =>
          cases part.symm.trans held'
          rcases Entries.memPut found with new | old
          · cases new
            exact .inr ⟨rest', rfl, reach'⟩
          · refine .inl ?_
            have nested : Held (below doc "components") schemasSlot [schemasSlot.key, _] z :=
              .member rfl (openedMembers before old) old
            exact throughSlot rfl slot (.one rfl (belowHeld nested))
              (throughSlot rfl slot' nested reach')
        | one form => simp [schemasSlot] at form
        | item form => simp [schemasSlot] at form
      · have nested := (heldSame (sections t.key key')).mp held'
        exact .inl (throughSlot rfl slot (.one rfl (belowHeld nested))
          (throughSlot rfl slot' nested reach'))
    | item form => simp [componentsSlot] at form
    | member form => simp [componentsSlot] at form
  · exact .inl (throughSlot rfl slot ((heldSame (others s.key key)).mp held) reach)

theorem memPutOther {j k : String} {x w : Value} {es : Members} (mem : (j, x) ∈ es)
    (other : j ≠ k) : (j, x) ∈ Entries.put k w es := by
  induction es with
  | nil => cases mem
  | cons e r ih =>
    obtain ⟨k', z⟩ := e
    unfold Entries.put
    split
    · rename_i same
      rcases List.mem_cons.mp mem with here | later
      · cases here
        exact absurd (eq_of_beq same) other
      · exact List.mem_cons_of_mem _ later
    · rcases List.mem_cons.mp mem with here | later
      · exact here ▸ List.mem_cons_self
      · exact List.mem_cons_of_mem _ (ih later)

theorem freshName {members : Members} (absent : Tree.get? (definitionAt name) doc = none)
    (before : opened (below (below doc "components") "schemas") = .obj members) :
    members.lookup name = none := by
  cases found : members.lookup name with
  | none => rfl
  | some x =>
    have inner := openedMembers before (Entries.mem_of_lookup found)
    have outer : doc.get? "components" = some (below doc "components") :=
      belowHeld (s := schemasSlot) (.member rfl inner (Entries.mem_of_lookup found))
    have held : (Value.obj members).get? name = some x := found
    have there := childAt (childAt (childAt (l := .root) rfl outer) inner) held
    simp only [Location.child, Location.root, List.nil_append, List.cons_append] at there
    rw [definitionAt, there] at absent
    contradiction

theorem Adds.kept (adds : Adds name v doc doc')
    (absent : Tree.get? (definitionAt name) doc = none)
    (reach : Reach .document doc path .schema y) : Reach .document doc' path .schema y := by
  obtain ⟨others, whole, sections, part, before⟩ := adds
  have fresh := freshName absent before
  obtain ⟨s, slot, way, x, rest, rfl, held, inner⟩ := documentReach reach
  by_cases key : s.key = "components"
  · cases slotUnique slot (show componentsSlot ∈ slots .document by decide) key
    cases held with
    | one form held =>
      have inside : below doc "components" = x := by
        have held' : doc.get? "components" = some x := held
        simp [below, held']
      rw [inside] at sections before
      refine throughSlot rfl slot (.one rfl whole) ?_
      obtain ⟨t, slot', way', z, rest', rfl, held', reach'⟩ := componentsReach inner
      by_cases key' : t.key = "schemas"
      · cases slotUnique slot' (show schemasSlot ∈ slots .components by decide) key'
        cases held' with
        | @member old name' _ form held' found =>
          have declared : x.get? "schemas" = some (.obj old) := held'
          simp only [below, declared, Option.getD_some, opened, Value.obj.injEq] at before
          subst before
          have other : name' ≠ name := by
            rintro rfl
            exact absurd (List.lookup_eq_none_iff.mp fresh _ found) (by simp)
          exact throughSlot rfl slot' (.member rfl part (memPutOther found other)) reach'
        | one form => simp [schemasSlot] at form
        | item form => simp [schemasSlot] at form
      · exact throughSlot rfl slot' ((heldSame (sections t.key key')).mpr held') reach'
    | item form => simp [componentsSlot] at form
    | member form => simp [componentsSlot] at form
  · exact throughSlot rfl slot ((heldSame (others s.key key)).mpr held) inner

end Added

section Sites
variable {doc doc' v y y' : Value} {l source : Location} {name : String}

theorem IsSite.reads (h : IsSite doc l y) (lawful : doc.lawful = true) :
    Tree.get? l doc = some y ∧ y.lawful = true := h.reached.reads lawful

theorem IsSite.object (h : IsSite doc l y) : y.isObject = true ∧ refOf y = none := by
  have open_ := h.open_
  simp only [entered, Bool.and_eq_true, Option.isNone_iff_eq_none] at open_
  exact ⟨open_.2, open_.1⟩

theorem referenceShut (pointer : String) : entered .schema (reference pointer) = false := by
  simp [entered, Resolve.referenceRef]

theorem siteLeft (lawful : doc.lawful = true) (site : IsSite doc source v) {pointer : String}
    (written : set? source (reference pointer) doc = some doc') (found : IsSite doc' l y') :
    ¬ source.segments <+: l.segments ∧ ∃ y, IsSite doc l y ∧ SameSite y y' := by
  have moves := site.reached.moves site.object.1 lawful (writeFollowed written)
  obtain ⟨apart, y, reach, same⟩ :=
    moves.reached lawful rfl (referenceShut pointer) found.reached found.open_
  exact ⟨apart, y, ⟨reach, same.entered.symm.trans found.open_⟩, same⟩

theorem siteKept (lawful : doc.lawful = true) (site : IsSite doc source v) {pointer : String}
    (written : set? source (reference pointer) doc = some doc') (held : IsSite doc l y)
    (apart : ¬ source.segments <+: l.segments) : ∃ y', IsSite doc' l y' ∧ SameSite y y' := by
  have moves := site.reached.moves site.object.1 lawful (writeFollowed written)
  obtain ⟨y', reach, same⟩ := moves.kept lawful rfl held.reached apart
  exact ⟨y', ⟨reach, same.entered.trans held.open_⟩, same⟩

/- A site that is copied to a new definition is no site there, and what is inside it is. -/
theorem siteAdded (unlisted : Unlisted doc)
    (written : set? (definitionAt name) v doc = some doc') (found : IsSite doc' l y) :
    IsSite doc l y ∨ ∃ rest, rest ≠ [] ∧ l.segments = (definitionAt name).segments ++ rest ∧
      Reach .schema v rest .schema y := by
  rcases (addsOf unlisted (writeFollowed written)).reached found.reached with old | ⟨rest, way, new⟩
  · exact .inl ⟨old, found.open_⟩
  · obtain ⟨filled, inside⟩ := definitionReach.mp new
    exact .inr ⟨rest, filled, way, inside⟩

theorem listedShut {items : List Value} {components x : Value} {way : List String}
    (list : Tree.get? ⟨["components", "schemas"]⟩ doc = some (.arr items))
    (outer : doc.get? "components" = some components) : ¬ Held components schemasSlot way x := by
  intro held
  cases held with
  | member form object =>
    have inner : components.get? "schemas" = some (.obj _) := object
    have read := childAt (childAt (l := .root) rfl outer) inner
    have listed : Tree.get? ((Location.root.child "components").child "schemas") doc =
        some (.arr items) := list
    rw [listed] at read
    cases read
  | one form => simp [schemasSlot] at form
  | item form => simp [schemasSlot] at form

theorem siteAppended {items : List Value}
    (list : Tree.get? ⟨["components", "schemas"]⟩ doc = some (.arr items))
    (wrote : Wrote v (definitionAt name).segments doc doc') (held : IsSite doc l y) :
    IsSite doc' l y := by
  refine ⟨?_, held.open_⟩
  obtain ⟨components, whole, wrote'⟩ := wroteMember wrote (by decide)
  obtain ⟨s, slot, way, x, rest, path, inside, inner⟩ := documentReach held.reached
  rw [path]
  by_cases key : s.key = "components"
  · cases slotUnique slot (show componentsSlot ∈ slots .document by decide) key
    cases inside with
    | one form there =>
      have known : doc.get? "components" = some x := there
      obtain ⟨t, slot', way', z, rest', rfl, inside', inner'⟩ := componentsReach inner
      have other : t.key ≠ "schemas" := by
        intro key'
        cases slotUnique slot' (show schemasSlot ∈ slots .components by decide) key'
        exact listedShut list known inside'
      have opened : below doc "components" = x := by simp [below, known]
      rw [opened] at wrote'
      refine throughSlot rfl slot (.one rfl whole) ?_
      exact throughSlot rfl slot' ((heldSame (wrote'.others other)).mpr inside') inner'
    | item form => simp [componentsSlot] at form
    | member form => simp [componentsSlot] at form
  · exact throughSlot rfl slot ((heldSame (wrote.others key)).mpr inside) inner

theorem siteBeside (absent : Tree.get? (definitionAt name) doc = none)
    (written : set? (definitionAt name) v doc = some doc') (held : IsSite doc l y) :
    IsSite doc' l y := by
  have wrote := writeFollowed written
  by_cases unlisted : Unlisted doc
  · exact ⟨(addsOf unlisted wrote).kept absent held.reached, held.open_⟩
  · obtain ⟨items, list⟩ : ∃ items, Tree.get? ⟨["components", "schemas"]⟩ doc = some (.arr items) := by
      simpa [Unlisted] using unlisted
    exact siteAppended list wrote held

theorem IsSite.deep (h : IsSite doc l y) : 4 ≤ l.segments.length := by
  simpa [least] using h.reached.least

end Sites

end ApiGraph.Hoist
