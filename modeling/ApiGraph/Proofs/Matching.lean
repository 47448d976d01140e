import ApiGraph.Graph.Agreement
import ApiGraph.Proofs.Lawful
import Mathlib.Data.List.Forall2
import Mathlib.Data.List.Perm.Subperm

/-! Equality of values and agreement of schemas as equivalences. Both compare objects by counting
the members that take part and looking each one up on the other side, which for objects that hold a
key once is to find equal members under every key. -/
namespace ApiGraph.Json
open Agreement

def Pairs (counts : String → Bool) (p : Value → Value → Bool) (xs ys : Members) : Prop :=
  ∀ k, counts k = true → Option.Rel (fun x y => p x y = true) (xs.lookup k) (ys.lookup k)

theorem relBack {α β : Type} {r : α → β → Prop} {r' : β → α → Prop} {a : Option α} {b : Option β}
    (h : Option.Rel r a b) (each : ∀ x y, a = some x → b = some y → r x y → r' y x) :
    Option.Rel r' b a := by
  cases h with
  | none => exact .none
  | some related => exact .some (each _ _ rfl rfl related)

theorem relTrans {α β γ : Type} {r : α → β → Prop} {r' : β → γ → Prop} {r'' : α → γ → Prop}
    {a : Option α} {b : Option β} {c : Option γ} (h : Option.Rel r a b) (h' : Option.Rel r' b c)
    (each : ∀ x y z, a = some x → b = some y → c = some z → r x y → r' y z → r'' x z) :
    Option.Rel r'' a c := by
  cases h with
  | none => cases h' with | none => exact .none
  | some related =>
    cases h' with | some related' => exact .some (each _ _ _ rfl rfl rfl related related')

theorem relHeld {α β : Type} {r : α → β → Prop} {a : Option α} {b : Option β}
    (h : Option.Rel r a b) : (∃ x, a = some x) ↔ ∃ y, b = some y := by
  cases h <;> simp

theorem relFrom {α β : Type} {r : α → β → Prop} {x : α} {b : Option β}
    (h : Option.Rel r (some x) b) : ∃ y, b = some y ∧ r x y := by
  cases h with
  | some related => exact ⟨_, rfl, related⟩

theorem itemsBack {α β : Type} {r : α → β → Prop} {r' : β → α → Prop} {xs : List α} {ys : List β}
    (h : List.Forall₂ r xs ys) (each : ∀ x ∈ xs, ∀ y ∈ ys, r x y → r' y x) :
    List.Forall₂ r' ys xs := by
  induction h with
  | nil => exact .nil
  | cons head _ ih =>
    refine .cons (each _ List.mem_cons_self _ List.mem_cons_self head) (ih fun x mem y mem' => ?_)
    exact each x (List.mem_cons_of_mem _ mem) y (List.mem_cons_of_mem _ mem')

theorem itemsTrans {α β γ : Type} {r : α → β → Prop} {r' : β → γ → Prop} {r'' : α → γ → Prop}
    {xs : List α} {ys : List β} {zs : List γ} (h : List.Forall₂ r xs ys)
    (h' : List.Forall₂ r' ys zs)
    (each : ∀ x ∈ xs, ∀ y ∈ ys, ∀ z ∈ zs, r x y → r' y z → r'' x z) : List.Forall₂ r'' xs zs := by
  induction h generalizing zs with
  | nil =>
    cases h' with
    | nil => exact .nil
  | cons head _ ih =>
    cases h' with
    | cons head' tail' =>
      refine .cons (each _ List.mem_cons_self _ List.mem_cons_self _ List.mem_cons_self head head')
        (ih tail' fun x mem y mem' z mem'' => ?_)
      exact each x (List.mem_cons_of_mem _ mem) y (List.mem_cons_of_mem _ mem') z
        (List.mem_cons_of_mem _ mem'')

namespace Pairs
variable {counts : String → Bool} {p : Value → Value → Bool} {xs ys zs : Members}

theorem refl (each : ∀ e ∈ xs, p e.2 e.2 = true) : Pairs counts p xs xs := by
  intro k _
  cases held : xs.lookup k with
  | none => exact .none
  | some x => exact .some (each _ (Entries.mem_of_lookup held))

theorem symm (each : ∀ e ∈ xs, ∀ e' ∈ ys, p e.2 e'.2 = true → p e'.2 e.2 = true)
    (h : Pairs counts p xs ys) : Pairs counts p ys xs := by
  intro k counted
  refine relBack (h k counted) fun x y held held' => ?_
  exact each _ (Entries.mem_of_lookup held) _ (Entries.mem_of_lookup held')

theorem trans (each : ∀ e ∈ xs, ∀ e' ∈ ys, ∀ e'' ∈ zs, p e.2 e'.2 = true → p e'.2 e''.2 = true →
      p e.2 e''.2 = true)
    (h : Pairs counts p xs ys) (h' : Pairs counts p ys zs) : Pairs counts p xs zs := by
  intro k counted
  refine relTrans (h k counted) (h' k counted) fun x y z held held' held'' => ?_
  exact each _ (Entries.mem_of_lookup held) _ (Entries.mem_of_lookup held') _
    (Entries.mem_of_lookup held'')

end Pairs

section Counting
variable {counts : String → Bool} {p : Value → Value → Bool} {xs ys : Members}

def countedKeys (counts : String → Bool) (es : Members) : List String :=
  (Entries.keys es).filter counts

theorem countedKeysLength (es : Members) :
    (es.filter (counts ·.1)).length = (countedKeys counts es).length := by
  simp [countedKeys, Entries.keys, List.filter_map, Function.comp_def]

theorem memCountedKeys {k : String} :
    k ∈ countedKeys counts xs ↔ counts k = true ∧ ∃ x, xs.lookup k = some x := by
  simp only [countedKeys, List.mem_filter, and_comm, Entries.keys]
  refine and_congr_right fun _ => ?_
  cases held : xs.lookup k with
  | none =>
    simp only [reduceCtorEq, exists_false, iff_false]
    intro mem
    obtain ⟨e, inside, rfl⟩ := List.mem_map.mp mem
    have := List.lookup_eq_none_iff.mp held e inside
    simp at this
  | some x =>
    simp only [Option.some.injEq, exists_eq', iff_true]
    exact List.mem_map.mpr ⟨_, Entries.mem_of_lookup held, rfl⟩

theorem pairsIff (once : (Entries.keys xs).Nodup) (once' : (Entries.keys ys).Nodup) :
    ((xs.filter (counts ·.1)).length = (ys.filter (counts ·.1)).length ∧
      ∀ e ∈ xs, counts e.1 = true → ∃ y, ys.lookup e.1 = some y ∧ p e.2 y = true) ↔
      Pairs counts p xs ys := by
  have apart := once.filter counts
  have apart' := once'.filter counts
  rw [countedKeysLength, countedKeysLength]
  constructor
  · rintro ⟨sameLength, found⟩ k counted
    have inside : countedKeys counts xs ⊆ countedKeys counts ys := by
      intro j mem
      obtain ⟨counted, x, held⟩ := memCountedKeys.mp mem
      obtain ⟨y, held', _⟩ := found _ (Entries.mem_of_lookup held) counted
      exact memCountedKeys.mpr ⟨counted, y, held'⟩
    have perm := (List.subperm_of_subset apart inside).perm_of_length_le (Nat.le_of_eq sameLength.symm)
    cases held : xs.lookup k with
    | some x =>
      obtain ⟨y, held', same⟩ := found _ (Entries.mem_of_lookup held) counted
      exact held' ▸ .some same
    | none =>
      cases held' : ys.lookup k with
      | none => exact .none
      | some y =>
        have mem := perm.mem_iff.mpr (memCountedKeys.mpr ⟨counted, y, held'⟩)
        obtain ⟨_, x, impossible⟩ := memCountedKeys.mp mem
        rw [held] at impossible
        contradiction
  · intro pairs
    have same : ∀ k, k ∈ countedKeys counts xs ↔ k ∈ countedKeys counts ys := by
      intro k
      rw [memCountedKeys, memCountedKeys]
      refine and_congr_right fun counted => ?_
      exact relHeld (pairs k counted)
    refine ⟨((List.perm_ext_iff_of_nodup apart apart').mpr same).length_eq, fun e mem counted => ?_⟩
    have related := pairs e.1 counted
    rw [Entries.lookupOfMem once mem] at related
    exact relFrom related

end Counting

theorem sameItemsIff {xs ys : List Value} :
    Value.sameItems xs ys = true ↔ List.Forall₂ (fun x y => x.same y = true) xs ys := by
  induction xs generalizing ys with
  | nil => cases ys <;> simp [Value.sameItems]
  | cons x xs ih => cases ys <;> simp [Value.sameItems, ih]

theorem sameMembersIff {xs ys : Members} :
    Value.sameMembers xs ys = true ↔
      ∀ e ∈ xs, ∃ y, ys.lookup e.1 = some y ∧ e.2.same y = true := by
  induction xs with
  | nil => simp [Value.sameMembers]
  | cons e xs ih =>
    obtain ⟨k, x⟩ := e
    simp only [Value.sameMembers, Bool.and_eq_true, ih, List.mem_cons, forall_eq_or_imp]
    refine and_congr_left fun _ => ?_
    cases ys.lookup k <;> simp

def everyKey (_ : String) : Bool := true

theorem sameObject {xs ys : Members} (once : (Entries.keys xs).Nodup)
    (once' : (Entries.keys ys).Nodup) :
    (Value.obj xs).same (.obj ys) = true ↔ Pairs everyKey Value.same xs ys := by
  rw [← pairsIff once once']
  simp [Value.same, sameMembersIff, everyKey]

theorem numeralSame {a b : Numeral} :
    a.same b = true ↔ a = b ∨ ∃ d e : Number.Double, a = .double d ∧ b = .double e ∧
      d.code = 0 ∧ e.code = 0 := by
  cases a <;> cases b <;> simp [Numeral.same, Number.Double.same_iff]

theorem numeralSameRefl (a : Numeral) : a.same a = true := numeralSame.mpr (.inl rfl)

theorem numeralSameSymm {a b : Numeral} (h : a.same b = true) : b.same a = true := by
  rcases numeralSame.mp h with rfl | ⟨d, e, rfl, rfl, zero, zero'⟩
  · exact numeralSameRefl a
  · exact numeralSame.mpr (.inr ⟨e, d, rfl, rfl, zero', zero⟩)

theorem numeralSameTrans {a b c : Numeral} (h : a.same b = true) (h' : b.same c = true) :
    a.same c = true := by
  rcases numeralSame.mp h with rfl | ⟨d, e, rfl, rfl, zero, zero'⟩
  · exact h'
  · rcases numeralSame.mp h' with rfl | ⟨d', e', same, rfl, _, zero''⟩
    · exact h
    · exact numeralSame.mpr (.inr ⟨d, e', rfl, rfl, zero, zero''⟩)

theorem sameRefl (v : Value) (lawful : v.lawful = true) : v.same v = true := by
  induction v using Value.fromParts with
  | items xs ih =>
    have each := Value.lawfulList.mp lawful
    simp only [Value.same, sameItemsIff, List.forall₂_same]
    exact fun x mem => ih x mem (each x mem)
  | members es ih =>
    obtain ⟨once, each⟩ := Value.lawfulObject.mp lawful
    exact (sameObject once once).mpr (.refl fun e mem => ih e mem (each e mem))
  | leaf v noItems noMembers =>
    cases v with
    | num n => exact numeralSameRefl n
    | arr _ => contradiction
    | obj _ => contradiction
    | _ => simp [Value.same]

theorem sameSymm (v : Value) {w : Value} (lawful : v.lawful = true) (lawful' : w.lawful = true)
    (h : v.same w = true) : w.same v = true := by
  induction v using Value.fromParts generalizing w with
  | items xs ih =>
    cases w with
    | arr ys =>
      have each := Value.lawfulList.mp lawful
      have each' := Value.lawfulList.mp lawful'
      simp only [Value.same, sameItemsIff] at h ⊢
      exact itemsBack h fun x mem y mem' => ih x mem (each x mem) (each' y mem')
    | _ => simp [Value.same] at h
  | members es ih =>
    cases w with
    | obj es' =>
      obtain ⟨once, each⟩ := Value.lawfulObject.mp lawful
      obtain ⟨once', each'⟩ := Value.lawfulObject.mp lawful'
      refine (sameObject once' once).mpr (((sameObject once once').mp h).symm ?_)
      exact fun e mem e' mem' => ih e mem (each e mem) (each' e' mem')
    | _ => simp [Value.same] at h
  | leaf v noItems noMembers =>
    cases v with
    | arr _ => contradiction
    | obj _ => contradiction
    | num n => cases w <;> simp [Value.same] at h ⊢; exact numeralSameSymm h
    | _ => cases w <;> simp_all [Value.same]

theorem sameTrans (v : Value) {w u : Value} (lawful : v.lawful = true) (lawful' : w.lawful = true)
    (lawful'' : u.lawful = true) (h : v.same w = true) (h' : w.same u = true) :
    v.same u = true := by
  induction v using Value.fromParts generalizing w u with
  | items xs ih =>
    cases w with
    | arr ys =>
      cases u with
      | arr zs =>
        have each := Value.lawfulList.mp lawful
        have each' := Value.lawfulList.mp lawful'
        have each'' := Value.lawfulList.mp lawful''
        simp only [Value.same, sameItemsIff] at h h' ⊢
        exact itemsTrans h h' fun x mem y mem' z mem'' =>
          ih x mem (each x mem) (each' y mem') (each'' z mem'')
      | _ => simp [Value.same] at h'
    | _ => simp [Value.same] at h
  | members es ih =>
    cases w with
    | obj es' =>
      cases u with
      | obj es'' =>
        obtain ⟨once, each⟩ := Value.lawfulObject.mp lawful
        obtain ⟨once', each'⟩ := Value.lawfulObject.mp lawful'
        obtain ⟨once'', each''⟩ := Value.lawfulObject.mp lawful''
        refine (sameObject once once'').mpr
          (((sameObject once once').mp h).trans ?_ ((sameObject once' once'').mp h'))
        exact fun e mem e' mem' e'' mem'' => ih e mem (each e mem) (each' e' mem') (each'' e'' mem'')
      | _ => simp [Value.same] at h'
    | _ => simp [Value.same] at h
  | leaf v noItems noMembers =>
    cases v with
    | arr _ => contradiction
    | obj _ => contradiction
    | num n =>
      cases w <;> simp [Value.same] at h
      cases u <;> simp [Value.same] at h'
      exact numeralSameTrans h h'
    | null => cases w <;> simp [Value.same] at h; exact h'
    | bool b => cases w <;> simp [Value.same] at h; exact h ▸ h'
    | str s => cases w <;> simp [Value.same] at h; exact h ▸ h'

theorem agreeItemsIff {xs ys : List Value} :
    agreeItems xs ys = true ↔ List.Forall₂ (fun x y => agree x y = true) xs ys := by
  induction xs generalizing ys with
  | nil => cases ys <;> simp [agreeItems]
  | cons x xs ih => cases ys <;> simp [agreeItems, ih]

theorem agreeMembersIff {typed : Bool} {xs ys : Members} :
    agreeMembers typed xs ys = true ↔
      ∀ e ∈ xs, compared typed e.1 = true → ∃ y, ys.lookup e.1 = some y ∧ agree e.2 y = true := by
  induction xs with
  | nil => simp [agreeMembers]
  | cons e xs ih =>
    obtain ⟨k, x⟩ := e
    simp only [agreeMembers, Bool.and_eq_true, ih, List.mem_cons, forall_eq_or_imp]
    refine and_congr_left fun _ => ?_
    cases ys.lookup k <;> cases compared typed k <;> simp

def sameType : Value × Option Value → Value × Option Value → Prop :=
  fun t u => t.1.same u.1 = true ∧ Option.Rel (fun a b => Value.same a b = true) t.2 u.2

theorem sameFormatIff {a b : Option Value} :
    sameFormat a b = true ↔ Option.Rel (fun x y => Value.same x y = true) a b := by
  cases a <;> cases b
  · simp [sameFormat]
  · simp only [sameFormat, Bool.false_eq_true, false_iff]; intro h; cases h
  · simp only [sameFormat, Bool.false_eq_true, false_iff]; intro h; cases h
  · simp only [sameFormat, Option.rel_some_some]; rfl

/- A member `type` that is a name or a list, against one that is neither, never agrees. -/
theorem typedApart {xs ys : Members} {t : Value × Option Value} (typed : normalType xs = some t)
    (untyped : normalType ys = none) {x y : Value} (held : xs.lookup "type" = some x)
    (held' : ys.lookup "type" = some y) : agree x y = false ∧ agree y x = false := by
  simp only [normalType, held] at typed
  simp only [normalType, held'] at untyped
  cases x <;> simp at typed <;> cases y <;> simp at untyped <;>
    simp [agree, BEq.beq, Value.same]

theorem typedHeld {xs : Members} {t : Value × Option Value} (typed : normalType xs = some t) :
    ∃ x, xs.lookup "type" = some x := by
  cases held : xs.lookup "type" with
  | none => simp [normalType, held] at typed
  | some x => exact ⟨x, rfl⟩

theorem agreeObject {xs ys : Members} (once : (Entries.keys xs).Nodup)
    (once' : (Entries.keys ys).Nodup) :
    agree (.obj xs) (.obj ys) = true ↔
      (∃ t u, normalType xs = some t ∧ normalType ys = some u ∧ sameType t u ∧
        Pairs (compared true) agree xs ys) ∨
      (normalType xs = none ∧ normalType ys = none ∧ Pairs (compared false) agree xs ys) := by
  have counted : ∀ typed, ((xs.filter (compared typed ·.1)).length =
      (ys.filter (compared typed ·.1)).length ∧ agreeMembers typed xs ys = true) ↔
      Pairs (compared typed) agree xs ys := by
    intro typed
    rw [agreeMembersIff, pairsIff once once']
  have typeCounts : compared false "type" = true := by decide
  cases typed : normalType xs with
  | none =>
    cases typed' : normalType ys with
    | none => simp [agree, typed, typed', counted]
    | some u =>
      simp only [agree, typed, typed', Bool.and_eq_true, beq_iff_eq, counted]
      simp only [reduceCtorEq, false_and, exists_false, and_false, or_false, iff_false]
      intro pairs
      obtain ⟨y, held'⟩ := typedHeld typed'
      obtain ⟨x, held⟩ := (relHeld (pairs _ typeCounts)).mpr ⟨y, held'⟩
      have related := pairs _ typeCounts
      simp [held, held', (typedApart typed' typed held' held).2] at related
  | some t =>
    cases typed' : normalType ys with
    | none =>
      simp only [agree, typed, typed', Bool.and_eq_true, beq_iff_eq, counted]
      simp only [reduceCtorEq, false_and, exists_false, and_false, or_false, iff_false]
      intro pairs
      obtain ⟨x, held⟩ := typedHeld typed
      obtain ⟨y, held'⟩ := (relHeld (pairs _ typeCounts)).mp ⟨x, held⟩
      have related := pairs _ typeCounts
      simp [held, held', (typedApart typed typed' held held').1] at related
    | some u =>
      simp only [agree, typed, typed', Bool.and_eq_true, beq_iff_eq, and_assoc, counted,
        sameFormatIff]
      simp [sameType, and_assoc]
      exact fun _ _ => rfl

theorem normalTypeLawful {xs : Members} (lawful : (Value.obj xs).lawful = true)
    {t : Value × Option Value} (typed : normalType xs = some t) :
    t.1.lawful = true ∧ ∀ v, t.2 = some v → v.lawful = true := by
  have each := (Value.lawfulObject.mp lawful).2
  have format : ∀ (implied : Option String) v,
      (implied.map Value.str).or (xs.lookup "format") = some v → v.lawful = true := by
    intro implied v held
    cases implied with
    | none => exact each _ (Entries.mem_of_lookup held)
    | some name => cases held; rfl
  cases held : xs.lookup "type" with
  | none => simp [normalType, held] at typed
  | some ty =>
    cases ty with
    | str name =>
      simp only [normalType, held, Option.some.injEq] at typed
      subst typed
      exact ⟨rfl, format _⟩
    | arr items =>
      simp only [normalType, held, Option.some.injEq] at typed
      subst typed
      have parts := Value.lawfulList.mp (each _ (Entries.mem_of_lookup held))
      refine ⟨Value.lawfulList.mpr fun y listed => ?_, format _⟩
      obtain ⟨x, mem, rfl⟩ := List.mem_map.mp listed
      cases x with
      | str name => rfl
      | _ => exact parts _ mem
    | _ => simp [normalType, held] at typed

section SameType
variable {xs ys zs : Members} {t u w : Value × Option Value}

theorem sameTypeRefl (lawful : (Value.obj xs).lawful = true) (typed : normalType xs = some t) :
    sameType t t := by
  obtain ⟨type, format⟩ := normalTypeLawful lawful typed
  refine ⟨sameRefl _ type, ?_⟩
  cases held : t.2 with
  | none => exact .none
  | some v => exact .some (sameRefl _ (format v held))

theorem sameTypeSymm (lawful : (Value.obj xs).lawful = true) (typed : normalType xs = some t)
    (lawful' : (Value.obj ys).lawful = true) (typed' : normalType ys = some u)
    (h : sameType t u) : sameType u t := by
  obtain ⟨type, format⟩ := normalTypeLawful lawful typed
  obtain ⟨type', format'⟩ := normalTypeLawful lawful' typed'
  refine ⟨sameSymm _ type type' h.1,
    relBack h.2 fun x y held held' => ?_⟩
  exact sameSymm _ (format x held) (format' y held')

theorem sameTypeTrans (lawful : (Value.obj xs).lawful = true) (typed : normalType xs = some t)
    (lawful' : (Value.obj ys).lawful = true) (typed' : normalType ys = some u)
    (lawful'' : (Value.obj zs).lawful = true) (typed'' : normalType zs = some w)
    (h : sameType t u) (h' : sameType u w) : sameType t w := by
  obtain ⟨type, format⟩ := normalTypeLawful lawful typed
  obtain ⟨type', format'⟩ := normalTypeLawful lawful' typed'
  obtain ⟨type'', format''⟩ := normalTypeLawful lawful'' typed''
  refine ⟨sameTrans _ type type' type''
    h.1 h'.1, relTrans h.2 h'.2 fun x y z held held' held'' => ?_⟩
  exact sameTrans _ (format x held) (format' y held')
    (format'' z held'')

end SameType

theorem agreeLeaf {v w : Value} (noItems : v.items? = none) (noMembers : v.members? = none) :
    agree v w = v.same w := by
  cases v with
  | arr _ => contradiction
  | obj _ => contradiction
  | _ => cases w <;> simp [agree] <;> rfl

theorem sameLeaf {v w : Value} (noItems : v.items? = none) (noMembers : v.members? = none)
    (h : v.same w = true) : w.items? = none ∧ w.members? = none := by
  cases v <;> cases w <;> simp_all [Value.same, Value.items?, Value.members?]

theorem agreeRefl (v : Value) (lawful : v.lawful = true) : agree v v = true := by
  induction v using Value.fromParts with
  | items xs ih =>
    have each := Value.lawfulList.mp lawful
    simp only [agree, agreeItemsIff, List.forall₂_same]
    exact fun x mem => ih x mem (each x mem)
  | members es ih =>
    obtain ⟨once, each⟩ := Value.lawfulObject.mp lawful
    have pairs : ∀ typed, Pairs (compared typed) agree es es :=
      fun typed => .refl fun e mem => ih e mem (each e mem)
    refine (agreeObject once once).mpr ?_
    cases typed : normalType es with
    | none => exact .inr ⟨rfl, rfl, pairs false⟩
    | some t => exact .inl ⟨t, t, rfl, rfl, sameTypeRefl lawful typed, pairs true⟩
  | leaf v noItems noMembers => rw [agreeLeaf noItems noMembers]; exact sameRefl v lawful

theorem agreeSymm (v : Value) {w : Value} (lawful : v.lawful = true) (lawful' : w.lawful = true)
    (h : agree v w = true) : agree w v = true := by
  induction v using Value.fromParts generalizing w with
  | items xs ih =>
    cases w with
    | arr ys =>
      have each := Value.lawfulList.mp lawful
      have each' := Value.lawfulList.mp lawful'
      simp only [agree, agreeItemsIff] at h ⊢
      exact itemsBack h fun x mem y mem' => ih x mem (each x mem) (each' y mem')
    | _ => simp [agree, BEq.beq, Value.same] at h
  | members es ih =>
    cases w with
    | obj es' =>
      obtain ⟨once, each⟩ := Value.lawfulObject.mp lawful
      obtain ⟨once', each'⟩ := Value.lawfulObject.mp lawful'
      have back : ∀ typed, Pairs (compared typed) agree es es' →
          Pairs (compared typed) agree es' es :=
        fun typed pairs => pairs.symm fun e mem e' mem' => ih e mem (each e mem) (each' e' mem')
      refine (agreeObject once' once).mpr ?_
      rcases (agreeObject once once').mp h with ⟨t, u, typed, typed', same, pairs⟩ | ⟨no, no', pairs⟩
      · exact .inl ⟨u, t, typed', typed, sameTypeSymm lawful typed lawful' typed' same,
          back true pairs⟩
      · exact .inr ⟨no', no, back false pairs⟩
    | _ => simp [agree, BEq.beq, Value.same] at h
  | leaf v noItems noMembers =>
    rw [agreeLeaf noItems noMembers] at h
    obtain ⟨noItems', noMembers'⟩ := sameLeaf noItems noMembers h
    rw [agreeLeaf noItems' noMembers']
    exact sameSymm v lawful lawful' h

theorem agreeTrans (v : Value) {w u : Value} (lawful : v.lawful = true) (lawful' : w.lawful = true)
    (lawful'' : u.lawful = true) (h : agree v w = true) (h' : agree w u = true) :
    agree v u = true := by
  induction v using Value.fromParts generalizing w u with
  | items xs ih =>
    cases w with
    | arr ys =>
      cases u with
      | arr zs =>
        have each := Value.lawfulList.mp lawful
        have each' := Value.lawfulList.mp lawful'
        have each'' := Value.lawfulList.mp lawful''
        simp only [agree, agreeItemsIff] at h h' ⊢
        exact itemsTrans h h' fun x mem y mem' z mem'' =>
          ih x mem (each x mem) (each' y mem') (each'' z mem'')
      | _ => simp [agree, BEq.beq, Value.same] at h'
    | _ => simp [agree, BEq.beq, Value.same] at h
  | members es ih =>
    cases w with
    | obj es' =>
      cases u with
      | obj es'' =>
        obtain ⟨once, each⟩ := Value.lawfulObject.mp lawful
        obtain ⟨once', each'⟩ := Value.lawfulObject.mp lawful'
        obtain ⟨once'', each''⟩ := Value.lawfulObject.mp lawful''
        have chain : ∀ typed, Pairs (compared typed) agree es es' →
            Pairs (compared typed) agree es' es'' → Pairs (compared typed) agree es es'' :=
          fun typed pairs pairs' => pairs.trans (fun e mem e' mem' e'' mem'' =>
            ih e mem (each e mem) (each' e' mem') (each'' e'' mem'')) pairs'
        refine (agreeObject once once'').mpr ?_
        rcases (agreeObject once once').mp h with
          ⟨t, s, typed, typed', same, pairs⟩ | ⟨no, no', pairs⟩ <;>
        rcases (agreeObject once' once'').mp h' with
          ⟨s', r, again, typed'', same', pairs'⟩ | ⟨again, no'', pairs'⟩
        · rw [typed'] at again
          cases again
          exact .inl ⟨t, r, typed, typed'',
            sameTypeTrans lawful typed lawful' typed' lawful'' typed'' same same',
            chain true pairs pairs'⟩
        · rw [typed'] at again
          contradiction
        · rw [no'] at again
          contradiction
        · exact .inr ⟨no, no'', chain false pairs pairs'⟩
      | _ => simp [agree, BEq.beq, Value.same] at h'
    | _ => simp [agree, BEq.beq, Value.same] at h
  | leaf v noItems noMembers =>
    rw [agreeLeaf noItems noMembers] at h ⊢
    obtain ⟨noItems', noMembers'⟩ := sameLeaf noItems noMembers h
    rw [agreeLeaf noItems' noMembers'] at h'
    exact sameTrans v lawful lawful'
      lawful'' h h'

end ApiGraph.Json

namespace ApiGraph.Graph
open Json Agreement

/- Two schemas match if they are one node, or if what they say of themselves agrees. -/
def Alike (g : Graph) (doc : Value) (a b : SchemaId) : Prop :=
  ∃ s t v w, g.schema? a = some s ∧ g.schema? b = some t ∧ s.baseType = t.baseType ∧
    s.format = t.format ∧ Tree.get? s.location doc = some v ∧ Tree.get? t.location doc = some w ∧
    agree v w = true

theorem schemasMatchIff {g : Graph} {doc : Value} {a b : SchemaId} :
    g.schemasMatch doc a b = true ↔ a = b ∨ g.Alike doc a b := by
  unfold schemasMatch
  by_cases same : a = b
  · simp [same]
  · simp only [same, if_false, false_or]
    constructor
    · intro h
      split at h
      · rename_i s t found found'
        simp only [Bool.and_eq_true, beq_iff_eq] at h
        obtain ⟨⟨base, format⟩, agrees⟩ := h
        split at agrees
        · rename_i v w at_ at'
          exact ⟨s, t, v, w, found, found', base, format, at_, at', agrees⟩
        · contradiction
      · contradiction
    · rintro ⟨s, t, v, w, found, found', base, format, at_, at', agrees⟩
      simp [found, found', base, format, at_, at', agrees]

theorem schemasMatchClasses (g : Graph) {doc : Value} (lawful : doc.lawful = true) :
    Equivalence fun a b => g.schemasMatch doc a b = true where
  refl a := schemasMatchIff.mpr (.inl rfl)
  symm {a b} h := by
    rcases schemasMatchIff.mp h with rfl | ⟨s, t, v, w, found, found', base, format, at_, at', agrees⟩
    · exact h
    · refine schemasMatchIff.mpr (.inr ⟨t, s, w, v, found', found, base.symm, format.symm, at', at_, ?_⟩)
      exact agreeSymm v (Tree.lawfulAt lawful at_) (Tree.lawfulAt lawful at') agrees
  trans {a b c} h h' := by
    rcases schemasMatchIff.mp h with rfl | ⟨s, t, v, w, found, found', base, format, at_, at', agrees⟩
    · exact h'
    · rcases schemasMatchIff.mp h' with
        rfl | ⟨t', r, w', u, again, found'', base', format', at'', at₃, agrees'⟩
      · exact h
      · cases found'.symm.trans again
        cases at'.symm.trans at''
        refine schemasMatchIff.mpr (.inr ⟨s, r, v, u, found, found'', base.trans base',
          format.trans format', at_, at₃, ?_⟩)
        exact agreeTrans v (Tree.lawfulAt lawful at_) (Tree.lawfulAt lawful at')
          (Tree.lawfulAt lawful at₃) agrees agrees'

end ApiGraph.Graph
