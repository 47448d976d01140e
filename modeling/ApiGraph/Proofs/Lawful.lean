import ApiGraph.Tree

/-! Documents as they are read: an object holds a key once. Of such a document a value and the place it
was found at say the same. -/
namespace ApiGraph.Json.Value

theorem membersAtSome {v : Value} {key : String} {members : Members}
    (h : v.membersAt? key = some members) : v.get? key = some (.obj members) := by
  obtain ⟨w, hw, hm⟩ := Option.bind_eq_some_iff.mp h
  cases w <;> simp [members?] at hm
  rw [hw, hm]

theorem itemsAtSome {v : Value} {key : String} {items : List Value}
    (h : v.itemsAt? key = some items) : v.get? key = some (.arr items) := by
  obtain ⟨w, hw, hm⟩ := Option.bind_eq_some_iff.mp h
  cases w <;> simp [items?] at hm
  rw [hw, hm]

mutual
def everyObject (told : Members → Bool) : Value → Bool
  | .arr items => everyObjectOfItems told items
  | .obj members => told members && everyObjectOfMembers told members
  | _ => true
termination_by structural v => v
def everyObjectOfItems (told : Members → Bool) : List Value → Bool
  | [] => true
  | x :: r => everyObject told x && everyObjectOfItems told r
termination_by structural xs => xs
def everyObjectOfMembers (told : Members → Bool) : List (String × Value) → Bool
  | [] => true
  | (_, x) :: r => everyObject told x && everyObjectOfMembers told r
termination_by structural xs => xs
end

theorem everyObjectList {told : Members → Bool} {items : List Value} :
    everyObject told (.arr items) = true ↔ ∀ x ∈ items, everyObject told x = true := by
  rw [everyObject]
  induction items with
  | nil => simp [everyObjectOfItems]
  | cons x r ih => simp [everyObjectOfItems, ih]

theorem everyObjectHere {told : Members → Bool} {members : Members} :
    everyObject told (.obj members) = true ↔
      told members = true ∧ ∀ e ∈ members, everyObject told e.2 = true := by
  have each : everyObjectOfMembers told members = true ↔
      ∀ e ∈ members, everyObject told e.2 = true := by
    induction members with
    | nil => simp [everyObjectOfMembers]
    | cons e r ih => obtain ⟨k, x⟩ := e; simp [everyObjectOfMembers, ih]
  rw [everyObject, Bool.and_eq_true, each]

theorem fromParts {P : Value → Prop}
    (items : ∀ xs, (∀ x ∈ xs, P x) → P (.arr xs))
    (members : ∀ es : Members, (∀ e ∈ es, P e.2) → P (.obj es))
    (leaf : ∀ v : Value, v.items? = none → v.members? = none → P v) (v : Value) : P v := by
  induction h : sizeOf v using Nat.strongRecOn generalizing v with
  | ind n ih =>
    cases v with
    | arr xs =>
      refine items xs fun x mem => ih (sizeOf x) ?_ x rfl
      have := List.sizeOf_lt_of_mem mem
      simp only [Value.arr.sizeOf_spec] at h
      omega
    | obj es =>
      refine members es fun e mem => ih (sizeOf e.2) ?_ e.2 rfl
      have := List.sizeOf_lt_of_mem mem
      obtain ⟨k, x⟩ := e
      simp only [Value.obj.sizeOf_spec, Prod.mk.sizeOf_spec] at h this ⊢
      omega
    | _ => exact leaf _ rfl rfl

def lawful (v : Value) : Bool := v.everyObject fun members => decide (Entries.keys members).Nodup

theorem lawfulList {items : List Value} :
    (Value.arr items).lawful = true ↔ ∀ x ∈ items, x.lawful = true := everyObjectList

theorem lawfulObject {members : Members} : (Value.obj members).lawful = true ↔
    (Entries.keys members).Nodup ∧ ∀ e ∈ members, e.2.lawful = true := by
  rw [lawful, everyObjectHere, decide_eq_true_eq]
  rfl

theorem leafLawful {v : Value} (noItems : v.items? = none) (noMembers : v.members? = none) :
    v.lawful = true := by
  cases v with
  | arr => contradiction
  | obj => contradiction
  | _ => rfl

end ApiGraph.Json.Value

namespace ApiGraph.Entries

theorem leftSublist {α β γ : Type} {f : α → Option β} {s : β → γ} {t : α → γ}
    (same : ∀ x y, f x = some y → s y = t x) (xs : List α) :
    ((xs.filterMap f).map s).Sublist (xs.map t) := by
  induction xs with
  | nil => exact .slnil
  | cons x xs ih =>
    cases made : f x with
    | none => simpa [made] using ih.cons (t x)
    | some y => simpa [made, same x y made] using ih.cons_cons (t x)

end ApiGraph.Entries

namespace ApiGraph.Tree
open Json

theorem indexOfNumeral (i : Nat) : index? (toString i) = some i := by
  have digits : ∀ c ∈ Nat.toDigits 10 i, c.isDigit = true :=
    fun c h => Nat.isDigit_of_mem_toDigits (by decide) (by decide) h
  have number : decimalNumber (Nat.toDigits 10 i) = i := Nat.ofDigitChars_ten_toDigits
  have read : digitsIndex? (Nat.toDigits 10 i) = some i := by
    have filled : (Nat.toDigits 10 i).isEmpty = false := by simp
    have all : (Nat.toDigits 10 i).all (fun c => decide ('0' ≤ c) && decide (c ≤ '9')) = true := by
      rw [List.all_eq_true]
      intro c h
      simpa [Char.isDigit, Char.le_def] using digits c h
    simp [digitsIndex?, filled, all, number]
  have text : (toString i).toList = Nat.toDigits 10 i := Nat.toList_repr
  unfold index?
  rw [text]
  split
  · rename_i r plus
    have := digits '+' (by rw [plus]; simp)
    simp [Char.isDigit] at this
  · exact read

theorem numeralInj {i j : Nat} (same : toString i = toString j) : i = j := by
  have number : ∀ n : Nat, decimalNumber (toString n).toList = n := by
    intro n
    have text : (toString n).toList = Nat.toDigits 10 n := Nat.toList_repr
    rw [text]
    exact Nat.ofDigitChars_ten_toDigits
  rw [← number i, same, number]

theorem getChild (l : Location) (s : String) (doc : Value) :
    get? (l.child s) doc = (get? l doc).bind (step? · s) := by
  simp only [get?, Location.child, walk?_append]
  congr
  funext v
  cases h : step? v s <;> simp [walk?, h]

theorem childAt {doc v x : Value} {l : Location} {key : String} (at_ : get? l doc = some v)
    (held : v.get? key = some x) : get? (l.child key) doc = some x := by
  rw [getChild, at_]
  cases v <;> simp [Value.get?, step?] at held ⊢
  exact held

theorem walkKept {P : Value → Prop} (items : ∀ xs, P (.arr xs) → ∀ x ∈ xs, P x)
    (members : ∀ es : Members, P (.obj es) → ∀ e ∈ es, P e.2) {l : List String} {v x : Value}
    (here : P v) (held : walk? l v = some x) : P x := by
  induction l generalizing v with
  | nil => exact Option.some.inj held ▸ here
  | cons s r ih =>
    obtain ⟨y, step, rest⟩ := Option.bind_eq_some_iff.mp held
    refine ih ?_ rest
    cases v with
    | obj es => exact members es here _ (Entries.mem_of_lookup step)
    | arr xs =>
      obtain ⟨i, _, found⟩ := Option.bind_eq_some_iff.mp step
      exact items xs here y (List.mem_of_getElem? found)
    | _ => simp [step?] at step

theorem lawfulWalk {l : List String} {v x : Value} (fits : v.lawful = true)
    (held : walk? l v = some x) : x.lawful = true :=
  walkKept (fun _ fits => Value.lawfulList.mp fits) (fun _ fits => (Value.lawfulObject.mp fits).2)
    fits held

theorem lawfulAt {doc v : Value} {l : Location} (lawful : doc.lawful = true)
    (h : get? l doc = some v) : v.lawful = true :=
  lawfulWalk lawful h

theorem memberAt {doc v x : Value} {l : Location} {key name : String} {members : Members}
    (lawful : doc.lawful = true) (at_ : get? l doc = some v)
    (held : v.membersAt? key = some members) (mem : (name, x) ∈ members) :
    get? ((l.child key).child name) doc = some x := by
  have here := childAt at_ (Value.membersAtSome held)
  have once := (Value.lawfulObject.mp (lawfulAt lawful here)).1
  exact childAt here (Entries.lookupOfMem once mem)

theorem elementAt {doc x : Value} {l : Location} {items : List Value} {i : Nat}
    (here : get? l doc = some (.arr items))
    (found : items[i]? = some x) : get? (l.child (toString i)) doc = some x := by
  rw [getChild, here]
  simp only [Option.bind_some, step?, indexOfNumeral]
  exact found

theorem itemAt {doc v x : Value} {l : Location} {key : String} {items : List Value} {i : Nat}
    (at_ : get? l doc = some v)
    (held : v.itemsAt? key = some items) (found : items[i]? = some x) :
    get? ((l.child key).child (toString i)) doc = some x :=
  elementAt (childAt at_ (Value.itemsAtSome held)) found

end ApiGraph.Tree
