import ApiGraph.Proofs.Lawful
import ApiGraph.Resolve

/-! What a successful resolution tells: the value is no reference, and it stands at the location that
the last pointer names, or where the reader found it. -/
namespace ApiGraph.Resolve
open Json

theorem lookupSource {doc v : Value} {pointer : String} (h : lookup doc pointer = .ok v) :
    pointer.startsWith "#" = true ∧ Tree.get? (.ofPointer pointer) doc = some v := by
  unfold lookup at h
  split at h
  · rename_i hash
    split at h
    · rename_i w found
      cases h
      exact ⟨hash, found⟩
    · contradiction
  · contradiction

theorem followSource {doc : Value} {steps : Nat} {seen : List String} {pointer : String}
    {r : Resolved} (h : follow doc steps seen pointer = .ok r) :
    refOf r.value = none ∧
      ∃ last, r.pointer = some last ∧ Tree.get? (.ofPointer last) doc = some r.value := by
  induction steps generalizing seen pointer with
  | zero => simp [follow] at h
  | succ steps ih =>
    simp only [follow] at h
    split at h
    · contradiction
    · split at h
      · contradiction
      · rename_i v found
        split at h
        · exact ih h
        · rename_i plain
          cases h
          exact ⟨plain, pointer, rfl, (lookupSource found).2⟩

theorem resolvePlain {doc v : Value} (plain : refOf v = none) : resolve doc v = .ok ⟨v, none⟩ := by
  simp [resolve, plain]

theorem resolvedPlain {doc v : Value} {r : Resolved} (h : resolve doc v = .ok r) :
    refOf r.value = none := by
  unfold resolve at h
  split at h
  · rename_i plain
    cases h
    exact plain
  · exact (followSource h).1

/- Where the value of a reference stands. A value that is no reference is its own result. -/
theorem resolvedSource {doc v : Value} {r : Resolved} (h : resolve doc v = .ok r) :
    (refOf v = none ∧ r = ⟨v, none⟩) ∨
      ∃ l, r.location? = some l ∧ Tree.get? l doc = some r.value := by
  unfold resolve at h
  split at h
  · rename_i plain
    cases h
    exact .inl ⟨plain, rfl⟩
  · obtain ⟨_, last, named, found⟩ := followSource h
    exact .inr ⟨.ofPointer last, by simp [Resolved.location?, named], found⟩

def ReadAt (doc v : Value) (l : Location) : Prop := refOf v = none → Tree.get? l doc = some v

theorem readAt {doc v : Value} {l : Location} (h : Tree.get? l doc = some v) : ReadAt doc v l :=
  fun _ => h

theorem readReference (doc : Value) (pointer : String) (l : Location) :
    ReadAt doc (reference pointer) l := by
  intro plain
  simp [reference, refOf, Value.textAt?, Value.get?, Value.str?] at plain

theorem resolvedAt {doc v : Value} {l : Location} {r : Resolved} (read : ReadAt doc v l)
    (h : resolve doc v = .ok r) : Tree.get? (r.locationOr l) doc = some r.value := by
  rcases resolvedSource h with ⟨plain, rfl⟩ | ⟨target, named, found⟩
  · exact read plain
  · simpa [Resolved.locationOr, named] using found

theorem resolveAtSource {doc v : Value} {l place : Location}
    (h : resolveAt doc l = .ok (v, place)) :
    ∃ w r, Tree.get? l doc = some w ∧ resolve doc w = .ok r ∧ v = r.value ∧
      place = r.locationOr l := by
  unfold resolveAt at h
  split at h
  · contradiction
  · rename_i w found
    cases hr : resolve doc w with
    | error e => simp [hr, bind, Except.bind] at h
    | ok r =>
      simp only [hr, bind, Except.bind, Except.ok.injEq, Prod.mk.injEq] at h
      exact ⟨w, r, found, hr, h.1.symm, h.2.symm⟩

theorem resolveAtFinal {doc v : Value} {l : Location} (found : Tree.get? l doc = some v)
    (plain : refOf v = none) : resolveAt doc l = .ok (v, l) := by
  simp [resolveAt, found, resolvePlain plain, bind, Except.bind, Resolved.locationOr,
    Resolved.location?]

end ApiGraph.Resolve
