/-! Ordered dictionaries: an association list whose keys keep the place of their first insertion. -/
namespace ApiGraph.Entries
variable {α : Type u} {β : Type v} [BEq α]

def put (k : α) (v : β) : List (α × β) → List (α × β)
  | [] => [(k, v)]
  | (k', w) :: r => if k' == k then (k', v) :: r else (k', w) :: put k v r

def putNew (k : α) (v : β) (es : List (α × β)) : List (α × β) :=
  match es.lookup k with
  | some _ => es
  | none => es ++ [(k, v)]

def erase (k : α) (es : List (α × β)) : List (α × β) := es.eraseP (fun e => e.1 == k)

def keys (es : List (α × β)) : List α := es.map Prod.fst

def has (k : α) (es : List (α × β)) : Bool := (es.lookup k).isSome

def ofList (es : List (α × β)) : List (α × β) := es.foldl (fun acc e => put e.1 e.2 acc) []

def distinct (xs : List α) : List α :=
  xs.foldl (fun acc x => if acc.contains x then acc else acc ++ [x]) []

section Lawful
variable [LawfulBEq α]

theorem mem_of_lookup {k : α} {v : β} {es : List (α × β)} (h : es.lookup k = some v) :
    (k, v) ∈ es := by
  induction es with
  | nil => simp at h
  | cons e r ih =>
    obtain ⟨k', w⟩ := e
    by_cases hk : k == k'
    · simp only [List.lookup_cons, hk, Option.some.injEq] at h
      simp [eq_of_beq hk, h]
    · simp only [List.lookup_cons, Bool.not_eq_true] at h hk
      simp only [hk] at h
      exact List.mem_cons_of_mem _ (ih h)

@[simp] theorem lookupPut (k : α) (v : β) (es : List (α × β)) : (put k v es).lookup k = some v := by
  induction es with
  | nil => simp [put]
  | cons e r ih =>
    obtain ⟨k', w⟩ := e
    by_cases hk : k' == k
    · simp [put, eq_of_beq hk]
    · have hk' : (k == k') = false := by
        rw [beq_eq_false_iff_ne]; intro h; simp [h] at hk
      simp [put, hk, List.lookup_cons, hk', ih]

theorem lookupPutOther {k j : α} (h : j ≠ k) (v : β) (es : List (α × β)) :
    (put k v es).lookup j = es.lookup j := by
  induction es with
  | nil => simp [put, h]
  | cons e r ih =>
    obtain ⟨k', w⟩ := e
    by_cases hk : k' == k
    · have : (j == k') = false := by rw [beq_eq_false_iff_ne, eq_of_beq hk]; exact h
      simp [put, hk, List.lookup_cons, this]
    · by_cases hj : j == k' <;> simp [put, hk, List.lookup_cons, hj, ih]

theorem lookupOfMem {k : α} {v : β} {es : List (α × β)} (once : (keys es).Nodup)
    (mem : (k, v) ∈ es) : es.lookup k = some v := by
  induction es with
  | nil => simp at mem
  | cons e r ih =>
    obtain ⟨k', w⟩ := e
    obtain ⟨fresh, once⟩ := List.nodup_cons.mp once
    rcases List.mem_cons.mp mem with same | rest
    · cases same; simp
    · have other : (k == k') = false := by
        rw [beq_eq_false_iff_ne]
        rintro rfl
        exact fresh (List.mem_map.mpr ⟨_, rest, rfl⟩)
      simpa [List.lookup_cons, other] using ih once rest

theorem keysPut (k : α) (v : β) (es : List (α × β)) :
    keys (put k v es) = keys es ∨ (k ∉ keys es ∧ keys (put k v es) = keys es ++ [k]) := by
  induction es with
  | nil => exact .inr ⟨List.not_mem_nil, rfl⟩
  | cons e r ih =>
    obtain ⟨k', w⟩ := e
    by_cases here : k' == k
    · exact .inl (by simp [put, here, keys])
    · have other : k ≠ k' := fun same => here (by simp [same])
      have same : keys (put k v ((k', w) :: r)) = k' :: keys (put k v r) := by
        simp [put, here, keys]
      rcases ih with kept | ⟨fresh, added⟩
      · exact .inl (by rw [same, kept]; rfl)
      · refine .inr ⟨?_, by rw [same, added]; rfl⟩
        simpa [keys, other] using fresh

theorem nodupPut (k : α) (v : β) {es : List (α × β)} (once : (keys es).Nodup) :
    (keys (put k v es)).Nodup := by
  rcases keysPut k v es with same | ⟨fresh, added⟩
  · exact same ▸ once
  · rw [added]
    refine List.nodup_append.mpr ⟨once, by simp, ?_⟩
    rintro x mem _ last rfl
    exact fresh (List.mem_singleton.mp last ▸ mem)

theorem lookupPutCases {k j : α} {v w : β} {es : List (α × β)}
    (held : (put k v es).lookup j = some w) : j = k ∧ w = v ∨ j ≠ k ∧ es.lookup j = some w := by
  by_cases same : j = k
  · subst same
    rw [lookupPut] at held
    exact .inl ⟨rfl, (Option.some.inj held).symm⟩
  · rw [lookupPutOther same] at held
    exact .inr ⟨same, held⟩

theorem putSame {k : α} {v : β} {es : List (α × β)} (held : es.lookup k = some v) :
    put k v es = es := by
  induction es with
  | nil => simp at held
  | cons e r ih =>
    obtain ⟨k', w⟩ := e
    by_cases here : k' == k
    · cases eq_of_beq here
      simp only [List.lookup_cons, beq_self_eq_true, Option.some.injEq] at held
      simp [put, held]
    · have other : (k == k') = false := by
        rw [beq_eq_false_iff_ne]
        rintro rfl
        simp at here
      rw [List.lookup_cons, other] at held
      simp [put, here, ih held]

theorem hasIff {k : α} {es : List (α × β)} : has k es = true ↔ k ∈ keys es := by
  rw [has, Option.isSome_iff_exists]
  refine ⟨fun ⟨x, held⟩ => List.mem_map.mpr ⟨_, mem_of_lookup held, rfl⟩, fun mem => ?_⟩
  cases held : es.lookup k with
  | some x => exact ⟨x, rfl⟩
  | none =>
    obtain ⟨e, inside, rfl⟩ := List.mem_map.mp mem
    simpa using List.lookup_eq_none_iff.mp held e inside

theorem putHeld {k : α} {v : β} (w : β) {es : List (α × β)} (once : (keys es).Nodup)
    (held : es.lookup k = some v) :
    put k w es = es.map fun e => (e.1, if e.1 == k then w else e.2) := by
  induction es with
  | nil => simp at held
  | cons e r ih =>
    obtain ⟨k', x⟩ := e
    obtain ⟨absent, once⟩ := List.nodup_cons.mp once
    by_cases here : k' == k
    · have others : ∀ e ∈ r, (e.1, if e.1 == k then w else e.2) = e := by
        intro e mem
        have other : (e.1 == k) = false := by
          rw [beq_eq_false_iff_ne, ← eq_of_beq here]
          exact fun same => absent (List.mem_map.mpr ⟨e, mem, same⟩)
        simp [other]
      rw [put, if_pos here, List.map_cons, if_pos here, List.map_congr_left others, List.map_id']
    · have other : (k == k') = false := by
        rw [beq_eq_false_iff_ne]
        rintro rfl
        simp at here
      rw [List.lookup_cons, other] at held
      rw [put, if_neg here, List.map_cons, if_neg here, ih once held]

theorem hasPut {k j : α} {v : β} {es : List (α × β)} (held : has j es = true) :
    has j (put k v es) = true := by
  by_cases same : j = k
  · simp [has, same]
  · rw [has, lookupPutOther same]
    exact held

theorem memPut {k : α} {v : β} {es : List (α × β)} {e : α × β}
    (mem : e ∈ put k v es) : e = (k, v) ∨ e ∈ es := by
  induction es with
  | nil => exact .inl (List.mem_singleton.mp mem)
  | cons e' r ih =>
    unfold put at mem
    split at mem
    · rename_i same
      rcases List.mem_cons.mp mem with rfl | rest
      · exact .inl (by rw [eq_of_beq same])
      · exact .inr (List.mem_cons_of_mem _ rest)
    · rcases List.mem_cons.mp mem with rfl | rest
      · exact .inr List.mem_cons_self
      · exact (ih rest).imp_right (List.mem_cons_of_mem _)

theorem putFresh {k : α} {v : β} {es : List (α × β)}
    (fresh : ∀ e ∈ es, e.1 ≠ k) : put k v es = es ++ [(k, v)] := by
  induction es with
  | nil => rfl
  | cons e r ih =>
    have other : (e.1 == k) = false := by simpa using fresh e List.mem_cons_self
    simp [put, other, ih fun e mem => fresh e (List.mem_cons_of_mem _ mem)]

theorem lookupFresh {k : α} {es : List (α × β)}
    (fresh : ∀ e ∈ es, e.1 ≠ k) : es.lookup k = none := by
  refine List.lookup_eq_none_iff.mpr fun e mem => ?_
  simpa using fun same => fresh e mem same.symm

omit [LawfulBEq α] in
theorem keysErase (k : α) (es : List (α × β)) : keys (erase k es) = (keys es).erase k := by
  rw [List.erase_eq_eraseP', keys, keys, List.eraseP_map]
  rfl

theorem lookupErase {es : List (α × β)} (once : (keys es).Nodup) (k : α) :
    (erase k es).lookup k = none := by
  refine lookupFresh fun e mem same => ?_
  have kept : k ∈ (keys es).erase k := by
    rw [← keysErase]
    exact List.mem_map.mpr ⟨e, mem, same⟩
  exact once.not_mem_erase kept

theorem lookupEraseOther {k j : α} (h : j ≠ k) (es : List (α × β)) :
    (erase k es).lookup j = es.lookup j := by
  induction es with
  | nil => rfl
  | cons e r ih =>
    obtain ⟨k', w⟩ := e
    by_cases here : k' == k
    · have other : (j == k') = false := by rw [beq_eq_false_iff_ne, eq_of_beq here]; exact h
      simp [erase, here, List.lookup_cons, other]
    · simp only [erase, List.eraseP_cons, here, cond_false, List.lookup_cons] at ih ⊢
      rw [ih]

end Lawful
end ApiGraph.Entries
