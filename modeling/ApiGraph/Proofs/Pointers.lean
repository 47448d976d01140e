import ApiGraph.Proofs.Resolution

/-! A location and its pointer. Reading a pointer gives back the segments that it was written from,
short of the empty ones, so a reference that holds it leads to the location. -/
namespace ApiGraph.Text

theorem splitOnLine {sep : Char} {a r piece : List Char} {more : List (List Char)} (clean : sep ∉ a)
    (split : splitOn sep r = piece :: more) : splitOn sep (a ++ r) = (a ++ piece) :: more := by
  induction a with
  | nil => exact split
  | cons c a ih =>
    have other : c ≠ sep := fun h => clean (h ▸ List.mem_cons_self)
    have rest := ih fun h => clean (List.mem_cons_of_mem _ h)
    simp [splitOn, other, rest]

end ApiGraph.Text

namespace ApiGraph.Location
open Text

def replaceChar (c : Char) (text cs : List Char) : List Char :=
  cs.flatMap fun d => if d = c then text else [d]

def replaceMarked (mark c : Char) : List Char → List Char
  | '~' :: d :: r =>
    if d = mark then c :: replaceMarked mark c r else '~' :: replaceMarked mark c (d :: r)
  | d :: r => d :: replaceMarked mark c r
  | [] => []

theorem escapeReplaces (cs : List Char) :
    escape cs = replaceChar '/' ['~', '1'] (replaceChar '~' ['~', '0'] cs) := by
  induction cs with
  | nil => rfl
  | cons c r ih =>
    simp only [escape, replaceChar, List.flatMap_cons, List.flatMap_append] at ih ⊢
    rw [ih]
    congr 1
    by_cases tilde : c = '~'
    · simp [tilde]
    · simp [tilde]

section Marked
variable {mark c d : Char} {r : List Char}

theorem markedOther (other : d ≠ '~') :
    replaceMarked mark c (d :: r) = d :: replaceMarked mark c r := by
  rw [replaceMarked]
  intro e r' same
  exact absurd same other

theorem markedHere : replaceMarked mark c ('~' :: mark :: r) = c :: replaceMarked mark c r := by
  rw [replaceMarked, if_pos rfl]

theorem markedNext (other : r.head? ≠ some mark) :
    replaceMarked mark c ('~' :: r) = '~' :: replaceMarked mark c r := by
  cases r with
  | nil => simp [replaceMarked]
  | cons e r =>
    rw [replaceMarked, if_neg]
    rintro rfl
    exact other rfl

theorem markedHead (slash : c ≠ '0') (other : r.head? ≠ some '0') :
    (replaceMarked mark c r).head? ≠ some '0' := by
  cases r with
  | nil => simp [replaceMarked]
  | cons d r =>
    by_cases tilde : d = '~'
    · subst tilde
      by_cases next : r.head? = some mark
      · obtain ⟨r, rfl⟩ := List.head?_eq_some_iff.mp next
        simpa [markedHere] using slash
      · simp [markedNext next]
    · simpa [markedOther tilde] using other

end Marked

/- The two replacements that undo an escape are made at once; `~1` is the first to be replaced, so that
no `~` read from a `~0` is taken for its mark. -/
theorem unescapeReplaces (cs : List Char) :
    unescape cs = replaceMarked '0' '~' (replaceMarked '1' '/' cs) := by
  fun_induction unescape cs with
  | case1 r ih =>
    have inner : replaceMarked '1' '/' ('~' :: '0' :: r) = '~' :: '0' :: replaceMarked '1' '/' r := by
      rw [markedNext (by simp), markedOther (by decide)]
    rw [inner, markedHere, ih]
  | case2 r ih => rw [markedHere, markedOther (by decide), ih]
  | case3 c r zero one ih =>
    by_cases tilde : c = '~'
    · subst tilde
      have noOne : r.head? ≠ some '1' := fun next => by
        obtain ⟨r', rfl⟩ := List.head?_eq_some_iff.mp next
        exact one r' rfl rfl
      have noZero : r.head? ≠ some '0' := fun next => by
        obtain ⟨r', rfl⟩ := List.head?_eq_some_iff.mp next
        exact zero r' rfl rfl
      rw [markedNext noOne, markedNext (markedHead (by decide) noZero), ih]
    · rw [markedOther tilde, markedOther tilde, ih]
  | case4 => rfl

def Spelled (l : Location) : Prop := ∀ s ∈ l.segments, s.isEmpty = false

instance (l : Location) : Decidable l.Spelled :=
  inferInstanceAs (Decidable (∀ s ∈ l.segments, s.isEmpty = false))

theorem splitSegments (segments : List String) :
    splitOn '/' (segments.flatMap fun s => '/' :: escape s.toList) =
      [] :: segments.map fun s => escape s.toList := by
  induction segments with
  | nil => rfl
  | cons s r ih =>
    have line := splitOnLine (escapeNoSlash s.toList) ih
    simp [splitOn, line]

theorem escapeEmpty (s : String) : (escape s.toList).isEmpty = s.isEmpty := by
  have same : escape s.toList = [] ↔ s.toList = [] := by
    constructor
    · intro h
      have back := unescapeEscape s.toList
      rw [h] at back
      exact back.symm
    · intro h
      rw [h]
      rfl
  rw [Bool.eq_iff_iff, List.isEmpty_iff, same]
  simp

theorem ofPointerOfLocation (l : Location) :
    ofPointer l.toPointer = ⟨l.segments.filter fun s => !s.isEmpty⟩ := by
  have text : l.toPointer.toList = '#' :: l.segments.flatMap (fun s => '/' :: escape s.toList) := by
    simp [toPointer]
  have inner : fragment l.toPointer.toList =
      l.segments.flatMap (fun s => '/' :: escape s.toList) := by
    rw [text]
    simp [fragment, cutAt]
  unfold ofPointer
  rw [inner, splitSegments]
  congr 1
  rw [List.filter_cons_of_neg (by simp), List.filter_map, List.map_map]
  have kept : ∀ s : String, ((fun s : List Char => !s.isEmpty) ∘ fun s => escape s.toList) s =
      !s.isEmpty := fun s => by simp [escapeEmpty]
  have back : ∀ s : String, ((fun s => String.ofList (unescape s)) ∘ fun s => escape s.toList) s =
      s := fun s => by simp [unescapeEscape]
  rw [List.filter_congr fun s _ => kept s]
  simp [funext back]

theorem unescapeNil {cs : List Char} (h : unescape cs = []) : cs = [] := by
  unfold unescape at h
  split at h
  · simp at h
  · simp at h
  · simp at h
  · rfl

theorem ofPointerSpelled (pointer : String) : (ofPointer pointer).Spelled := by
  intro s mem
  obtain ⟨piece, inside, rfl⟩ := List.mem_map.mp mem
  have filled : piece.isEmpty = false := by simpa using (List.mem_filter.mp inside).2
  cases empty : (String.ofList (unescape piece)).isEmpty with
  | false => rfl
  | true =>
    have gone : unescape piece = [] := by simpa using empty
    rw [unescapeNil gone] at filled
    simp at filled

theorem pointerRoundTrip {l : Location} (spelled : l.Spelled) : ofPointer l.toPointer = l := by
  rw [ofPointerOfLocation, List.filter_eq_self.mpr fun s mem => by simp [spelled s mem]]

end ApiGraph.Location

namespace ApiGraph.Resolve
open Json

theorem referenceRef (pointer : String) : refOf (reference pointer) = some pointer := by
  simp [reference, refOf, Value.textAt?, Value.get?, Value.str?]

theorem lookupAt {doc v : Value} {l : Location} (spelled : l.Spelled)
    (found : Tree.get? l doc = some v) : lookup doc l.toPointer = .ok v := by
  have hash : l.toPointer.startsWith "#" = true := by
    simp [Location.toPointer]
  simp [lookup, hash, Location.pointerRoundTrip spelled, found]

theorem resolveNamed {doc v w : Value} {l : Location} (spelled : l.Spelled)
    (found : Tree.get? l doc = some v) (plain : refOf v = none)
    (named : refOf w = some l.toPointer) : resolve doc w = .ok ⟨v, some l.toPointer⟩ := by
  simp [resolve, named, follow, lookupAt spelled found, plain]

theorem resolveReference {doc v : Value} {l : Location} (spelled : l.Spelled)
    (found : Tree.get? l doc = some v) (plain : refOf v = none) :
    resolve doc (reference l.toPointer) = .ok ⟨v, some l.toPointer⟩ :=
  resolveNamed spelled found plain (referenceRef _)

/- What a location's pointer is good for, whatever its segments hold. Segments are written and read by
two replacements each. -/
structure Encoded (l : Location) : Prop where
  text : l.toPointer = String.ofList ('#' :: l.segments.flatMap fun s =>
    '/' :: Location.replaceChar '/' ['~', '1'] (Location.replaceChar '~' ['~', '0'] s.toList))
  pieces : ∀ pointer, Location.ofPointer pointer =
    ⟨((Text.splitOn '/' (Location.fragment pointer.toList)).filter fun s => !s.isEmpty).map fun s =>
      String.ofList (Location.replaceMarked '0' '~' (Location.replaceMarked '1' '/' s))⟩
  read : Location.ofPointer l.toPointer = ⟨l.segments.filter fun s => !s.isEmpty⟩
  unique : l.Spelled → ∀ l' : Location, l'.Spelled → l'.toPointer = l.toPointer → l' = l
  leads : l.Spelled → ∀ doc v w, Tree.get? l doc = some v → refOf v = none →
    refOf w = some l.toPointer → ∃ r, resolve doc w = .ok r ∧ r.value = v ∧ r.location? = some l

theorem pointersEncode (l : Location) : Encoded l where
  text := by simp only [Location.toPointer, Location.escapeReplaces]
  pieces pointer := by simp only [Location.ofPointer, Location.unescapeReplaces]
  read := Location.ofPointerOfLocation l
  unique spelled l' spelled' same := by
    rw [← Location.pointerRoundTrip spelled', same, Location.pointerRoundTrip spelled]
  leads spelled doc v w found plain named := by
    refine ⟨_, resolveNamed spelled found plain named, rfl, ?_⟩
    rw [Resolved.location?, Option.map_some, Location.pointerRoundTrip spelled]

/- A value far down, with the marks of an escape and a `#` on the way. -/
theorem oddPointerLeads :
    let l : Location := ⟨["~1/#", "~0~", "1"]⟩
    let doc := Value.obj [("~1/#", .obj [("~0~", .arr [.null, .str "held"])])]
    ∃ r, resolve doc (.obj [("$ref", .str "#/~01~1#/~00~0/1")]) = .ok r ∧ r.value = .str "held" ∧
      r.location? = some l := by
  intro l doc
  exact (pointersEncode l).leads (by decide) doc _ _ rfl rfl (by decide +kernel)

end ApiGraph.Resolve
