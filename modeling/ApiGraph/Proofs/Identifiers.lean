import ApiGraph.Proofs.Accounts
import ApiGraph.Proofs.Casing

/-! What generated names are spelled with. A name that is made has the characters of its case only. A
name that is left alone has been looked at for the separators that are usual in names, and any
other character of it stays. -/
namespace ApiGraph.Words
open Text

def NameCase.allows : NameCase → Char → Bool
  | .camel, c | .pascal, c => isAlphanumeric c
  | .snake, c => isAlphanumeric c || c == '_'
  | .kebab, c => isAlphanumeric c || c == '-'
  | .preserve, _ => true

def stray (c : Char) : Bool := !(isAlphanumeric c || c == '-' || c == '_' || isBlank c)

structure Named (kind : NameCase) (s name : String) : Prop where
  spelled : (∀ c ∈ name.toList, kind.allows c = true) ↔
    ¬(conforms kind s.toList = true ∧ ∃ c ∈ s.toList, stray c = true)
  empty : name = "" ↔ (∀ c ∈ s.toList, isAlphanumeric c = false) ∧
    (conforms kind s.toList = true → s = "")

section Spelling
variable {kind : NameCase} {s : String} {cs : List Char} {ws : List (List Char)}

/- Of a conforming name only stray characters are not those of its case. -/
theorem conformingStray (chosen : kind ≠ .preserve) (h : conforms kind cs = true) {c : Char}
    (mem : c ∈ cs) : kind.allows c = !stray c := by
  have tested : kind.refuses c = false := by simpa using List.any_eq_false.mp (conformingAny h) c mem
  cases kind with
  | preserve => exact absurd rfl chosen
  | snake | kebab | camel | pascal =>
    simp only [NameCase.refuses, Bool.or_eq_false_iff] at tested
    simp [NameCase.allows, stray, tested]

theorem wordsNone (ascii : Ascii cs) : wordsOf cs = [] ↔ ∀ c ∈ cs, isAlphanumeric c = false := by
  have flat : wordsOf cs = [] ↔ (wordsOf cs).flatten = [] := by
    cases split : wordsOf cs with
    | nil => simp
    | cons w r => simp [(wordsShaped ascii w (by simp [split])).filled]
  rw [flat, wordsFlatten, List.flatMap_eq_nil_iff]
  constructor
  · intro none c mem
    cases plain : isAlphanumeric c with
    | false => rfl
    | true =>
      have empty := none c (List.mem_filter.mpr ⟨mem, plain⟩)
      rw [lowerSingle (ascii c mem)] at empty
      cases empty
  · intro none c mem
    obtain ⟨inside, plain⟩ := List.mem_filter.mp mem
    cases (none c inside).symm.trans plain

theorem joinedNone (shaped : ∀ w ∈ ws, Word w) (sep : Char) :
    List.intercalate [sep] ws = [] ↔ ws = [] := by
  match ws with
  | [] => simp [List.intercalate]
  | [w] => simp [List.intercalate, (shaped w List.mem_cons_self).filled]
  | w :: v :: r => simp [List.intercalate, List.intersperse]

theorem togetherNone (shaped : ∀ w ∈ ws, Word w) : together kind ws = [] ↔ ws = [] := by
  match ws with
  | [] => simp [together]
  | [] :: _ => exact absurd rfl (shaped [] List.mem_cons_self).filled
  | (x :: t) :: _ =>
    rw [together, capitalizeWord (shaped _ List.mem_cons_self)]
    split <;> simp

theorem joinedAllowed (shaped : ∀ w ∈ ws, Word w) (sep : Char) :
    ∀ c ∈ List.intercalate [sep] ws, (isAlphanumeric c || c == sep) = true := by
  intro c mem
  rcases memJoined mem with rfl | ⟨w, inside, here⟩
  · simp
  · rw [(wordCharPlain ((shaped w inside).plain c here)).1, Bool.true_or]

theorem setCaseConverted (ascii : Ascii s.toList) (h : conforms kind s.toList = false) :
    (∀ c ∈ (setCase s kind).toList, kind.allows c = true) ∧
      (setCase s kind = "" ↔ wordsOf s.toList = []) := by
  have shaped := wordsShaped ascii
  cases kind with
  | camel | pascal =>
    rw [setTogether (by simp) h, ← String.toList_inj, String.toList_ofList]
    exact ⟨fun c mem => (togetherPlain shaped c mem).2, togetherNone shaped⟩
  | snake | kebab =>
    rw [setJoined (by simp) h, ← String.toList_inj, String.toList_ofList]
    exact ⟨joinedAllowed shaped _, joinedNone shaped _⟩
  | preserve => cases h

theorem setCaseNamed (chosen : kind ≠ .preserve) (ascii : Ascii s.toList) :
    Named kind s (setCase s kind) := by
  cases already : conforms kind s.toList with
  | false =>
    obtain ⟨allowed, empty⟩ := setCaseConverted ascii already
    exact ⟨by simpa [already] using allowed, by simpa [already] using empty.trans (wordsNone ascii)⟩
  | true =>
    rw [setCaseConforming already]
    have strays : (∀ c ∈ s.toList, kind.allows c = true) ↔ ¬∃ c ∈ s.toList, stray c = true := by
      simp only [not_exists, not_and, Bool.not_eq_true]
      exact forall₂_congr fun c mem => by simp [conformingStray chosen already mem]
    refine ⟨by simpa [already] using strays, ?_⟩
    constructor
    · intro empty
      simp [empty]
    · intro h
      exact h.2 already

end Spelling
end ApiGraph.Words

namespace ApiGraph.Build
open Json Declaration Words
variable {c : Config} {doc doc' : Value} {g : Graph}

theorem identifiersSet (lawful : doc.lawful = true) (built : build c doc = (doc', .ok g)) {m : Method}
    (mem : m ∈ g.methods) : m.identifier = setCase m.operationId c.operationCase := by
  have lawful' := buildLawful lawful built
  obtain ⟨cx, set, walked⟩ := graphOfSource (buildSource built).2
  obtain ⟨_, _, _, _, rfl⟩ := settingSource set
  obtain ⟨found, operations, _⟩ := walkBuilds lawful' walked
  obtain ⟨log, _, account⟩ := walkAccount lawful' operations
    (List.forall₂_same.mpr fun f _ => Restates.refl f) walked
  have told : planned m ∈ g.methods.map planned := List.mem_map_of_mem mem
  rw [account.methods] at told
  obtain ⟨f, _, same⟩ := List.mem_map.mp told
  have id : f.id = m.operationId := congrArg MethodPlan.operationId same
  have name : identifier c f = m.identifier := congrArg MethodPlan.identifier same
  rw [← name, ← id]
  rfl

/- Names are spelled as their case demands, unless one that is left alone has a stray character. -/
theorem namesSpelled {kind : NameCase} (chosen : kind ≠ .preserve) :
    (∀ s : String, Ascii s.toList → Named kind s (setCase s kind)) ∧
    ∀ (c : Config) (doc doc' : Value) (g : Graph), c.operationCase = kind → doc.lawful = true →
      build c doc = (doc', .ok g) → ∀ m ∈ g.methods, Ascii m.operationId.toList →
        Named kind m.operationId m.identifier := by
  refine ⟨fun s ascii => setCaseNamed chosen ascii, ?_⟩
  intro c doc doc' g asked lawful built m mem ascii
  rw [identifiersSet lawful built mem, asked]
  exact setCaseNamed chosen ascii

def kennelDocument : Value :=
  let operation (id : String) : Value := .obj [
    ("tags", .arr [.str "dogs"]), ("operationId", .str id), ("responses", .obj [])]
  .obj [
    ("tags", .arr [.obj [("name", .str "dogs")]]),
    ("paths", .obj [("/dogs", .obj [("get", operation "list_dogs"), ("post", operation "dogs.add")])])]

theorem kennelNamed : ∃ g, build Config.default kennelDocument = (kennelDocument, .ok g) ∧
    g.methods.map (fun m => (m.operationId, m.identifier)) =
      [("list_dogs", "listDogs"), ("dogs.add", "dogs.add")] ∧
    ∀ m ∈ g.methods, Named .camel m.operationId m.identifier := by
  have told : Declaration.declare Config.default kennelDocument = .ok (kennelDocument, 0) := by rfl
  obtain ⟨g, walked, names, ascii⟩ : ∃ g, graphOf Config.default kennelDocument = .ok g ∧
      g.methods.map (fun m => (m.operationId, m.identifier)) =
        [("list_dogs", "listDogs"), ("dogs.add", "dogs.add")] ∧
      g.methods.all (fun m => Ascii m.operationId.toList) = true := by decide +kernel
  have built : build Config.default kennelDocument = (kennelDocument, .ok g) := by
    simp [build, told, walked]
  have named := (namesSpelled (by decide)).2 _ _ _ g rfl (by decide +kernel) built
  exact ⟨g, built, names,
    fun m mem => named m mem (of_decide_eq_true (List.all_eq_true.mp ascii m mem))⟩

/- A full stop parts words, and no test for conforming names looks for it. -/
theorem dottedKept : setCase "pets.list" .camel = "pets.list" ∧ Ascii "pets.list".toList ∧
    (∃ c ∈ "pets.list".toList, Text.isAlphanumeric c = true) ∧
    ¬∀ c ∈ (setCase "pets.list" .camel).toList, Text.isAlphanumeric c = true := by
  have kept : setCase "pets.list" .camel = "pets.list" := by decide
  have stop : '.' ∈ (setCase "pets.list" .camel).toList := by
    rw [kept]
    decide
  exact ⟨kept, by decide, ⟨'p', by decide, by decide⟩, fun all => Bool.false_ne_true (all '.' stop)⟩

end ApiGraph.Build
