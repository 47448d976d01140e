import ApiGraph.Proofs.Bundling
import ApiGraph.Proofs.SlotSearch
import ApiGraph.Proofs.Turns

/-! Every bundling comes to an end. A source is copied once, and a reference of the root or of a file
names it, so that the worklist runs empty after no more turns than there are references. -/
namespace ApiGraph.Bundle
open Json ApiGraph.Tree Location

mutual
theorem outerListed (v : Value) : outer v ⊆ v.pointers := by
  match v with
  | .arr items =>
    rw [outer, Value.pointers]
    exact outerItemsListed items
  | .obj members =>
    rw [outer, Value.pointers]
    split
    · rename_i text named
      intro t mem
      cases List.mem_singleton.mp mem
      simp [named]
    · exact List.Subset.trans (outerMembersListed members) (List.subset_append_right _ _)
  | .null => exact List.nil_subset _
  | .bool _ => exact List.nil_subset _
  | .num _ => exact List.nil_subset _
  | .str _ => exact List.nil_subset _
theorem outerItemsListed (items : List Value) : outerItems items ⊆ Value.pointersOfItems items := by
  match items with
  | [] => exact List.nil_subset _
  | x :: r =>
    rw [outerItems, Value.pointersOfItems]
    exact List.append_subset.mpr
      ⟨List.Subset.trans (outerListed x) (List.subset_append_left _ _),
        List.Subset.trans (outerItemsListed r) (List.subset_append_right _ _)⟩
theorem outerMembersListed (members : Members) :
    outerMembers members ⊆ Value.pointersOfMembers members := by
  match members with
  | [] => exact List.nil_subset _
  | (_, x) :: r =>
    rw [outerMembers, Value.pointersOfMembers]
    exact List.append_subset.mpr
      ⟨List.Subset.trans (outerListed x) (List.subset_append_left _ _),
        List.Subset.trans (outerMembersListed r) (List.subset_append_right _ _)⟩
end

def Yields {α : Type} (P : α → Prop) : Except Failure α → Prop
  | .ok a => P a
  | .error e => ∃ cause, e = .resolve cause

section Yields
variable {α β : Type} {P : α → Prop} {Q : β → Prop}

theorem Yields.bind {x : Except Failure α} {f : α → Except Failure β} (first : Yields P x)
    (rest : ∀ a, x = .ok a → P a → Yields Q (f a)) : Yields Q (x >>= f) := by
  cases x with
  | error e => exact first
  | ok a => exact rest a rfl first

theorem Yields.fold {f : β → α → Except Failure β} {xs : List α} {b : β}
    (each : ∀ x ∈ xs, ∀ b, Q b → Yields Q (f b x)) (start : Q b) : Yields Q (xs.foldlM f b) := by
  induction xs generalizing b with
  | nil => exact start
  | cons x r ih =>
    rw [List.foldlM_cons]
    refine (each x List.mem_cons_self b start).bind fun c _ holds => ?_
    exact ih (fun y mem => each y (List.mem_cons_of_mem _ mem)) holds

theorem Yields.map {f : α → β} {x : Except Failure α} :
    Yields Q (x.map f) ↔ Yields (fun a => Q (f a)) x := by
  cases x <;> exact Iff.rfl

theorem yieldsIff {x : Except Failure α} :
    Yields P x ↔ (∃ a, x = .ok a ∧ P a) ∨ ∃ cause, x = .error (.resolve cause) := by
  cases x <;> simp [Yields]

end Yields

def keyNamed (base : Option String) (text : String) : Option Key :=
  match sourceOf base text with
  | .ok (some s) => some s.key
  | _ => none

def Files.named (files : Files) : List Key :=
  files.root.pointers.filterMap (keyNamed none) ++
    files.externals.flatMap fun e => e.2.pointers.filterMap (keyNamed (some e.1))

def Files.references (files : Files) : Nat :=
  files.root.pointers.length + files.externals.foldl (fun n e => n + e.2.pointers.length) 0

theorem namedFew (files : Files) : files.named.length ≤ files.references := by
  have each : ∀ (es : List (String × Value)) (n : Nat),
      n + (es.flatMap fun e => e.2.pointers.filterMap (keyNamed (some e.1))).length ≤
        es.foldl (fun n e => n + e.2.pointers.length) n := by
    intro es
    induction es with
    | nil => exact fun n => Nat.le_refl n
    | cons e r ih =>
      intro n
      have here := List.length_filterMap_le (keyNamed (some e.1)) e.2.pointers
      have later := ih (n + e.2.pointers.length)
      simp only [List.flatMap_cons, List.length_append, List.foldl_cons]
      omega
  have root := List.length_filterMap_le (keyNamed none) files.root.pointers
  have others := each files.externals 0
  simp only [Files.named, Files.references, List.length_append]
  omega

def Files.Lists (files : Files) (base : Option String) (v : Value) : Prop :=
  ∀ text ∈ v.pointers, ∀ s, sourceOf base text = .ok (some s) → s.key ∈ files.named

section Listed
variable {files : Files} {base : Option String} {done : List Key} {l m : Ledger} {v v' : Value}

theorem keySourced {text : String} {s : Source} (source : sourceOf base text = .ok (some s)) :
    keyNamed base text = some s.key := by
  simp only [keyNamed, source]

theorem rootLists (files : Files) : files.Lists none files.root := by
  intro text mem s source
  exact List.mem_append_left _ (List.mem_filterMap.mpr ⟨text, mem, keySourced source⟩)

theorem valueLists {s : Source} (held : files.value s = .ok v) : files.Lists (some s.file) v := by
  unfold Files.value at held
  split at held
  · rename_i w there
    cases held
    obtain ⟨doc, file, place⟩ := Option.bind_eq_some_iff.mp there
    intro text mem t source
    refine List.mem_append_right _ (List.mem_flatMap.mpr ⟨_, Entries.mem_of_lookup file, ?_⟩)
    exact List.mem_filterMap.mpr ⟨text, (walkMeasures place).2 mem, keySourced source⟩
  · contradiction

def Ledger.Listed (files : Files) (l : Ledger) : Prop :=
  ∀ k q, l.assigned.lookup k = some q → k ∈ files.named

theorem listedFew (sound : Sound files done l) (listed : l.Listed files) :
    done.length + l.pending.length ≤ files.named.length := by
  have inside : (done ++ l.pending.map fun p => p.source.key) ⊆ files.named := by
    intro k mem
    rcases List.mem_append.mp mem with copied | waits
    · obtain ⟨q, assigned⟩ := sound.seen k copied
      exact listed k q assigned
    · obtain ⟨p, pending, rfl⟩ := List.mem_map.mp waits
      obtain ⟨_, _, assigned, _⟩ := sound.pending p pending
      exact listed _ _ assigned
  have fits := (sound.once.subperm inside).length_le
  simpa using fits

theorem valueYields (files : Files) (s : Source) : Yields (fun _ => True) (files.value s) := by
  unfold Files.value
  split
  · trivial
  · exact ⟨_, rfl⟩

theorem placeYields {s : Source} (named : s.key ∈ files.named) (listed : l.Listed files) :
    Yields (fun r => r.2.Listed files) (place files l s) := by
  unfold place
  split
  · exact listed
  · have slot : ∀ v, Yields (fun _ => True)
        (findSlot files l.owners s.place v (l.owners.length + files.root.size + 2) 0 s.place) := by
      intro v
      cases found : findSlot files l.owners s.place v (l.owners.length + files.root.size + 2) 0
          s.place with
      | ok r => trivial
      | error e =>
        refine (searchFails found).resolve_left ?_
        rintro rfl
        exact searchEnds (Nat.le_refl _) found
    refine (valueYields files s).bind fun v _ _ => (slot v).bind fun r _ _ k q held => ?_
    rcases Entries.lookupPutCases held with ⟨rfl, _⟩ | ⟨_, old⟩
    · exact named
    · exact listed k q old

def note (files : Files) (base : Option String) (l : Ledger) (text : String) :
    Except Failure Ledger := do
  match ← sourceOf base text with
  | none => .ok l
  | some s => (place files l s).map Prod.snd

mutual
theorem remapNotes (files : Files) (base : Option String) (l : Ledger) (v : Value) :
    (remap files base l v).map Prod.snd = (outer v).foldlM (note files base) l := by
  match v with
  | .arr items =>
    rw [outer, ← remapItemsNote, remap]
    cases remapItems files base l items <;> rfl
  | .obj members =>
    rw [remap, outer]
    cases refOf (.obj members) with
    | some text =>
      simp only [List.foldlM_cons, note]
      cases sourceOf base text with
      | error e => rfl
      | ok source =>
        cases source with
        | none => rfl
        | some s =>
          simp only [bind, Except.bind]
          cases place files l s <;> rfl
    | none =>
      simp only [← remapMembersNote]
      cases remapMembers files base l members <;> rfl
  | .null => rfl
  | .bool _ => rfl
  | .num _ => rfl
  | .str _ => rfl
theorem remapItemsNote (files : Files) (base : Option String) (l : Ledger) (items : List Value) :
    (remapItems files base l items).map Prod.snd = (outerItems items).foldlM (note files base) l := by
  match items with
  | [] => rfl
  | x :: r =>
    rw [remapItems, outerItems, List.foldlM_append, ← remapNotes]
    cases remap files base l x with
    | error e => rfl
    | ok p =>
      have rest := remapItemsNote files base p.2 r
      simp only [bind, Except.bind, Except.map] at rest ⊢
      rw [← rest]
      cases remapItems files base p.2 r <;> rfl
theorem remapMembersNote (files : Files) (base : Option String) (l : Ledger) (members : Members) :
    (remapMembers files base l members).map Prod.snd =
      (outerMembers members).foldlM (note files base) l := by
  match members with
  | [] => rfl
  | (k, x) :: r =>
    rw [remapMembers, outerMembers, List.foldlM_append, ← remapNotes]
    cases remap files base l x with
    | error e => rfl
    | ok p =>
      have rest := remapMembersNote files base p.2 r
      simp only [bind, Except.bind, Except.map] at rest ⊢
      rw [← rest]
      cases remapMembers files base p.2 r <;> rfl
end

theorem noteYields {text : String}
    (named : ∀ s, sourceOf base text = .ok (some s) → s.key ∈ files.named)
    (listed : l.Listed files) : Yields (Ledger.Listed files) (note files base l text) := by
  have source : Yields (fun _ => True) (sourceOf base text) := by
    rw [sourceCases]
    split
    · trivial
    · split
      · exact ⟨_, rfl⟩
      · trivial
  refine source.bind fun s told _ => ?_
  cases s with
  | none => exact listed
  | some s => exact Yields.map.mpr (placeYields (named s told) listed)

theorem remapYields (lists : files.Lists base v) (listed : l.Listed files) :
    Yields (fun r => r.2.Listed files) (remap files base l v) := by
  rw [← Yields.map, remapNotes]
  refine Yields.fold (fun text mem m known => ?_) listed
  exact noteYields (lists text (outerListed v mem)) known

theorem remapListed (lists : files.Lists base v) (listed : l.Listed files)
    (run : remap files base l v = .ok (v', m)) : m.Listed files := by
  have yields := remapYields lists listed
  rwa [run] at yields

end Listed

section Worklist
variable {files : Files} {done : List Key} {doc : Value} {l : Ledger} {steps more : Nat}
  {s t : Stage} {r : Rewriting} {rs : List Rewriting}

/- As long as a source is pending, not all that are named have been copied. -/
theorem copiesYield (sound : Sound files done l) (listed : l.Listed files)
    (enough : files.named.length ≤ done.length + steps) :
    Yields (fun _ => True) (copyPending files steps doc l) := by
  induction steps generalizing done doc l with
  | zero =>
    have few := listedFew sound listed
    have empty : l.pending = [] := List.eq_nil_of_length_eq_zero (by omega)
    simp [copyPending, empty, Yields]
  | succ steps ih =>
    rw [copyPending]
    split
    · trivial
    · rename_i p rest first
      have popped := sound.pop first
      have kept : Ledger.Listed files { l with pending := rest } := listed
      refine (valueYields files p.source).bind fun v held _ => ?_
      refine (remapYields (valueLists held) kept).bind fun out run listed' => ?_
      obtain ⟨v', m⟩ := out
      dsimp only
      split
      · refine ih (remapped popped run).sound listed' ?_
        rw [List.length_append, List.length_singleton]
        omega
      · exact ⟨_, rfl⟩

theorem copiesMore (ended : copyPending files steps doc l ≠ .error .unfinished)
    (enough : steps ≤ more) : copyPending files more doc l = copyPending files steps doc l := by
  induction steps generalizing more doc l with
  | zero =>
    cases empty : l.pending with
    | nil => cases more <;> simp [copyPending, empty]
    | cons p rest => simp [copyPending, empty] at ended
  | succ steps ih =>
    obtain ⟨more, rfl⟩ := Nat.exists_eq_succ_of_ne_zero (show more ≠ 0 by omega)
    rw [copyPending] at ended ⊢
    rw [copyPending]
    split
    · rfl
    · rename_i p rest first
      simp only [first] at ended
      cases value : files.value p.source with
      | error e => rfl
      | ok v =>
        rw [value] at ended
        cases run : remap files (some p.source.file) { l with pending := rest } v with
        | error e => simp only [bind, Except.bind, run]
        | ok w =>
          simp only [bind, Except.bind, run] at ended ⊢
          split
          · rename_i doc' written
            simp only [written] at ended
            exact ih ended (Nat.le_of_succ_le_succ enough)
          · rfl

theorem turnListed (turn : Turn files s r t) (listed : s.ledger.Listed files) :
    t.ledger.Listed files := by
  cases turn with
  | @copy _ l _ rest _ _ _ _ first value run written =>
    have kept : Ledger.Listed files { l with pending := rest } := listed
    exact remapListed (valueLists value) kept run

theorem turnsFew (turns : Turns files s rs t) (sound : Sound files done s.ledger)
    (listed : s.ledger.Listed files) : done.length + rs.length ≤ files.named.length := by
  have later : t.ledger.Listed files := by
    clear sound
    induction turns with
    | none => exact listed
    | more first rest ih => exact ih (turnListed first listed)
  have few := listedFew (turnsSound turns sound).1 later
  rw [List.length_append, List.length_map, turnsPlaced turns] at few
  omega

theorem copiesAnswer (sound : Sound files [] l) (listed : l.Listed files) (doc : Value) :
    Answers files.references fun steps => copyPending files steps doc l := by
  have few := namedFew files
  have ended : copyPending files files.references doc l ≠ .error .unfinished := by
    intro stuck
    have yields : Yields (fun _ => True) (copyPending files files.references doc l) :=
      copiesYield sound listed (Nat.le_trans few (Nat.le_add_left _ _))
    rw [stuck] at yields
    obtain ⟨cause, other⟩ := yields
    contradiction
  exact ⟨_, ended, fun _ enough => copiesMore ended enough⟩

end Worklist

section Whole
variable {root bundle doc : Value} {externals : List (String × Value)} {l : Ledger}

theorem bundledSteps (root : Value) (externals : List (String × Value)) :
    bundled root externals =
      (remap (Files.ofList root externals) none ⟨[], [], []⟩ root >>= fun p => copyPending
        (Files.ofList root externals) ((Files.ofList root externals).references + 1) p.1 p.2) := rfl

theorem startListed (files : Files) : Ledger.Listed files ⟨[], [], []⟩ := nofun

theorem rootRewritten
    (first : remap (Files.ofList root externals) none ⟨[], [], []⟩ root = .ok (doc, l)) :
    Sound (Files.ofList root externals) [] l ∧ l.Listed (Files.ofList root externals) :=
  ⟨(remapped (soundStart _) first).sound,
    remapListed (rootLists (Files.ofList root externals)) (startListed _) first⟩

theorem internalizeIff :
    internalize root externals = .ok bundle ↔ ∃ rs, Bundles root externals rs bundle := by
  constructor
  · exact internalizeBundles
  · intro ⟨rs, run⟩
    cases run with
    | @run _ _ _ t first turns empty =>
      obtain ⟨sound, listed⟩ := rootRewritten first
      have few := turnsFew turns sound listed
      have bound := namedFew (Files.ofList root externals)
      rw [List.length_nil, Nat.zero_add] at few
      refine internalizeIffBundled.mpr ⟨t.ledger, ?_⟩
      rw [bundledSteps]
      exact bindOk.mpr ⟨_, first, turnsCopy turns empty (Nat.le_succ_of_le (Nat.le_trans few bound))⟩

/- Every bundling ends, in a document or for a reference that names nothing that can be copied. There
are no more turns than references, and each search for a slot ends. -/
theorem bundlingEnds (root : Value) (externals : List (String × Value)) :
    ((∃ bundle, internalize root externals = .ok bundle) ∨
      ∃ cause, internalize root externals = .error (.resolve cause)) ∧
    (∀ doc l, remap (Files.ofList root externals) none ⟨[], [], []⟩ root = .ok (doc, l) →
      (∀ rs t, Turns (Files.ofList root externals) ⟨doc, l⟩ rs t →
        rs.length ≤ (Files.ofList root externals).references) ∧
      Answers (Files.ofList root externals).references fun steps =>
        copyPending (Files.ofList root externals) steps doc l) ∧
    ∀ owners l v, Answers (owners.length + root.size + 2) fun tries =>
      findSlot (Files.ofList root externals) owners l v tries 0 l := by
  have bound := namedFew (Files.ofList root externals)
  refine ⟨?_, fun doc l first => ?_, searchAnswers (Files.ofList root externals)⟩
  · have ends : Yields (fun _ => True) (internalize root externals) := by
      rw [internalize, Yields.map, bundledSteps]
      refine (remapYields (rootLists (Files.ofList root externals)) (startListed _)).bind
        fun stage first listed => ?_
      refine copiesYield (rootRewritten first).1 listed ?_
      rw [List.length_nil]
      omega
    simpa using yieldsIff.mp ends
  · obtain ⟨sound, listed⟩ := rootRewritten first
    refine ⟨fun rs t turns => ?_, copiesAnswer sound listed doc⟩
    have few := turnsFew turns sound listed
    rw [List.length_nil] at few
    omega

end Whole

def knotRoot : Value := .obj [
  ("definitions", .obj [("Node", .obj [("type", .str "string")])]),
  ("use", reference "a.yaml#/definitions/Node")]

def knotFiles : List (String × Value) := [
  ("a.yaml", .obj [("definitions", .obj [("Node", .obj [
    ("next", reference "#/definitions/Node"), ("tree", reference "b.yaml#/Tree")])])]),
  ("b.yaml", .obj [("Tree", .obj [("node", reference "./a.yaml#/definitions/Node"),
    ("left", reference "#/Tree"), ("self", reference "#/Tree/self")])])]

theorem knotEnds :
    (∃ bundle, internalize knotRoot knotFiles = .ok bundle ∧
      (Tree.get? ⟨["definitions", "Node_1", "next"]⟩ bundle).bind refOf =
        some "#/definitions/Node_1" ∧
      (Tree.get? ⟨["Tree", "self"]⟩ bundle).bind refOf = some "#/Tree/self") ∧
    ∃ start, remap (Files.ofList knotRoot knotFiles) none ⟨[], [], []⟩ knotRoot = .ok start ∧
      start.2.pending.length = 1 ∧
      ∀ rs t, Turns (Files.ofList knotRoot knotFiles) ⟨start.1, start.2⟩ rs t → rs.length ≤ 6 := by
  obtain ⟨start, first, one⟩ : ∃ start,
      remap (Files.ofList knotRoot knotFiles) none ⟨[], [], []⟩ knotRoot = .ok start ∧
        start.2.pending.length = 1 := by
    decide +kernel
  obtain ⟨_, worklist, _⟩ := bundlingEnds knotRoot knotFiles
  exact ⟨by decide +kernel, start, first, one, (worklist _ _ first).1⟩

end ApiGraph.Bundle
