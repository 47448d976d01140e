import ApiGraph.Proofs.Remapping

/-! The turns of the worklist. A turn takes the next placement, reads its value, rewrites it in its file
and writes it; a bundling rewrites the root and then takes turns until nothing is pending. Every value
that was rewritten has in the end the pointers that were given out. -/
namespace ApiGraph.Bundle
open Json ApiGraph.Tree

/- A value that was rewritten: the placement that it is a copy for (`none` is the root itself), as it
was, and as it has become. -/
structure Rewriting where
  copied : Option Placement
  before : Value
  after : Value

def Rewriting.base (r : Rewriting) : Option String := r.copied.map fun p => p.source.file

structure Stage where
  doc : Value
  ledger : Ledger

inductive Turn (files : Files) : Stage → Rewriting → Stage → Prop
  | copy {doc l p rest v v' m doc'} (first : l.pending = p :: rest)
      (value : files.value p.source = .ok v)
      (run : remap files (some p.source.file) { l with pending := rest } v = .ok (v', m))
      (written : Tree.set? p.target v' doc = some doc') :
      Turn files ⟨doc, l⟩ ⟨some p, v, v'⟩ ⟨doc', m⟩

inductive Turns (files : Files) : Stage → List Rewriting → Stage → Prop
  | none (s) : Turns files s [] s
  | more {s r m rs t} (first : Turn files s r m) (rest : Turns files m rs t) :
      Turns files s (r :: rs) t

inductive Bundles (root : Value) (externals : List (String × Value)) : List Rewriting → Value → Prop
  | run {doc l rs t} (first : remap (Files.ofList root externals) none ⟨[], [], []⟩ root = .ok (doc, l))
      (turns : Turns (Files.ofList root externals) ⟨doc, l⟩ rs t) (empty : t.ledger.pending = []) :
      Bundles root externals (⟨none, root, doc⟩ :: rs) t.doc

section Runs
variable {files : Files} {s t : Stage} {r : Rewriting} {rs : List Rewriting}

theorem copiesTurns {steps : Nat} {doc last : Value} {l end_ : Ledger}
    (run : copyPending files steps doc l = .ok (last, end_)) :
    ∃ rs, Turns files ⟨doc, l⟩ rs ⟨last, end_⟩ ∧ end_.pending = [] := by
  induction steps generalizing doc l with
  | zero =>
    rw [copyPending] at run
    split at run
    · rename_i empty
      cases run
      exact ⟨[], .none _, by simpa using empty⟩
    · contradiction
  | succ steps ih =>
    rw [copyPending] at run
    split at run
    · rename_i empty
      cases run
      exact ⟨[], .none _, empty⟩
    · rename_i p rest first
      obtain ⟨v, value, run⟩ := bindOk.mp run
      obtain ⟨⟨v', m⟩, inner, run⟩ := bindOk.mp run
      dsimp only at run
      split at run
      · rename_i doc' written
        obtain ⟨rs, turns, empty⟩ := ih run
        exact ⟨_, .more (.copy first value inner written) turns, empty⟩
      · contradiction

theorem turnsCopy {steps : Nat} (turns : Turns files s rs t) (empty : t.ledger.pending = [])
    (enough : rs.length ≤ steps) : copyPending files steps s.doc s.ledger = .ok (t.doc, t.ledger) := by
  induction turns generalizing steps with
  | none s => cases steps <;> simp [copyPending, empty]
  | more first rest ih =>
    cases steps with
    | zero => simp at enough
    | succ steps =>
      have later := ih empty (Nat.le_of_succ_le_succ enough)
      cases first with
      | copy first value run written =>
        simpa [copyPending, first, value, run, written, bind, Except.bind] using later

theorem internalizeIffBundled {root bundle : Value} {externals : List (String × Value)} :
    internalize root externals = .ok bundle ↔ ∃ l, bundled root externals = .ok (bundle, l) := by
  rw [internalize]
  cases bundled root externals with
  | error e => simp [Except.map]
  | ok r => simp [Except.map, Prod.ext_iff]

theorem internalizeBundles {root bundle : Value} {externals : List (String × Value)}
    (done : internalize root externals = .ok bundle) : ∃ rs, Bundles root externals rs bundle := by
  obtain ⟨last, run⟩ := internalizeIffBundled.mp done
  obtain ⟨⟨doc, l⟩, first, run⟩ := bindOk.mp run
  obtain ⟨rs, turns, empty⟩ := copiesTurns run
  exact ⟨_, .run first turns empty⟩

end Runs

def placements (rs : List Rewriting) : List Placement := rs.filterMap Rewriting.copied

@[simp] theorem placementsCopy (p : Placement) (v v' : Value) (rs : List Rewriting) :
    placements (⟨some p, v, v'⟩ :: rs) = p :: placements rs := rfl

structure Rewriting.Follows (final : List (Key × String)) (r : Rewriting) : Prop where
  covered : Covered final r.base (outer r.before)
  renames : renamed final r.base r.before = r.after

theorem soundStart (files : Files) : Sound files [] ⟨[], [], []⟩ :=
  ⟨nofun, nofun, nofun, List.nodup_nil, nofun, nofun⟩

section Sound
variable {files : Files} {done : List Key} {l : Ledger} {s t : Stage} {r : Rewriting}
  {rs : List Rewriting}

theorem Sound.pop {done : List Key} {p : Placement} {rest : List Placement}
    (sound : Sound files done l) (first : l.pending = p :: rest) :
    Sound files (done ++ [p.source.key]) { l with pending := rest } := by
  refine ⟨sound.slots, sound.apart, fun q mem => sound.pending q ?_, ?_, fun k mem => ?_,
    fun k q held absent => ?_⟩
  · rw [first]
    exact List.mem_cons_of_mem _ mem
  · have once := sound.once
    rw [first] at once
    simpa using once
  · rcases List.mem_append.mp mem with old | new
    · exact sound.seen k old
    · obtain ⟨_, _, assigned, _⟩ := sound.pending p (by simp [first])
      exact ⟨_, List.mem_singleton.mp new ▸ assigned⟩
  · rcases sound.each k q held absent with old | ⟨r, mem, same⟩
    · exact .inl (List.mem_append_left _ old)
    · rw [first] at mem
      rcases List.mem_cons.mp mem with rfl | later
      · exact .inl (by simp [same])
      · exact .inr ⟨r, later, same⟩

theorem turnSound (turn : Turn files s r t) (sound : Sound files done s.ledger) : ∃ p,
    r.copied = some p ∧ Sound files (done ++ [p.source.key]) t.ledger ∧
      Extends s.ledger.assigned t.ledger.assigned ∧
      ∀ final, Extends t.ledger.assigned final → r.Follows final := by
  cases turn with
  | copy first value run written =>
    have rewrites := remapped (sound.pop first) run
    exact ⟨_, rfl, rewrites.sound, rewrites.grown,
      fun final more => ⟨rewrites.covered final more, rewrites.renames final more⟩⟩

theorem turnsSound (turns : Turns files s rs t) (sound : Sound files done s.ledger) :
    Sound files (done ++ (placements rs).map fun p => p.source.key) t.ledger ∧
      Extends s.ledger.assigned t.ledger.assigned ∧ ∀ r ∈ rs, r.Follows t.ledger.assigned := by
  induction turns generalizing done with
  | none s => exact ⟨by simpa [placements] using sound, .refl _, nofun⟩
  | @more s r m rs t first rest ih =>
    obtain ⟨p, copied, sound', grown, follows⟩ := turnSound first sound
    obtain ⟨sound'', grown', each⟩ := ih sound'
    have next : placements (r :: rs) = p :: placements rs := by simp [placements, copied]
    refine ⟨by simpa [next] using sound'', grown.trans grown', ?_⟩
    intro r mem
    rcases List.mem_cons.mp mem with rfl | later
    · exact follows _ grown'
    · exact each r later

theorem turnsPlaced (turns : Turns files s rs t) : (placements rs).length = rs.length := by
  induction turns with
  | none => rfl
  | more first _ ih =>
    cases first
    simp [ih]

/- The pointers of the end tell the rewriting of the root and of every copy. -/
theorem bundlesFollow {root bundle : Value} {externals : List (String × Value)}
    (run : Bundles root externals rs bundle) : ∃ done end_,
      Sound (Files.ofList root externals) done end_ ∧ ∀ r ∈ rs, r.Follows end_.assigned := by
  cases run with
  | run first turns empty =>
    have rewrites := remapped (soundStart _) first
    obtain ⟨sound, grown, each⟩ := turnsSound turns rewrites.sound
    refine ⟨_, _, sound, ?_⟩
    intro r mem
    rcases List.mem_cons.mp mem with rfl | later
    · exact ⟨rewrites.covered _ grown, rewrites.renames _ grown⟩
    · exact each r later

end Sound
end ApiGraph.Bundle
