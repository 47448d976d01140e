import ApiGraph.Proofs.Turns

/-! The copies that turns make. Every source whose slot was free is copied once, with its references
renamed by the pointers of the end. Copies that are apart from one another and from a place leave each
other, and what is read at the place, as they are. -/
namespace ApiGraph.Bundle
open Json ApiGraph.Tree Location

def assignment (root : Value) (externals : List (String × Value)) : List (Key × String) :=
  match bundled root externals with
  | .ok (_, ledger) => ledger.assigned
  | .error _ => []

structure Copied (files : Files) (final : List (Key × String)) (p : Placement) : Prop where
  spelled : p.source.place.Spelled
  readable : p.target.Spelled
  assigned : final.lookup p.source.key = some p.target.toPointer
  free : Tree.get? p.target files.root = none
  covered : ∀ v, files.value p.source = .ok v →
    Covered final (some p.source.file) (outer v)

section Copies
variable {files : Files} {s t : Stage} {rs : List Rewriting} {done : List Key}

theorem turnsCopied (turns : Turns files s rs t) (sound : Sound files done s.ledger) :
    ∀ p ∈ placements rs, Copied files t.ledger.assigned p := by
  induction turns generalizing done with
  | none => nofun
  | @more s r m rs t first rest ih =>
    obtain ⟨_, _, sound', grown, follows⟩ := turnSound first sound
    have grown' := (turnsSound rest sound').2.1
    have later := ih sound'
    cases first with
    | @copy _ _ p _ _ _ _ _ first value run written =>
      obtain ⟨spelled, readable, assigned, free⟩ := sound.pending p (by simp [first])
      intro q mem
      rcases List.mem_cons.mp mem with rfl | inside
      · refine ⟨spelled, readable, (grown.trans grown') _ _ assigned, free, fun w again => ?_⟩
        cases value.symm.trans again
        exact (follows _ grown').covered
      · exact later q inside

theorem turnsApart (turns : Turns files s rs t)
    (pairs : (placements rs).Pairwise fun p p' => Apart s.doc p.target.segments p'.target.segments)
    {place : List String} (apart : ∀ p ∈ placements rs, Apart s.doc p.target.segments place) :
    walk? place t.doc = walk? place s.doc := by
  induction turns with
  | none => rfl
  | @more _ _ _ rs _ first rest ih =>
    cases first with
    | @copy doc l p _ v v' m doc' first value run written =>
      obtain ⟨beside, pairs⟩ := List.pairwise_cons.mp pairs
      have wrote := writeFollowed written
      have here := apart p List.mem_cons_self
      rw [ih ?_ fun q mem => ?_, (wrote.apart here).1]
      · exact pairs.imp_of_mem fun mem mem' => wrote.stayApart (beside _ mem) (beside _ mem')
      · exact wrote.stayApart (beside q mem) here (apart q (List.mem_cons_of_mem _ mem))

theorem turnsStand (turns : Turns files s rs t) (sound : Sound files done s.ledger)
    (pairs : (placements rs).Pairwise fun p p' => Apart s.doc p.target.segments p'.target.segments) :
    ∀ p ∈ placements rs, ∀ v, files.value p.source = .ok v → Tree.get? p.target t.doc =
      some (renamed t.ledger.assigned (some p.source.file) v) := by
  induction turns generalizing done with
  | none => nofun
  | @more _ _ _ rs _ first rest ih =>
    obtain ⟨_, _, sound', _, follows⟩ := turnSound first sound
    have renames := (follows _ (turnsSound rest sound').2.1).renames
    cases first with
    | @copy doc l p _ v v' m doc' first value run written =>
      obtain ⟨beside, pairs⟩ := List.pairwise_cons.mp pairs
      have wrote := writeFollowed written
      have apart := pairs.imp_of_mem fun mem mem' =>
        wrote.stayApart (beside _ mem) (beside _ mem')
      intro q mem w held
      rcases List.mem_cons.mp mem with rfl | later
      · cases value.symm.trans held
        have reads := turnsApart rest apart fun r mem => (wrote.apartFrom (beside r mem)).symm
        refine (reads.trans (setReads written)).trans ?_
        exact congrArg some renames.symm
      · exact ih sound' apart q later w held

end Copies

/- What a run comes to: `final` are the pointers it gives out, and `ps` the copies it makes. -/
structure Made (files : Files) (final : List (Key × String)) (ps : List Placement) (last : Value) :
    Prop where
  slots : ∀ k q, final.lookup k = some q → Slot files k q
  apart : ∀ k k' q, final.lookup k = some q → final.lookup k' = some q → k = k'
  covered : Covered final none (outer files.root)
  once : (ps.map fun p => p.source.key).Nodup
  copied : ∀ p ∈ ps, Copied files final p
  each : ∀ k q, final.lookup k = some q → Tree.get? (ofPointer q) files.root = none →
    ∃ p ∈ ps, p.source.key = k
  left : (ps.Pairwise fun p p' => Apart files.root p.target.segments p'.target.segments) →
    ∀ place, (∀ p ∈ ps, Apart files.root p.target.segments place) →
      walk? place last = walk? place (renamed final none files.root)
  stands : (ps.Pairwise fun p p' => Apart files.root p.target.segments p'.target.segments) →
    ∀ p ∈ ps, ∀ v, files.value p.source = .ok v →
      Tree.get? p.target last = some (renamed final (some p.source.file) v)

theorem bundledMade {root last : Value} {externals : List (String × Value)} {end_ : Ledger}
    (run : bundled root externals = .ok (last, end_)) :
    ∃ ps, Made (Files.ofList root externals) end_.assigned ps last := by
  obtain ⟨⟨doc, l⟩, first, run⟩ := bindOk.mp run
  have rewrites := remapped (soundStart _) first
  obtain ⟨rs, turns, empty⟩ := copiesTurns run
  obtain ⟨sound, grown, _⟩ := turnsSound turns rewrites.sound
  have start : renamed end_.assigned none root = doc := rewrites.renames _ grown
  have kept : ∀ l l', Apart root l l' → Apart doc l l' := by
    intro l l' h
    rw [Apart, ← start, renamedPosition, renamedPosition]
    exact h
  refine ⟨placements rs, fun k q held => (sound.slots k q held).1, sound.apart,
    rewrites.covered _ grown, ?_, turnsCopied turns rewrites.sound, fun k q held absent => ?_,
    fun pairs place apart => ?_, fun pairs => ?_⟩
  · have once := sound.once
    rw [empty] at once
    simpa using once
  · rcases sound.each k q held absent with listed | ⟨p, mem, _⟩
    · simpa using listed
    · rw [empty] at mem
      cases mem
  · rw [turnsApart turns (pairs.imp (kept _ _)) fun p mem => kept _ _ (apart p mem)]
    exact congrArg _ start.symm
  · exact turnsStand turns rewrites.sound (pairs.imp (kept _ _))

end ApiGraph.Bundle
