import Dupa.Leaves

/-!
# The states of `PropagateEquivalence`

`Reached` are the states between two turns of the loop of a run on a fresh tree.
They are sound, come from the fresh tree by moves (`Reached.moves`), and the last
of them is what the classification returns (`classify_reached`). It returns just when
the sums of `NodeDistance` fit in each of them (`classify_ok_iff`).
-/

namespace Dupa

open Checked Heap

/-- What a finished classification of `h` leaves behind. -/
structure Heap.Classified (E : Env) (cksum : NodeId → Cksum) (h h' : Heap)
    (eqClasses : List ClassId) : Prop where
  moves : Moves E cksum h h'
  evaluated : ∀ n, h'.IsEvaluated n ↔ n < h.numNodes
  listed : h'.Listed eqClasses

namespace Propagation

/-- Whatever directory `PropagateEquivalence` evaluates, the sums of its distances to
all its equivalents fit. -/
def SumsFit (E : Env) (h : Heap) (root : NodeId) (sum2Node : Sum2Node) : Prop :=
  ∀ s n rest, Reached E h root sum2Node s → s.readyToEval = n :: rest → s.heap.AllFit E n

/-- The loop, stopped after so many turns. -/
def turns (E : Env) : ℕ → Propagation → Except Fault Propagation
  | 0, s => return s
  | k + 1, s =>
    match s.readyToEval with
    | [] => return s
    | n :: rest => do turns E k (← evaluate E { s with readyToEval := rest } n)

variable {E : Env} {cksum : NodeId → Cksum} {h : Heap} {root : NodeId} {sum2Node : Sum2Node}
  {s s' : Propagation} {n : NodeId}

theorem start_leaves (fresh : h.Fresh root) (holds : sum2Node.Holds h.layout cksum)
    (starts : start E h root sum2Node = .ok s) : LeavesDone E cksum root h s := by
  obtain ⟨s', starts', leaves⟩ := start_ok E fresh holds
  obtain rfl := Except.ok.inj (starts.symm.trans starts')
  exact leaves

/-- What holds in every state of `PropagateEquivalence`. -/
theorem Reached.moves (fresh : h.Fresh root) (holds : sum2Node.Holds h.layout cksum)
    (reached : Reached E h root sum2Node s) : Moves E cksum h s.heap ∧ s.Sound cksum root := by
  obtain ⟨s0, starts, turns⟩ := reached
  have leaves := start_leaves fresh holds starts
  obtain ⟨moves, sound⟩ := turns.sound leaves.sound
  exact ⟨leaves.moves.trans moves, sound⟩

/-- A classification is the first two stages, and then the loop. -/
theorem classify_eq : classify E h root sum2Node = (start E h root sum2Node).bind fun s =>
    (loop E (s.heap.numNodes + 1) s).bind fun s =>
      (ensure (s.heap.IsEvaluated root) .notEvaluated).bind fun _ =>
        .ok (s.heap, s.eqClasses) := by
  unfold classify start
  cases h.classifyDuplicateFiles E sum2Node with
  | error fault => rfl
  | ok files =>
    obtain ⟨h₁, eqClasses⟩ := files
    cases hempty : h₁.classifyEmptyDirs E root with
    | error fault => simp only [ok_bind, hempty]; rfl
    | ok empty => simp only [ok_bind, hempty]; rfl

/-- A classification ends in a state of `PropagateEquivalence` with an empty queue. -/
theorem classify_reached {h' : Heap} {eqClasses : List ClassId}
    (run : classify E h root sum2Node = .ok (h', eqClasses)) :
    ∃ s, Reached E h root sum2Node s ∧ s.readyToEval = [] ∧ s.heap = h' ∧
      s.eqClasses = eqClasses := by
  rw [classify_eq] at run
  obtain ⟨s0, starts, run⟩ := of_bind_ok run
  obtain ⟨s, loop, run⟩ := of_bind_ok run
  obtain ⟨-, run⟩ := of_ensure_ok run
  cases run
  obtain ⟨turns, empty⟩ := loop_turns loop
  exact ⟨s, ⟨s0, starts, turns⟩, empty, rfl, rfl⟩

theorem Sound.finished (sound : s.Sound cksum root) (empty : s.readyToEval = []) :
    ∀ n, s.heap.IsEvaluated n ↔ n < s.heap.numNodes :=
  fun n => ⟨sound.inside n, sound.all_evaluated empty⟩

/-- Whatever is returned is the end of a run of moves. -/
theorem of_classify (fresh : h.Fresh root) (holds : sum2Node.Holds h.layout cksum) {h' : Heap}
    {eqClasses : List ClassId} (run : classify E h root sum2Node = .ok (h', eqClasses)) :
    Heap.Classified E cksum h h' eqClasses := by
  obtain ⟨s, reached, empty, rfl, rfl⟩ := classify_reached run
  obtain ⟨moves, sound⟩ := reached.moves fresh holds
  have size : s.heap.numNodes = h.numNodes := numNodes_of_layout moves.layout
  exact ⟨moves, fun n => size ▸ sound.finished empty n, sound.listed, sound.eqClasses_nodup⟩

/-! ## When a classification returns -/

/-- A classification that returns has taken every distance in range. -/
theorem SumsFit.of_classify (fresh : h.Fresh root) (holds : sum2Node.Holds h.layout cksum)
    {result : Heap × List ClassId} (run : classify E h root sum2Node = .ok result) :
    SumsFit E h root sum2Node := by
  rintro s n rest reached front
  obtain ⟨-, sound⟩ := reached.moves fresh holds
  obtain ⟨s0, starts, turns⟩ := reached
  rw [classify_eq] at run
  obtain ⟨s1, starts', run⟩ := of_bind_ok run
  obtain rfl := Except.ok.inj (starts.symm.trans starts')
  obtain ⟨t, run, -⟩ := of_bind_ok run
  obtain ⟨fuel, run⟩ := loop_of_turns turns run
  cases fuel with
  | zero => cases run
  | succ fuel =>
    unfold loop at run
    rw [front] at run
    obtain ⟨t, turn, -⟩ := of_bind_ok run
    exact Turn.fits (.pop front turn) sound

theorem SumsFit.classify (fits : SumsFit E h root sum2Node) (fresh : h.Fresh root)
    (holds : sum2Node.Holds h.layout cksum) (sized : E.Sized h.layout) :
    ∃ h' eqClasses, classify E h root sum2Node = .ok (h', eqClasses) ∧
      Heap.Classified E cksum h h' eqClasses := by
  obtain ⟨s0, starts, leaves⟩ := start_ok E fresh holds
  have nonneg := leaves.moves.nonneg sized fresh.nonneg
  obtain ⟨s, returns⟩ : ∃ s, loop E (s0.heap.numNodes + 1) s0 = .ok s :=
    loop_ok leaves.sound (leaves.moves.layout ▸ sized) nonneg
      (fun t n rest turns => fits t n rest ⟨s0, starts, turns⟩) (by omega)
  obtain ⟨turns, empty⟩ := loop_turns returns
  obtain ⟨-, sound⟩ := turns.sound leaves.sound
  have run : Dupa.classify E h root sum2Node = .ok (s.heap, s.eqClasses) := by
    rw [classify_eq, starts]
    change (loop E (s0.heap.numNodes + 1) s0 >>= _) = _
    rw [returns]
    exact ensure_bind ((sound.finished empty root).mpr sound.tree.root_dir.1)
  exact ⟨s.heap, s.eqClasses, run, Propagation.of_classify fresh holds run⟩

theorem classify_ok_iff (fresh : h.Fresh root) (holds : sum2Node.Holds h.layout cksum)
    (sized : E.Sized h.layout) :
    (∃ result, classify E h root sum2Node = .ok result) ↔ SumsFit E h root sum2Node := by
  constructor
  · rintro ⟨result, run⟩
    exact .of_classify fresh holds run
  · intro fits
    obtain ⟨h', eqClasses, run, -⟩ := fits.classify fresh holds sized
    exact ⟨_, run⟩

/-- Where nothing is too large, every sum fits. -/
theorem sumsFit_of_unlimited (unlimited : E.rounding.range = none) (fresh : h.Fresh root)
    (holds : sum2Node.Holds h.layout cksum) (sized : E.Sized h.layout) :
    SumsFit E h root sum2Node := by
  intro s n rest reached _ p _
  exact fits_of_unlimited unlimited ((reached.moves fresh holds).1.nonneg sized fresh.nonneg)

/-- In exact arithmetic every classification returns. -/
theorem classify_exact (exact : E.rounding = .exact) (fresh : h.Fresh root)
    (holds : sum2Node.Holds h.layout cksum) (sized : E.Sized h.layout) :
    ∃ h' eqClasses, classify E h root sum2Node = .ok (h', eqClasses) ∧
      Heap.Classified E cksum h h' eqClasses :=
  (sumsFit_of_unlimited (by rw [exact]; rfl) fresh holds sized).classify fresh holds sized

/-! ## Runs of some turns -/

theorem turns_turns {k : ℕ} (h : turns E k s = .ok s') : Turns E s s' := by
  induction k generalizing s with
  | zero =>
    cases h
    exact .refl
  | succ k ih =>
    unfold turns at h
    cases front : s.readyToEval with
    | nil =>
      rw [front] at h
      cases h
      exact .refl
    | cons n rest =>
      rw [front] at h
      obtain ⟨t, turn, h⟩ := of_bind_ok h
      exact .head ⟨n, front, turn⟩ (ih h)

/-- The run has not failed and `P` holds where it got. -/
def OnOk (P : Propagation → Prop) : Except Fault Propagation → Prop
  | .ok s => P s
  | .error _ => False

instance (P : Propagation → Prop) [DecidablePred P] : DecidablePred (OnOk P)
  | .ok s => inferInstanceAs (Decidable (P s))
  | .error _ => isFalse id

/-- After so many turns on the tree of the entries, `P` holds. -/
def AfterTurns (E : Env) (entries : List Entry) (sum2Node : Sum2Node) (k : ℕ)
    (P : Propagation → Prop) : Prop :=
  OnOk P ((start E (.ofEntries entries) 0 sum2Node).bind (turns E k))

instance (entries : List Entry) (k : ℕ) (P : Propagation → Prop) [DecidablePred P] :
    Decidable (AfterTurns E entries sum2Node k P) :=
  inferInstanceAs (Decidable (OnOk P _))

theorem AfterTurns.reached {entries : List Entry} {k : ℕ} {P : Propagation → Prop}
    (after : AfterTurns E entries sum2Node k P) :
    ∃ s, Reached E (.ofEntries entries) 0 sum2Node s ∧ P s := by
  unfold AfterTurns at after
  cases h : (start E (.ofEntries entries) 0 sum2Node).bind (turns E k) with
  | error fault =>
    rw [h] at after
    cases after
  | ok s =>
    rw [h] at after
    obtain ⟨s0, hs0, turns⟩ := of_bind_ok h
    exact ⟨s, ⟨s0, hs0, turns_turns turns⟩, after⟩

end Propagation

end Dupa
