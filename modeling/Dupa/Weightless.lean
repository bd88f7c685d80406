import Dupa.Turns
import Dupa.Weights

/-!
# Classes without files

In every state of `PropagateEquivalence` a class weighs nothing if its members bear no
file, and at least one if they do; members of both kinds never meet.
-/

namespace Dupa

namespace Heap

variable {E : Env} {cksum : NodeId → Cksum} {root : NodeId} {h h' : Heap} {n c : Nat}

/-- Classes without members weigh nothing. -/
def Bare (h : Heap) : Prop := ∀ c, (h.eqClass c).nodes = [] → (h.eqClass c).weight = 0

theorem Fresh.bare (fresh : h.Fresh root) : h.Bare := fun c _ => by rw [fresh.noClass]

theorem newClass_bare (hc : h.Consistent) (bare : h.Bare) : h.newClass.1.Bare := by
  intro d empty
  rw [newClass_nodes hc] at empty
  rw [newClass_weight]
  split
  · rfl
  · exact bare d empty

theorem Placed.bare (placed : Placed E h c n h') (bare : h.Bare) : h'.Bare := by
  intro d empty
  rw [placed.nodes] at empty
  rw [placed.weight]
  by_cases hd : d = c
  · simp [hd] at empty
  · rw [if_neg hd] at empty ⊢
    exact bare d empty

theorem Move.bare (hc : h.Consistent) (bare : h.Bare) (move : Move E cksum h h') : h'.Bare := by
  cases move with
  | newClass => exact newClass_bare hc bare
  | leaf _ _ _ _ _ _ placed => exact placed.bare bare
  | dir _ _ _ _ settled =>
    cases settled with
    | joined _ placed => exact placed.bare bare
    | founded _ placed => exact placed.bare (newClass_bare hc bare)

theorem Moves.bare (moves : Moves E cksum h h') (fresh : h.Fresh root) : h'.Bare := by
  apply moves.invariant fresh.tree fresh.consistent fresh.bare
  intro a b _ ha bare move
  exact move.bare ha bare

theorem Weighted.weight_eq_zero_iff (hw : h.Weighted) (hc : h.Consistent) (bare : h.Bare) :
    (h.eqClass c).weight = 0 ↔ ∀ n ∈ (h.eqClass c).nodes, ¬ h.layout.Bears n := by
  constructor
  · intro zero n hn bears
    have := hw.bears ((hc.member n c).mpr hn) bears
    linarith
  · intro silent
    cases members : (h.eqClass c).nodes with
    | nil => exact bare c members
    | cons n rest =>
      have hn : n ∈ (h.eqClass c).nodes := by simp [members]
      exact hw.weightless ((hc.member n c).mpr hn) (silent n hn)

theorem Weighted.one_le_weight (hw : h.Weighted) (hc : h.Consistent) (bare : h.Bare)
    (heavy : (h.eqClass c).weight ≠ 0) : 1 ≤ (h.eqClass c).weight := by
  rw [Ne, hw.weight_eq_zero_iff hc bare] at heavy
  simp only [not_forall, not_not] at heavy
  obtain ⟨n, hn, bears⟩ := heavy
  exact hw.bears ((hc.member n c).mpr hn) bears

end Heap

/-- In every state of `PropagateEquivalence`: the members of a class all bear a file or all
bear none; the class weighs nothing just in the latter case and else at least one, so it
never vanishes from the integer sums of `NodeDistance`. -/
theorem class_weighs_iff_bears {E : Env} {cksum : NodeId → Cksum} {h : Heap} {root : NodeId}
    {sum2Node : Sum2Node} {s : Propagation} (fresh : h.Fresh root)
    (holds : sum2Node.Holds h.layout cksum) (weighs : E.Weighs h.layout)
    (reached : Propagation.Reached E h root sum2Node s) :
    ∀ c, (∀ a ∈ (s.heap.eqClass c).nodes, ∀ b ∈ (s.heap.eqClass c).nodes,
        h.layout.Bears a → h.layout.Bears b) ∧
      ((s.heap.eqClass c).weight = 0 ↔ ∀ n ∈ (s.heap.eqClass c).nodes, ¬ h.layout.Bears n) ∧
      ((s.heap.eqClass c).weight ≠ 0 → 1 ≤ (s.heap.eqClass c).weight ∧
        ∀ sum, sum < E.rounding.add sum (s.heap.eqClass c).weight) := by
  intro c
  obtain ⟨moves, sound⟩ := reached.moves fresh holds
  obtain ⟨-, weighted⟩ := moves.weighted weighs.counts fresh
  have hc := sound.consistent
  have bare := moves.bare fresh
  rw [← moves.layout]
  refine ⟨fun a ha b hb => ?_, weighted.weight_eq_zero_iff hc bare, fun heavy => ?_⟩
  · exact (weighted.same_bears ((hc.member a c).mpr ha) ((hc.member b c).mpr hb)).mp
  · have whole := weighted.one_le_weight hc bare heavy
    refine ⟨whole, fun sum => ?_⟩
    rw [weighs.exact, Rounding.add_unrounded Rounding.exact_rnd sum (weighted.nonneg c)]
    have : 0 < ⌊(s.heap.eqClass c).weight⌋₊ := Nat.floor_pos.mpr whole
    omega

theorem class_weighs_iff_bears_twins :
    ∃ s, Propagation.Reached (.counting 10) (.ofEntries twins) 0 twinSums s ∧
      (s.heap.eqClass 1).nodes = [3] ∧ (s.heap.eqClass 1).weight = 0 := by
  have after : Propagation.AfterTurns (.counting 10) twins twinSums 1 fun s =>
      (s.heap.eqClass 1).nodes = [3] := by
    decide +kernel
  obtain ⟨s, reached, members⟩ := after.reached
  have weighs : (Env.counting 10).Weighs (Heap.ofEntries twins).layout :=
    ⟨rfl, Or.inl rfl, by decide⟩
  obtain ⟨-, zero, -⟩ := class_weighs_iff_bears twins_fresh twins_holds weighs reached 1
  have silent : ¬ (Heap.ofEntries twins).layout.Bears 3 := Heap.not_bears_emptyDir ⟨rfl, rfl⟩
  exact ⟨s, reached, members, zero.mpr (by simpa [members] using silent)⟩

end Dupa
