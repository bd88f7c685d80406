import Mathlib.Algebra.BigOperators.Ring.Finset
import Dupa.Exact
import Dupa.Turns

/-!
# `NodeDistance`

Under exact arithmetic the distance is a pseudometric of the sets of child classes,
whatever their weights (`nodeDistance_metrical`). It is the documented metric where the
weights are whole numbers (`nodeDistance_whole`), but not where averaging has left a
fraction in either what is shared or what is not (`truncated_difference`,
`truncated_overlap`).
-/

namespace Dupa

open scoped symmDiff

namespace Heap

variable {E : Env} {h : Heap} {a b : NodeId}

/-- What `NodeDistance` does on directories whose children are all evaluated. -/
structure Metrical (E : Env) (h : Heap) : Prop where
  returns : ∀ {a b}, h.Comparable a → h.Comparable b →
    ∃ d, h.nodeDistance E a b = .ok d ∧ 0 ≤ d ∧ d ≤ 1
  self : ∀ {a}, h.Comparable a → h.nodeDistance E a a = .ok 0
  comm : ∀ {a b}, h.Comparable a → h.Comparable b → h.nodeDistance E a b = h.nodeDistance E b a
  triangle : ∀ {a b c x y z}, h.Comparable a → h.Comparable b → h.Comparable c →
    h.nodeDistance E a b = .ok x → h.nodeDistance E b c = .ok y → h.nodeDistance E a c = .ok z →
    z ≤ x + y
  /-- Only the sets of child classes matter, and what their classes weigh. -/
  sets : ∀ (E' : Env) (h' : Heap) {a b a' b'}, E'.rounding = .exact →
    (∀ c, (h'.eqClass c).weight = (h.eqClass c).weight) →
    h.Comparable a → h.Comparable b → h'.Comparable a' → h'.Comparable b' →
    h'.childSet a' = h.childSet a → h'.childSet b' = h.childSet b →
    h'.nodeDistance E' a' b' = h.nodeDistance E a b
  apart : ∀ {a b}, h.Comparable a → h.Comparable b → Disjoint (h.childSet a) (h.childSet b) →
    (∃ c ∈ h.childSet a ∪ h.childSet b, 1 ≤ (h.eqClass c).weight) →
    h.nodeDistance E a b = .ok 1

section
variable (exact : E.rounding = .exact) (hw : ∀ c, 0 ≤ (h.eqClass c).weight)
include exact hw

theorem nodeDistance_exact (ha : h.Comparable a) (hb : h.Comparable b) :
    h.nodeDistance E a b = .ok (Jaccard.dist h.floorWeight (h.childSet a) (h.childSet b)) := by
  have fits : h.Fits E a b := fits_of_unlimited (by rw [exact]; rfl) hw
  rw [nodeDistance_eq hw ha hb.ready hb.children fits, distance_exact exact hw]

end

end Heap

namespace Heap

variable {E : Env} {h : Heap} {a b : NodeId}

/-! ## The documented metric -/

/-- What the classes of the children of `a` weigh together. -/
def total (h : Heap) (a : NodeId) : ℚ := ∑ c ∈ h.childSet a, (h.eqClass c).weight

/-- The sum of the weights of the symmetric difference over that of the union. -/
def metric (h : Heap) (a b : NodeId) : ℚ :=
  (∑ c ∈ h.childSet a ∆ h.childSet b, (h.eqClass c).weight) /
    ∑ c ∈ h.childSet a ∪ h.childSet b, (h.eqClass c).weight

theorem union_ne_zero (hw : ∀ c, 0 ≤ (h.eqClass c).weight)
    (heavy : ¬(h.total a = 0 ∧ h.total b = 0)) :
    ∑ c ∈ h.childSet a ∪ h.childSet b, (h.eqClass c).weight ≠ 0 := by
  intro zero
  have each := (Finset.sum_eq_zero_iff_of_nonneg fun c _ => hw c).mp zero
  exact heavy ⟨Finset.sum_eq_zero fun c hc => each c (Finset.mem_union_left _ hc),
    Finset.sum_eq_zero fun c hc => each c (Finset.mem_union_right _ hc)⟩

/-- The weights that are added up are those of the union. -/
theorem sum_unionWeights :
    (h.unionWeights E a b).sum = ∑ c ∈ h.childSet a ∪ h.childSet b, (h.eqClass c).weight := by
  have only : ((h.classList b).filter (· ∉ h.classList a)).toFinset =
      h.childSet b \ h.childSet a := by
    ext c
    simp [childSet]
  rw [unionWeights, List.map_append, List.sum_append, HashOrder.sum_visit, HashOrder.sum_visit, only]
  change ∑ c ∈ h.childSet a, _ + _ = _
  rw [← Finset.sum_union Finset.disjoint_sdiff, Finset.union_sdiff_self_eq_union]

theorem fits_of_unrounded (unrounded : ∀ x, E.rounding.rnd x = x)
    (hw : ∀ c, 0 ≤ (h.eqClass c).weight)
    (below : ∀ limit ∈ E.rounding.range,
      ∑ c ∈ h.childSet a ∪ h.childSet b, (h.eqClass c).weight < limit) : h.Fits E a b := by
  apply Rounding.addsUp_of_unrounded unrounded
  · intro weight mem
    obtain ⟨c, -, rfl⟩ := List.mem_map.mp mem
    exact hw c
  · simpa [sum_unionWeights] using below

/-- The weight of the class is a whole number. -/
def IsWhole (h : Heap) (c : ClassId) : Prop := ∃ k : ℕ, (h.eqClass c).weight = k

/-- Whole weights are not truncated. -/
theorem total_floor {S : Finset ClassId} (whole : ∀ c ∈ S, h.IsWhole c) :
    (Jaccard.total h.floorWeight S : ℚ) = ∑ c ∈ S, (h.eqClass c).weight := by
  rw [Jaccard.total, Nat.cast_sum]
  apply Finset.sum_congr rfl
  intro c hc
  obtain ⟨k, hk⟩ := whole c hc
  rw [floorWeight, hk, Nat.floor_natCast]

theorem total_floor_lt (hw : ∀ c, 0 ≤ (h.eqClass c).weight) {S : Finset ClassId} {c : ClassId}
    (hc : c ∈ S) (fraction : ¬ h.IsWhole c) :
    (Jaccard.total h.floorWeight S : ℚ) < ∑ c ∈ S, (h.eqClass c).weight := by
  rw [Jaccard.total, Nat.cast_sum]
  refine Finset.sum_lt_sum (fun d _ => Nat.floor_le (hw d)) ⟨c, hc, ?_⟩
  exact lt_of_le_of_ne (Nat.floor_le (hw c)) fun same => fraction ⟨_, same.symm⟩

theorem dist_eq_metric (hw : ∀ c, 0 ≤ (h.eqClass c).weight)
    (heavy : ¬(h.total a = 0 ∧ h.total b = 0))
    (whole : ∀ c ∈ h.childSet a ∪ h.childSet b, h.IsWhole c) :
    Jaccard.dist h.floorWeight (h.childSet a) (h.childSet b) = h.metric a b := by
  have union := total_floor whole
  have difference := total_floor fun c hc => whole c (Finset.symmDiff_subset_union hc)
  have positive : Jaccard.total h.floorWeight (h.childSet a ∪ h.childSet b) ≠ 0 := by
    intro zero
    rw [zero, Nat.cast_zero] at union
    exact union_ne_zero hw heavy union.symm
  rw [Jaccard.dist, if_neg positive, metric, union, difference]

/-! ## Where it is another number -/

/-- What the classes weigh that both nodes have. -/
theorem symmDiff_add_inter : ∑ c ∈ h.childSet a ∆ h.childSet b, (h.eqClass c).weight +
      ∑ c ∈ h.childSet a ∩ h.childSet b, (h.eqClass c).weight =
    ∑ c ∈ h.childSet a ∪ h.childSet b, (h.eqClass c).weight := by
  have apart : Disjoint (h.childSet a ∆ h.childSet b) (h.childSet a ∩ h.childSet b) := by
    rw [Finset.disjoint_left]
    intro k hk hk'
    rw [Finset.mem_symmDiff] at hk
    rw [Finset.mem_inter] at hk'
    tauto
  rw [← Finset.sum_union apart]
  congr 1
  ext k
  simp only [Finset.mem_union, Finset.mem_symmDiff, Finset.mem_inter]
  tauto

theorem floor_symmDiff_add_inter :
    (Jaccard.total h.floorWeight (h.childSet a ∆ h.childSet b) : ℚ) +
      Jaccard.total h.floorWeight (h.childSet a ∩ h.childSet b) =
        Jaccard.total h.floorWeight (h.childSet a ∪ h.childSet b) := by
  exact_mod_cast Jaccard.total_symmDiff_add_inter

/-- A fraction in what differs makes the distance too small, if what is shared is whole. -/
theorem truncated_difference (hw : ∀ c, 0 ≤ (h.eqClass c).weight)
    (whole : ∀ c ∈ h.childSet a ∩ h.childSet b, h.IsWhole c)
    (shared : 0 < ∑ c ∈ h.childSet a ∩ h.childSet b, (h.eqClass c).weight) {c : ClassId}
    (hc : c ∈ h.childSet a ∆ h.childSet b) (fraction : ¬ h.IsWhole c) :
    Jaccard.dist h.floorWeight (h.childSet a) (h.childSet b) < h.metric a b := by
  have less := total_floor_lt hw hc fraction
  have same := total_floor whole
  have weights := h.symmDiff_add_inter (a := a) (b := b)
  have floors := h.floor_symmDiff_add_inter (a := a) (b := b)
  have positive : (0 : ℚ) < Jaccard.total h.floorWeight (h.childSet a ∪ h.childSet b) := by
    have : (0 : ℚ) ≤ Jaccard.total h.floorWeight (h.childSet a ∆ h.childSet b) := Nat.cast_nonneg _
    linarith
  rw [Jaccard.dist, if_neg (by exact_mod_cast positive.ne'), metric,
    div_lt_div_iff₀ positive (by linarith), ← weights, ← floors, same]
  nlinarith

/-- A fraction in what is shared makes it too large, if what differs is whole. -/
theorem truncated_overlap (hw : ∀ c, 0 ≤ (h.eqClass c).weight)
    (whole : ∀ c ∈ h.childSet a ∆ h.childSet b, h.IsWhole c)
    (differs : 0 < ∑ c ∈ h.childSet a ∆ h.childSet b, (h.eqClass c).weight) {c : ClassId}
    (hc : c ∈ h.childSet a ∩ h.childSet b) (fraction : ¬ h.IsWhole c) :
    h.metric a b < Jaccard.dist h.floorWeight (h.childSet a) (h.childSet b) := by
  have less := total_floor_lt hw hc fraction
  have same := total_floor whole
  have weights := h.symmDiff_add_inter (a := a) (b := b)
  have floors := h.floor_symmDiff_add_inter (a := a) (b := b)
  have rest : (0 : ℚ) ≤ Jaccard.total h.floorWeight (h.childSet a ∩ h.childSet b) := Nat.cast_nonneg _
  have positive : (0 : ℚ) < Jaccard.total h.floorWeight (h.childSet a ∪ h.childSet b) := by linarith
  rw [Jaccard.dist, if_neg (by exact_mod_cast positive.ne'), metric,
    div_lt_div_iff₀ (by linarith) positive, ← weights, ← floors, same]
  nlinarith

end Heap

/-- In every state of `PropagateEquivalence`, `NodeDistance` returns the documented metric of
directories whose child classes have whole weights, if these stay in range together. It does
not if there is a fraction in just one of what they share and what they do not. -/
theorem nodeDistance_whole {E : Env} {cksum : NodeId → Cksum} {h : Heap} {root : NodeId}
    {sum2Node : Sum2Node} {s : Propagation} (fresh : h.Fresh root)
    (holds : sum2Node.Holds h.layout cksum) (sized : E.Sized h.layout)
    (unrounded : ∀ x, E.rounding.rnd x = x) (reached : Propagation.Reached E h root sum2Node s) :
    ∀ a b, (h.node a).type = .dir → (h.node b).type = .dir → s.heap.ChildrenEvaluated a →
      s.heap.ChildrenEvaluated b → ¬(s.heap.total a = 0 ∧ s.heap.total b = 0) →
      (∀ limit ∈ E.rounding.range,
        ∑ c ∈ s.heap.childSet a ∪ s.heap.childSet b, (s.heap.eqClass c).weight < limit) →
      ((∀ c ∈ s.heap.childSet a ∪ s.heap.childSet b, s.heap.IsWhole c) →
        s.heap.nodeDistance E a b = .ok (s.heap.metric a b)) ∧
      (0 < ∑ c ∈ s.heap.childSet a ∆ s.heap.childSet b, (s.heap.eqClass c).weight →
        0 < ∑ c ∈ s.heap.childSet a ∩ s.heap.childSet b, (s.heap.eqClass c).weight →
        ((∀ c ∈ s.heap.childSet a ∆ s.heap.childSet b, s.heap.IsWhole c) ↔
          ¬ ∀ c ∈ s.heap.childSet a ∩ s.heap.childSet b, s.heap.IsWhole c) →
        s.heap.nodeDistance E a b ≠ .ok (s.heap.metric a b)) := by
  intro a b adir bdir ha hb heavy below
  obtain ⟨moves, sound⟩ := reached.moves fresh holds
  have hw := moves.nonneg sized fresh.nonneg
  have type : (s.heap.node a).type = .dir := Heap.type_of_layout moves.layout a ▸ adir
  rw [Heap.nodeDistance_ok sound.consistent hw ha hb type (Heap.fits_of_unrounded unrounded hw below),
    Heap.distance_unrounded unrounded hw]
  constructor
  · intro whole
    rw [Heap.dist_eq_metric hw heavy whole]
  · intro differs shared one same
    by_cases whole : ∀ c ∈ s.heap.childSet a ∆ s.heap.childSet b, s.heap.IsWhole c
    · have fraction := one.mp whole
      push Not at fraction
      obtain ⟨c, hc, fraction⟩ := fraction
      exact ne_of_gt (Heap.truncated_overlap hw whole differs hc fraction) (Except.ok.inj same)
    · have whole' := not_not.mp fun fraction => whole (one.mpr fraction)
      push Not at whole
      obtain ⟨c, hc, fraction⟩ := whole
      exact ne_of_lt (Heap.truncated_difference hw whole' shared hc fraction) (Except.ok.inj same)

theorem nodeDistance_whole_twins :
    ∃ s, Propagation.Reached (.counting 10) (.ofEntries twins) 0 twinSums s ∧
      s.heap.nodeDistance (.counting 10) 1 2 = .ok (s.heap.metric 1 2) := by
  have after : Propagation.AfterTurns (.counting 10) twins twinSums 1 fun s =>
      s.heap.IsReadyToEvaluate 1 ∧ s.heap.IsReadyToEvaluate 2 ∧ s.heap.total 1 ≠ 0 ∧
        ∀ c ∈ s.heap.childSet 1 ∪ s.heap.childSet 2, (s.heap.eqClass c).weight = (1 : ℕ) := by
    decide +kernel
  obtain ⟨s, reached, ready1, ready2, heavy, whole⟩ := after.reached
  obtain ⟨-, sound⟩ := reached.moves twins_fresh twins_holds
  obtain ⟨equal, -⟩ := nodeDistance_whole twins_fresh twins_holds (Env.counting_sized 10 _)
    (fun _ => rfl) reached 1 2 rfl rfl (sound.consistent.ready_iff.mp ready1)
    (sound.consistent.ready_iff.mp ready2) (fun none => heavy none.1) (by simp [Env.counting])
  exact ⟨s, reached, equal fun c hc => ⟨1, whole c hc⟩⟩

/-- A class that weighs 5.5 counts as 5. -/
theorem truncated_distance :
    ¬∀ (E : Env) (cksum : NodeId → Cksum) (h : Heap) (root : NodeId) (sum2Node : Sum2Node)
      (s : Propagation), h.Fresh root → sum2Node.Holds h.layout cksum → E.rounding = .exact →
      Propagation.Reached E h root sum2Node s →
      ∀ a b, (h.node a).type = .dir → (h.node b).type = .dir → s.heap.ChildrenEvaluated a →
        s.heap.ChildrenEvaluated b → ¬(s.heap.total a = 0 ∧ s.heap.total b = 0) →
        s.heap.nodeDistance E a b = .ok (s.heap.metric a b) := by
  intro claim
  have after : Propagation.AfterTurns (.sizing 50) nested nestedSums 2 fun s =>
      (s.heap.IsReadyToEvaluate 2 ∧ s.heap.IsReadyToEvaluate 1 ∧ s.heap.total 2 ≠ 0) ∧
        s.heap.nodeDistance (.sizing 50) 2 1 = .ok (5 / 12) ∧ s.heap.metric 2 1 = 11 / 25 := by
    decide +kernel
  obtain ⟨s, reached, ⟨ready2, ready1, heavy⟩, returned, metric⟩ := after.reached
  obtain ⟨-, sound⟩ := reached.moves nested_fresh nested_holds
  have equal := claim _ _ _ _ _ s nested_fresh nested_holds rfl reached 2 1 rfl rfl
    (sound.consistent.ready_iff.mp ready2) (sound.consistent.ready_iff.mp ready1)
    fun none => heavy none.1
  rw [returned, metric] at equal
  exact absurd (Except.ok.inj equal) (by norm_num)

end Dupa
