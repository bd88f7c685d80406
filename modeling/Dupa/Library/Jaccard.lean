import Mathlib.Algebra.BigOperators.Group.Finset.Basic
import Mathlib.Algebra.Order.BigOperators.Group.Finset
import Mathlib.Algebra.Order.Field.Rat
import Mathlib.Data.Finset.SymmDiff
import Mathlib.Tactic.FieldSimp
import Mathlib.Tactic.Linarith
import Mathlib.Tactic.Positivity

/-!
# Weighted Jaccard distance

Items carry natural weights, and the distance of two finite sets of them is the
weight of the symmetric difference over the weight of the union. A union of
weight zero counts as distance zero.

* `dist_eq_zero_iff`: distance zero means the same items of positive weight;
* `dist_congr`: relabelling the items that weigh something changes nothing;
* `dist_triangle`: the triangle inequality, unions of weight zero included.
-/

namespace Jaccard

open scoped symmDiff

variable {κ : Type*} {w : κ → ℕ} {S T U : Finset κ}

/-- The total weight of a finite set of items. -/
def total (w : κ → ℕ) (S : Finset κ) : ℕ := ∑ k ∈ S, w k

theorem total_eq_zero : total w S = 0 ↔ ∀ k ∈ S, w k = 0 := Finset.sum_eq_zero_iff

theorem total_pos : 0 < total w S ↔ ∃ k ∈ S, 0 < w k := by
  rw [Nat.pos_iff_ne_zero, Ne, total_eq_zero]
  push Not
  simp only [Nat.pos_iff_ne_zero]

theorem total_mono (h : S ⊆ T) : total w S ≤ total w T :=
  Finset.sum_le_sum_of_subset h

/-- Weightless items do not count. -/
theorem total_positive : total w (S.filter fun k => 0 < w k) = total w S :=
  Finset.sum_filter_of_ne fun _ _ heavy => Nat.pos_of_ne_zero heavy

variable [DecidableEq κ]

def dist (w : κ → ℕ) (S T : Finset κ) : ℚ :=
  if total w (S ∪ T) = 0 then 0 else (total w (S ∆ T) : ℚ) / total w (S ∪ T)

theorem total_symmDiff_le : total w (S ∆ T) ≤ total w (S ∪ T) :=
  total_mono Finset.symmDiff_subset_union

/-- The union splits into the symmetric difference and the intersection. -/
theorem total_symmDiff_add_inter :
    total w (S ∆ T) + total w (S ∩ T) = total w (S ∪ T) := by
  have apart : Disjoint (S ∆ T) (S ∩ T) := by
    rw [Finset.disjoint_left]
    intro k hk hk'
    rw [Finset.mem_symmDiff] at hk
    rw [Finset.mem_inter] at hk'
    tauto
  have whole : S ∆ T ∪ S ∩ T = S ∪ T := by
    ext k
    simp only [Finset.mem_union, Finset.mem_symmDiff, Finset.mem_inter]
    tauto
  rw [← whole, total, total, total, Finset.sum_union apart]

theorem dist_nonneg : 0 ≤ dist w S T := by
  unfold dist
  split
  · exact le_refl _
  · positivity

theorem dist_le_one : dist w S T ≤ 1 := by
  unfold dist
  split
  · exact zero_le_one
  · rename_i h
    have : (0 : ℚ) < total w (S ∪ T) := by exact_mod_cast Nat.pos_of_ne_zero h
    rw [div_le_one this]
    exact_mod_cast total_symmDiff_le

theorem dist_self : dist w S S = 0 := by
  unfold dist
  split
  · rfl
  · rw [symmDiff_self]
    simp [total]

theorem dist_comm : dist w S T = dist w T S := by
  unfold dist
  rw [Finset.union_comm, symmDiff_comm]

/-- Distance zero means the same items of positive weight. -/
theorem dist_eq_zero_iff : dist w S T = 0 ↔ ∀ k, 0 < w k → (k ∈ S ↔ k ∈ T) := by
  have apart : dist w S T = 0 ↔ total w (S ∆ T) = 0 := by
    unfold dist
    split
    · rename_i h
      exact ⟨fun _ => Nat.le_zero.mp (h ▸ total_symmDiff_le), fun _ => rfl⟩
    · rename_i h
      have : (total w (S ∪ T) : ℚ) ≠ 0 := by exact_mod_cast h
      rw [div_eq_zero_iff]
      simp [this]
  rw [apart, total_eq_zero]
  simp only [Finset.mem_symmDiff]
  constructor
  · intro h k hk
    by_contra hne
    have := h k (by tauto)
    omega
  · intro h k hk
    by_contra hne
    have := h k (Nat.pos_of_ne_zero hne)
    tauto

theorem dist_eq_one_of_apart (h : ∀ k ∈ S, k ∈ T → w k = 0) (hpos : 0 < total w S) :
    dist w S T = 1 := by
  have none_shared : total w (S ∩ T) = 0 := by
    rw [total_eq_zero]
    intro k hk
    rw [Finset.mem_inter] at hk
    exact h k hk.1 hk.2
  have some_weight : 0 < total w (S ∪ T) :=
    Nat.lt_of_lt_of_le hpos (total_mono Finset.subset_union_left)
  have eq : total w (S ∆ T) = total w (S ∪ T) := by
    rw [← total_symmDiff_add_inter, none_shared, Nat.add_zero]
  unfold dist
  rw [if_neg (by omega), eq, div_self]
  exact_mod_cast Nat.ne_of_gt some_weight

/-- The positive items of `S`, `T` and of `S'`, `T'` correspond by `φ`. -/
theorem dist_congr {ν : Type*} [DecidableEq ν] {w' : ν → ℕ} {S' T' : Finset ν} (φ : κ → ν)
    (inj : ∀ k ∈ S ∪ T, ∀ l ∈ S ∪ T, 0 < w k → 0 < w l → φ k = φ l → k = l)
    (weight : ∀ k ∈ S ∪ T, 0 < w k → w' (φ k) = w k)
    (hS : ∀ j, j ∈ S' ∧ 0 < w' j ↔ ∃ k ∈ S, 0 < w k ∧ φ k = j)
    (hT : ∀ j, j ∈ T' ∧ 0 < w' j ↔ ∃ k ∈ T, 0 < w k ∧ φ k = j) :
    dist w' S' T' = dist w S T := by
  have sum : ∀ {A : Finset κ} {A' : Finset ν}, A ⊆ S ∪ T →
      (∀ j, j ∈ A' ∧ 0 < w' j ↔ ∃ k ∈ A, 0 < w k ∧ φ k = j) → total w' A' = total w A := by
    intro A A' sub hA
    have image : A'.filter (fun j => 0 < w' j) = (A.filter fun k => 0 < w k).image φ := by
      ext j
      simp only [Finset.mem_filter, Finset.mem_image, hA, and_assoc]
    rw [← total_positive, image, ← total_positive (S := A), total, total, Finset.sum_image]
    · exact Finset.sum_congr rfl fun k hk =>
        weight k (sub (Finset.mem_filter.mp hk).1) (Finset.mem_filter.mp hk).2
    · intro k hk l hl
      rw [Finset.coe_filter] at hk hl
      exact inj k (sub hk.1) l (sub hl.1) hk.2 hl.2
  have union : total w' (S' ∪ T') = total w (S ∪ T) := by
    apply sum subset_rfl
    intro j
    simp only [Finset.mem_union, or_and_right, hS, hT, exists_or]
  have diff : total w' (S' ∆ T') = total w (S ∆ T) := by
    apply sum Finset.symmDiff_subset_union
    intro j
    constructor
    · rintro ⟨hj, heavy⟩
      rcases Finset.mem_symmDiff.mp hj with ⟨hs, ht⟩ | ⟨ht, hs⟩
      · obtain ⟨k, hk, hw, rfl⟩ := (hS j).mp ⟨hs, heavy⟩
        refine ⟨k, Finset.mem_symmDiff.mpr (Or.inl ⟨hk, fun hkT => ht ?_⟩), hw, rfl⟩
        exact ((hT _).mpr ⟨k, hkT, hw, rfl⟩).1
      · obtain ⟨k, hk, hw, rfl⟩ := (hT j).mp ⟨ht, heavy⟩
        refine ⟨k, Finset.mem_symmDiff.mpr (Or.inr ⟨hk, fun hkS => hs ?_⟩), hw, rfl⟩
        exact ((hS _).mpr ⟨k, hkS, hw, rfl⟩).1
    · rintro ⟨k, hk, hw, rfl⟩
      have apart : ∀ {A : Finset κ} {A' : Finset ν}, A ⊆ S ∪ T →
          (∀ j, j ∈ A' ∧ 0 < w' j ↔ ∃ k ∈ A, 0 < w k ∧ φ k = j) → k ∉ A → φ k ∉ A' := by
        intro A A' sub hA hkA hmem
        have hkU := Finset.symmDiff_subset_union hk
        obtain ⟨l, hl, hlw, same⟩ := (hA _).mp ⟨hmem, (weight k hkU hw).symm ▸ hw⟩
        exact hkA (inj k hkU l (sub hl) hw hlw same.symm ▸ hl)
      rcases Finset.mem_symmDiff.mp hk with ⟨hs, ht⟩ | ⟨ht, hs⟩
      · obtain ⟨hs', heavy⟩ := (hS _).mpr ⟨k, hs, hw, rfl⟩
        exact ⟨Finset.mem_symmDiff.mpr (Or.inl ⟨hs', apart Finset.subset_union_right hT ht⟩), heavy⟩
      · obtain ⟨ht', heavy⟩ := (hT _).mpr ⟨k, ht, hw, rfl⟩
        exact ⟨Finset.mem_symmDiff.mpr (Or.inr ⟨ht', apart Finset.subset_union_left hS hs⟩), heavy⟩
  unfold dist
  rw [union, diff]

/-! ## The triangle inequality -/

theorem total_union_add_inter : total w (S ∪ T) + total w (S ∩ T) = total w S + total w T :=
  Finset.sum_union_inter

/-- The distance in terms of the three weights that are metric. -/
theorem dist_eq_ratio : dist w S T =
    2 * (total w (S ∆ T) : ℚ) / (total w S + total w T + total w (S ∆ T)) := by
  have halves : (total w S + total w T + total w (S ∆ T) : ℚ) = 2 * total w (S ∪ T) := by
    have sum := total_union_add_inter (w := w) (S := S) (T := T)
    have split := total_symmDiff_add_inter (w := w) (S := S) (T := T)
    exact_mod_cast (by omega : total w S + total w T + total w (S ∆ T) = 2 * total w (S ∪ T))
  rw [halves, mul_div_mul_left _ _ two_ne_zero, dist]
  split
  · rename_i none
    simp [none]
  · rfl

/-- What is in one of `S` and `U` only is in one of `S` and `T` only or in one of `T`
and `U` only. -/
theorem total_symmDiff_triangle :
    total w (S ∆ U) ≤ total w (S ∆ T) + total w (T ∆ U) := by
  have covered : S ∆ U ⊆ S ∆ T ∪ T ∆ U := by
    intro k hk
    simp only [Finset.mem_union, Finset.mem_symmDiff] at hk ⊢
    tauto
  calc total w (S ∆ U) ≤ total w (S ∆ T ∪ T ∆ U) := total_mono covered
    _ ≤ total w (S ∆ T ∪ T ∆ U) + total w (S ∆ T ∩ T ∆ U) := Nat.le_add_right _ _
    _ = total w (S ∆ T) + total w (T ∆ U) := total_union_add_inter

theorem total_le_add_symmDiff : total w T ≤ total w U + total w (T ∆ U) := by
  have covered : T ⊆ U ∪ T ∆ U := by
    intro k hk
    simp only [Finset.mem_union, Finset.mem_symmDiff]
    tauto
  calc total w T ≤ total w (U ∪ T ∆ U) := total_mono covered
    _ ≤ total w (U ∪ T ∆ U) + total w (U ∩ T ∆ U) := Nat.le_add_right _ _
    _ = total w U + total w (T ∆ U) := total_union_add_inter

/-- A part over a whole does not shrink with the whole. -/
theorem div_le_of_whole_le {x a b : ℚ} (hx : 0 ≤ x) (part : x ≤ a) (whole : a ≤ b) :
    x / b ≤ x / a := by
  rcases hx.eq_or_lt with rfl | positive
  · simp
  · exact div_le_div_of_nonneg_left hx (by linarith) whole

/-- A part grows relative to what it is a part of. -/
theorem div_add_le_div_add {a z v : ℚ} (ha : 0 ≤ a) (hz : 0 ≤ z) (le : z ≤ v) :
    z / (a + z) ≤ v / (a + v) := by
  rcases hz.eq_or_lt with rfl | positive
  · rw [zero_div]
    positivity
  · rw [div_le_div_iff₀ (by linarith) (by linarith)]
    nlinarith only [mul_le_mul_of_nonneg_left le ha]

theorem dist_triangle : dist w S U ≤ dist w S T + dist w T U := by
  have part : (total w (S ∆ U) : ℚ) ≤ total w (S ∆ T) + total w (T ∆ U) := by
    exact_mod_cast total_symmDiff_triangle
  have hT : (total w T : ℚ) ≤ total w U + total w (T ∆ U) := by
    exact_mod_cast total_le_add_symmDiff
  have hT' : (total w T : ℚ) ≤ total w S + total w (S ∆ T) := by
    rw [symmDiff_comm]
    exact_mod_cast total_le_add_symmDiff
  have nonneg : ∀ A : Finset κ, (0 : ℚ) ≤ total w A := fun A => Nat.cast_nonneg _
  have hS := nonneg S
  have hU := nonneg U
  have hx := nonneg (S ∆ T)
  have hy := nonneg (T ∆ U)
  have ht := nonneg T
  simp only [dist_eq_ratio, mul_div_assoc, ← mul_add]
  refine mul_le_mul_of_nonneg_left ?_ zero_le_two
  calc (total w (S ∆ U) : ℚ) / (total w S + total w U + total w (S ∆ U))
      ≤ (total w (S ∆ T) + total w (T ∆ U)) /
          (total w S + total w U + (total w (S ∆ T) + total w (T ∆ U))) :=
        div_add_le_div_add (add_nonneg hS hU) (nonneg _) part
    _ = total w (S ∆ T) / (total w S + total w U + (total w (S ∆ T) + total w (T ∆ U))) +
          total w (T ∆ U) / (total w S + total w U + (total w (S ∆ T) + total w (T ∆ U))) :=
        add_div ..
    _ ≤ total w (S ∆ T) / (total w S + total w T + total w (S ∆ T)) +
          total w (T ∆ U) / (total w T + total w U + total w (T ∆ U)) :=
        add_le_add (div_le_of_whole_le hx (by linarith) (by linarith))
          (div_le_of_whole_le hy (by linarith) (by linarith))

end Jaccard
