import Mathlib.Algebra.BigOperators.Group.Finset.Piecewise
import Dupa.Library.Jaccard
import Dupa.Moves

/-!
# Exact arithmetic

Without rounding, a directory weighs the sum of the weights of the different
classes of its children (`ownWeight_dir`), adding a node to a class takes the
mean (`newMean_exact`), and `NodeDistance` is the Jaccard distance of the two
sets of child classes under the truncated class weights (`distance_exact`).
-/

namespace Dupa

open scoped symmDiff

variable {M : Type} [AddCommMonoid M]

theorem HashOrder.sum_visit (order : HashOrder) (keys : List Nat) (f : Nat → M) :
    ((order.visit keys).map f).sum = ∑ key ∈ keys.toFinset, f key := by
  rw [← List.sum_toFinset f (order.nodup keys)]
  congr 1
  ext key
  simp [order.mem]

theorem foldl_add_eq_sum (f : Nat → M) (l : List Nat) (start : M) :
    l.foldl (fun sum key => sum + f key) start = start + (l.map f).sum := by
  induction l generalizing start with
  | nil => simp
  | cons key l ih => rw [List.foldl_cons, ih, List.map_cons, List.sum_cons, add_assoc]

theorem Env.tolerance_exact {E : Env} (exact : E.rounding = .exact) :
    E.tolerance = E.tolerableDiffPct / 100 := by
  simp [Env.tolerance, exact]

namespace Heap

/-- The classes of the children of `n`. -/
def childSet (h : Heap) (n : NodeId) : Finset ClassId := (h.classList n).toFinset

/-- A class weight as `NodeDistance` adds it to an integer sum. -/
def floorWeight (h : Heap) (c : ClassId) : ℕ := ⌊(h.eqClass c).weight⌋₊

variable {E : Env} {h : Heap} {n m : NodeId} {c : ClassId}

theorem mem_childSet : c ∈ h.childSet n ↔ ∃ x ∈ (h.node n).children, (h.node x).eqClass = some c := by
  rw [childSet, List.mem_toFinset, mem_classList]

theorem newMean_exact (count : ℕ) (old added : ℚ) :
    newMean .exact count old added = (old * count + added) / (count + 1) := by
  simp [newMean]

section
variable (exact : E.rounding = .exact)
include exact

theorem ownWeight_file (file : (h.node n).type = .file) :
    h.ownWeight E n = if E.useSize then ((h.node n).size : ℚ) else 1 := by
  simp [ownWeight, file, exact]

theorem ownWeight_dir (dir : (h.node n).type = .dir) :
    h.ownWeight E n = ∑ c ∈ h.childSet n, (h.eqClass c).weight := by
  simp only [ownWeight, dir, exact, Rounding.exact_rnd]
  rw [foldl_add_eq_sum (fun c => (h.eqClass c).weight), HashOrder.sum_visit, zero_add]
  rfl

end

/-! ## Sums that are not rounded -/

section
variable (unrounded : ∀ x, E.rounding.rnd x = x)
include unrounded

theorem foldl_sumClass (hw : ∀ c, 0 ≤ (h.eqClass c).weight) (shared : ClassId → Bool)
    (l : List ClassId) (s : ℕ × ℕ) :
    l.foldl (h.sumClass E shared) s = (s.1 + (l.map h.floorWeight).sum,
      s.2 + (l.map fun c => if shared c then 0 else h.floorWeight c).sum) := by
  induction l generalizing s with
  | nil => simp
  | cons c l ih =>
    have add (sum : ℕ) : E.rounding.add sum (h.eqClass c).weight = sum + h.floorWeight c := by
      rw [Rounding.add_unrounded unrounded sum (hw c), floorWeight]
    rw [List.foldl_cons, ih]
    simp only [sumClass, add, List.map_cons, List.sum_cons]
    split <;> simp [Nat.add_assoc]

/-- The sums are the weights of the union and of the symmetric difference. -/
theorem sums_unrounded (hw : ∀ c, 0 ≤ (h.eqClass c).weight) :
    h.sums E n m = (Jaccard.total h.floorWeight (h.childSet n ∪ h.childSet m),
      Jaccard.total h.floorWeight (h.childSet n ∆ h.childSet m)) := by
  have only : ((h.classList m).filter (· ∉ h.classList n)).toFinset =
      h.childSet m \ h.childSet n := by
    ext c
    simp [childSet]
  unfold sums
  rw [foldl_sumClass unrounded hw, foldl_sumClass unrounded hw]
  simp only [HashOrder.sum_visit, Nat.zero_add, Bool.false_eq_true, ite_false, only]
  change (Jaccard.total _ (h.childSet n) + Jaccard.total _ (h.childSet m \ h.childSet n),
    _ + Jaccard.total _ (h.childSet m \ h.childSet n)) = _
  congr 1
  · unfold Jaccard.total
    rw [← Finset.sum_union Finset.disjoint_sdiff, Finset.union_sdiff_self_eq_union]
  · have alone : ∑ c ∈ (h.classList n).toFinset, (if (decide (c ∈ h.classList m)) = true then 0
        else h.floorWeight c) = Jaccard.total h.floorWeight (h.childSet n \ h.childSet m) := by
      rw [Finset.sum_ite, Finset.sum_const_zero, Nat.zero_add]
      unfold Jaccard.total
      congr 1
      ext c
      simp [childSet]
    rw [alone]
    unfold Jaccard.total
    rw [← Finset.sum_union disjoint_sdiff_sdiff]
    rfl

theorem distance_unrounded (hw : ∀ c, 0 ≤ (h.eqClass c).weight) :
    h.distance E n m = Jaccard.dist h.floorWeight (h.childSet n) (h.childSet m) := by
  unfold distance Jaccard.dist
  rw [sums_unrounded unrounded hw]
  simp [unrounded]

end

theorem distance_exact (exact : E.rounding = .exact) (hw : ∀ c, 0 ≤ (h.eqClass c).weight) :
    h.distance E n m = Jaccard.dist h.floorWeight (h.childSet n) (h.childSet m) :=
  distance_unrounded (fun x => by rw [exact, Rounding.exact_rnd]) hw

end Heap

end Dupa
