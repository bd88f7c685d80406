import Dupa.Exact
import Dupa.Uniqueness

/-!
# What the unique fractions are

On a classified tree whose files are together just when their checksums are equal, and
in exact arithmetic, `CalculateUniqueness` sets the fraction of a file by whether another
file has its checksum, and that of a directory to what the files with all their copies
below it weigh, out of what all files below it weigh.
-/

namespace Dupa

open Checked

/-- All files with the checksum of `file` are below `n`. -/
def Layout.Confined (L : Layout) (cksum : NodeId → Cksum) (n file : NodeId) : Prop :=
  ∀ m, L.IsFile m → cksum m = cksum file → Forest.Below L.children n m

open Classical in
noncomputable def Layout.filesBelow (L : Layout) (n : NodeId) : Finset NodeId :=
  (Finset.range L.size).filter fun file => L.FileBelow n file

namespace Heap

/-- The weight of the class of a node that has one. -/
def classWeight (h : Heap) (n : NodeId) : ℚ :=
  match (h.node n).eqClass with
  | some c => (h.eqClass c).weight
  | none => 0

/-- What the files below a node weigh. -/
noncomputable def weightBelow (h : Heap) (n : NodeId) : ℚ :=
  ∑ file ∈ h.layout.filesBelow n, h.classWeight file

open Classical in
/-- What the files below a node weigh that have no copy outside. -/
noncomputable def uniqueBelow (cksum : NodeId → Cksum) (h : Heap) (n : NodeId) : ℚ :=
  ∑ file ∈ (h.layout.filesBelow n).filter (h.layout.Confined cksum n), h.classWeight file

open Classical in
/-- The fraction of a directory in `double` arithmetic: the weights of the files below are
added up in the order in which they are visited, and so are those of the unique ones. -/
noncomputable def roundedFraction (E : Env) (cksum : NodeId → Cksum) (h : Heap) (n : NodeId) : ℚ :=
  let total := E.rounding.total ((h.descendants E n).map h.classWeight)
  let unique := E.rounding.total
    (((h.descendants E n).filter (h.layout.Confined cksum n ·)).map h.classWeight)
  if total = 0 then 0 else E.rounding.rnd (unique / total)

/-- Every node of the tree is in one class; files are together just when their checksums
are equal, and never with directories. -/
structure FullyClassified (cksum : NodeId → Cksum) (root : NodeId) (h : Heap)
    (eqClasses : List ClassId) : Prop extends h.Partitioned eqClasses where
  tree : h.layout.IsTree root
  together : ∀ a b, h.layout.IsFile a → h.layout.IsFile b →
    ((h.node a).eqClass = (h.node b).eqClass ↔ cksum a = cksum b)
  apart : ∀ a b, h.layout.IsFile a → h.layout.IsDir b → (h.node a).eqClass ≠ (h.node b).eqClass
  weight_nonneg : ∀ c, 0 ≤ (h.eqClass c).weight

variable {E : Env} {cksum : NodeId → Cksum} {root : NodeId} {h : Heap} {eqClasses : List ClassId}
  {n f c : Nat}

theorem mem_filesBelow : f ∈ h.layout.filesBelow n ↔ h.layout.FileBelow n f := by
  simp only [Layout.filesBelow, Finset.mem_filter, Finset.mem_range, and_iff_right_iff_imp]
  exact fun below => below.1.1

theorem isFile_or_isDir (hn : n < h.numNodes) : h.layout.IsFile n ∨ h.layout.IsDir n := by
  cases type : (h.node n).type with
  | file => exact Or.inl ⟨hn, type⟩
  | dir => exact Or.inr ⟨hn, type⟩

namespace FullyClassified

variable (full : h.FullyClassified cksum root eqClasses)
include full

/-- The class of a file holds the files with its checksum. -/
theorem mem_nodes (file : h.layout.IsFile f) (hc : (h.node f).eqClass = some c) (m : NodeId) :
    m ∈ (h.eqClass c).nodes ↔ h.layout.IsFile m ∧ cksum m = cksum f := by
  obtain ⟨d, listed, hd⟩ := full.classified f file.1
  obtain rfl : c = d := Option.some.inj (hc.symm.trans hd)
  rw [full.member c listed]
  constructor
  · rintro ⟨inside, hm⟩
    have same : (h.node m).eqClass = (h.node f).eqClass := hm.trans hc.symm
    rcases isFile_or_isDir inside with mfile | dir
    · exact ⟨mfile, (full.together m f mfile file).mp same⟩
    · exact absurd same.symm (full.apart f m file dir)
  · rintro ⟨mfile, same⟩
    exact ⟨mfile.1, ((full.together m f mfile file).mpr same).trans hc⟩

theorem isSingle_iff (file : h.layout.IsFile f) (hc : (h.node f).eqClass = some c) :
    h.IsSingle c ↔ ¬ ∃ m, m ≠ f ∧ h.layout.IsFile m ∧ cksum m = cksum f := by
  obtain ⟨d, listed, hd⟩ := full.classified f file.1
  obtain rfl : c = d := Option.some.inj (hc.symm.trans hd)
  have own : f ∈ (h.eqClass c).nodes := (full.mem_nodes file hc f).mpr ⟨file, rfl⟩
  rw [IsSingle, ← List.toFinset_card_of_nodup (full.nodes_nodup c listed), Finset.card_eq_one]
  constructor
  · rintro ⟨x, members⟩ ⟨m, other, copy⟩
    have only : ∀ y ∈ (h.eqClass c).nodes, y = x := fun y hy => by
      simpa [members] using List.mem_toFinset.mpr hy
    exact other ((only m ((full.mem_nodes file hc m).mpr copy)).trans (only f own).symm)
  · intro none
    refine ⟨f, Finset.eq_singleton_iff_unique_mem.mpr ⟨List.mem_toFinset.mpr own, ?_⟩⟩
    intro m hm
    by_contra other
    exact none ⟨m, other, (full.mem_nodes file hc m).mp (List.mem_toFinset.mp hm)⟩

theorem hasDuplicateElsewhere_ok {files : List NodeId}
    (mem : ∀ f, f ∈ files ↔ h.layout.FileBelow n f) (hf : h.layout.IsFile f) :
    ∃ dup, h.hasDuplicateElsewhere f files = .ok dup ∧
      (dup = false ↔ h.layout.Confined cksum n f) := by
  obtain ⟨c, -, hc⟩ := full.classified f hf.1
  refine ⟨_, by rw [hasDuplicateElsewhere, getEqClass_ok hc, ok_bind]; rfl, ?_⟩
  simp only [List.any_eq_false, decide_eq_true_eq, not_not, full.mem_nodes hf hc, mem,
    Layout.FileBelow]
  exact ⟨fun all m file same => (all m ⟨file, same⟩).2, fun all m copy =>
    ⟨copy.1, all m copy.1 copy.2⟩⟩

open Classical in
/-- One turn of the loop over the files below a directory. -/
theorem addDescendant_classified {files : List NodeId}
    (mem : ∀ f, f ∈ files ↔ h.layout.FileBelow n f) (hf : h.layout.IsFile f) (weights : ℚ × ℚ) :
    h.addDescendant E files weights f = .ok (E.rounding.rnd (weights.1 + h.classWeight f),
      if h.layout.Confined cksum n f then E.rounding.rnd (weights.2 + h.classWeight f)
      else weights.2) := by
  obtain ⟨c, -, hc⟩ := full.classified f hf.1
  obtain ⟨dup, hdup, confined⟩ := full.hasDuplicateElsewhere_ok mem hf
  have weight : h.classWeight f = (h.eqClass c).weight := by simp [classWeight, hc]
  rw [addDescendant, getWeight_evaluated hc, ok_bind, hdup, ok_bind, weight]
  cases dup with
  | true =>
    have : ¬ h.layout.Confined cksum n f := fun yes => by simpa using confined.mpr yes
    simp [this]
    rfl
  | false =>
    simp [confined.mp rfl]
    rfl

open Classical in
theorem foldlM_addDescendant {files : List NodeId}
    (mem : ∀ f, f ∈ files ↔ h.layout.FileBelow n f) {l : List NodeId}
    (hl : ∀ f ∈ l, h.layout.IsFile f) :
    l.foldlM (h.addDescendant E files) (0, 0) = .ok (E.rounding.total (l.map h.classWeight),
      E.rounding.total ((l.filter (h.layout.Confined cksum n ·)).map h.classWeight)) := by
  induction l using List.reverseRecOn with
  | nil => rfl
  | append_singleton l f ih =>
    rw [List.foldlM_append, ih fun g hg => hl g (List.mem_append_left _ hg), ok_bind,
      List.foldlM_cons, full.addDescendant_classified mem (hl f (by simp)), List.map_append,
      List.map_singleton, Rounding.total_snoc, List.filter_append]
    by_cases confined : h.layout.Confined cksum n f
    · simp [confined, Rounding.total_snoc, pure, Except.pure]
    · simp [confined, pure, Except.pure]

/-- The fraction comes of the rounded sums. -/
theorem uniqueFraction_classified (mem : ∀ f, f ∈ h.descendants E n ↔ h.layout.FileBelow n f) :
    h.uniqueFraction E (h.descendants E n) = .ok (some (h.roundedFraction E cksum n)) := by
  rw [uniqueFraction, full.foldlM_addDescendant mem fun f hf => ((mem f).mp hf).1, ok_bind]
  unfold roundedFraction Rounding.divide
  dsimp only
  split <;> rfl

theorem classWeight_nonneg (f : NodeId) : 0 ≤ h.classWeight f := by
  unfold classWeight
  split
  · exact full.weight_nonneg _
  · exact le_refl 0

theorem uniqueBelow_nonneg (n : NodeId) : 0 ≤ h.uniqueBelow cksum n :=
  Finset.sum_nonneg fun f _ => full.classWeight_nonneg f

open Classical in
theorem uniqueBelow_le (n : NodeId) : h.uniqueBelow cksum n ≤ h.weightBelow n :=
  Finset.sum_le_sum_of_subset_of_nonneg (Finset.filter_subset _ _) fun f _ _ =>
    full.classWeight_nonneg f

open Classical in
/-- Every copy of a file is below the root. -/
theorem uniqueBelow_root : h.uniqueBelow cksum root = h.weightBelow root := by
  unfold uniqueBelow weightBelow
  congr 1
  apply Finset.filter_true_of_mem
  intro f _ m file _
  exact full.tree.below_root file.1

end FullyClassified

/-- The fraction of a node: of a file, whether it has no copy; of a directory, how much of
what is below it has none outside. -/
structure IsFraction (cksum : NodeId → Cksum) (h : Heap) (n : NodeId) (x : ℚ) : Prop where
  file : h.layout.IsFile n →
    ((∃ m, m ≠ n ∧ h.layout.IsFile m ∧ cksum m = cksum n) → x = 0) ∧
    ((¬ ∃ m, m ≠ n ∧ h.layout.IsFile m ∧ cksum m = cksum n) → x = 1)
  dir : h.layout.IsDir n →
    (h.weightBelow n = 0 → x = 0) ∧
    (h.weightBelow n ≠ 0 → x = h.uniqueBelow cksum n / h.weightBelow n)
  nonneg : 0 ≤ x
  le_one : x ≤ 1

/-- Nothing is rounded in exact arithmetic. -/
theorem roundedFraction_exact (exact : E.rounding = .exact) (nodup : (h.descendants E n).Nodup)
    (mem : ∀ f, f ∈ h.descendants E n ↔ h.layout.FileBelow n f) :
    h.roundedFraction E cksum n =
      if h.weightBelow n = 0 then 0 else h.uniqueBelow cksum n / h.weightBelow n := by
  classical
  have below : (h.descendants E n).toFinset = h.layout.filesBelow n := by
    ext f
    rw [List.mem_toFinset, mem, mem_filesBelow]
  have total : ((h.descendants E n).map h.classWeight).sum = h.weightBelow n := by
    rw [← List.sum_toFinset _ nodup, below, weightBelow]
  have unique : (((h.descendants E n).filter (h.layout.Confined cksum n ·)).map h.classWeight).sum =
      h.uniqueBelow cksum n := by
    rw [← List.sum_toFinset _ (nodup.filter _), List.toFinset_filter, below, uniqueBelow]
    simp only [decide_eq_true_eq]
  simp only [roundedFraction, exact, Rounding.exact_total, Rounding.exact_rnd]
  rw [total, unique]

theorem FullyClassified.fraction (full : h.FullyClassified cksum root eqClasses)
    (exact : E.rounding = .exact) (hn : n < h.numNodes) {x : Option ℚ}
    (fraction : h.HasFraction E n x) : ∃ y, x = some y ∧ h.IsFraction cksum n y := by
  unfold HasFraction at fraction
  rcases isFile_or_isDir hn with file | dir
  · rw [show (h.node n).type = .file from file.2] at fraction
    obtain ⟨c, hc, rfl⟩ := fraction
    have notDir : ¬ h.layout.IsDir n := fun dir => by simpa [file.2] using dir.2
    refine ⟨_, rfl, fun _ => ?_, fun dir => absurd dir notDir, ?_, ?_⟩
    · have single := full.isSingle_iff file hc
      exact ⟨fun copy => if_neg fun alone => single.mp alone copy,
        fun none => if_pos (single.mpr none)⟩
    · split <;> norm_num
    · split <;> norm_num
  · rw [show (h.node n).type = .dir from dir.2] at fraction
    obtain ⟨nodup, mem, hx⟩ := fraction
    rw [full.uniqueFraction_classified mem, roundedFraction_exact exact nodup mem] at hx
    cases hx
    have notFile : ¬ h.layout.IsFile n := fun file => by simpa [file.2] using dir.2
    have unique := full.uniqueBelow_nonneg n
    have part := full.uniqueBelow_le n
    refine ⟨_, rfl, fun file => absurd file notFile, fun _ => ?_, ?_, ?_⟩
    · exact ⟨fun zero => if_pos zero, fun heavy => if_neg heavy⟩
    · split
      · exact le_refl 0
      · exact div_nonneg unique (unique.trans part)
    · split
      · exact zero_le_one
      · exact div_le_one_of_le₀ part (unique.trans part)

theorem FullyClassified.root_fraction (full : h.FullyClassified cksum root eqClasses) {x : ℚ}
    (fraction : h.IsFraction cksum root x)
    (heavy : ∃ f, h.layout.IsFile f ∧ 0 < h.classWeight f) : x = 1 := by
  obtain ⟨f, file, heavy⟩ := heavy
  have below : f ∈ h.layout.filesBelow root :=
    mem_filesBelow.mpr ⟨file, full.tree.below_root file.1⟩
  have positive : h.weightBelow root ≠ 0 := by
    have := Finset.single_le_sum (fun g _ => full.classWeight_nonneg g) below
    exact ne_of_gt (lt_of_lt_of_le heavy this)
  rw [(fraction.dir full.tree.root_dir).2 positive, full.uniqueBelow_root, div_self positive]

end Heap

/-- What a classification leaves is fully classified. -/
theorem Heap.Classified.full {E : Env} {cksum : NodeId → Cksum} {h h' : Heap} {root : NodeId}
    {eqClasses : List ClassId} (done : Heap.Classified E cksum h h' eqClasses)
    (fresh : h.Fresh root) (sized : E.Sized h.layout) :
    h'.FullyClassified cksum root eqClasses where
  toPartitioned := done.partitioned fresh
  tree := done.moves.layout ▸ fresh.tree
  together a b ha hb := by
    rw [done.moves.layout] at ha hb
    exact (done.partitions fresh).files a b ha hb
  apart a b ha hb same := by
    have sorted := done.moves.sorted fresh.tree fresh.consistent fresh.sorted
    rw [done.moves.layout] at ha hb
    have kind := done.alike sorted ha.1 same
    rw [Heap.kind_file cksum ha] at kind
    simpa [hb.2] using Heap.type_of_kind kind.symm
  weight_nonneg := done.moves.nonneg sized fresh.nonneg

/-- `CalculateUniqueness` on a fully classified tree, in exact arithmetic and with any order
of the hash containers. -/
theorem calculateUniqueness_fractions {E : Env} {cksum : NodeId → Cksum} {root : NodeId} {h : Heap}
    {eqClasses : List ClassId} (exact : E.rounding = .exact)
    (full : h.FullyClassified cksum root eqClasses) (before : NodeId → Option ℚ) :
    (∃ result, h.calculateUniqueness E h.numNodes root before = .ok result ∧
      (∀ n < h.numNodes, ∃ x, result.2 n = some x ∧ h.IsFraction cksum n x) ∧
      ((∃ f, h.layout.IsFile f ∧ 0 < h.classWeight f) → result.2 root = some 1)) ∧
    ∀ n, h.layout.IsDir n → ∃ result, h.calculateUniqueness E h.numNodes n before = .ok result ∧
      result.1.Nodup ∧ ∀ f, f ∈ result.1 ↔ h.layout.FileBelow n f := by
  obtain ⟨height, falls, bound⟩ := full.tree.bounded_height
  have call (n : NodeId) (hn : n < h.numNodes) := Heap.calculateUniqueness_ok E full.tree
    (fun m hm => full.evaluated hm) falls bound (bound n hn) hn before
  constructor
  · obtain ⟨result, run, reached⟩ := call root full.tree.root_dir.1
    have fractions (n : NodeId) (hn : n < h.numNodes) :=
      full.fraction exact hn (reached.inside n (full.tree.below_root hn))
    refine ⟨result, run, fractions, fun heavy => ?_⟩
    obtain ⟨x, hx, fraction⟩ := fractions root full.tree.root_dir.1
    rw [hx, full.root_fraction fraction heavy]
  · intro n dir
    obtain ⟨result, run, reached⟩ := call n dir.1
    exact ⟨result, run, reached.nodup, reached.mem⟩

theorem calculateUniqueness_fractions_twins : ∃ h' eqClasses,
    classify (.counting 10) (.ofEntries twins) 0 twinSums = .ok (h', eqClasses) ∧
      ∃ result, h'.calculateUniqueness (.counting 10) 6 0 (fun _ => none) = .ok result ∧
        ∃ x, result.2 1 = some x ∧ h'.IsFraction (fun _ => 7) 1 x := by
  have sized := Env.counting_sized 10 (Heap.ofEntries twins).layout
  obtain ⟨h', eqClasses, classified, done⟩ :=
    Propagation.classify_exact rfl twins_fresh twins_holds sized
  have size : h'.numNodes = 6 := Heap.numNodes_of_layout done.moves.layout
  obtain ⟨⟨result, run, fractions, -⟩, -⟩ := calculateUniqueness_fractions (E := .counting 10) rfl
    (done.full twins_fresh sized) fun _ => none
  rw [size] at run fractions
  exact ⟨h', eqClasses, classified, result, run, fractions 1 (by decide)⟩

end Dupa
