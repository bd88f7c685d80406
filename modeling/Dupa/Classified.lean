import Dupa.Turns

/-!
# The classification of a tree

The classes that a classification lists partition the nodes (`Classified.partitions`).
It fails an assertion just when the sums of `NodeDistance` leave the range of a
`uint64_t` (`classify_partitions`), which they do for a few files of the largest sizes
(`huge_sums`).
-/

namespace Dupa

open Checked

/-- The class of a node after a classification that failed no check. -/
def classAfter (result : Except Fault (Heap × List ClassId)) (n : NodeId) : Option ClassId :=
  match result with
  | .ok s => (s.1.node n).eqClass
  | .error _ => none

/-! ## The classes partition the tree -/

/-- What the classification of the tree in `h` is to leave in `h'`. -/
structure Partitions (cksum : NodeId → Cksum) (h h' : Heap) (eqClasses : List ClassId) : Prop where
  layout : h'.layout = h.layout
  evaluated_nodup : h'.evaluated.Nodup
  evaluated_all : ∀ n, n ∈ h'.evaluated ↔ n < h.numNodes
  children_first :
    Justified (fun before n => ∀ c ∈ (h.node n).children, c ∈ before) h'.evaluated
  once : ∀ n < h.numNodes, (eqClasses.flatMap fun c => (h'.eqClass c).nodes).count n = 1
  own : ∀ n < h.numNodes, ∃ c ∈ eqClasses, n ∈ (h'.eqClass c).nodes ∧ (h'.node n).eqClass = some c
  members : ∀ c ∈ eqClasses, ∀ n ∈ (h'.eqClass c).nodes, n < h.numNodes
  nonempty : ∀ c ∈ eqClasses, (h'.eqClass c).nodes ≠ []
  files : ∀ a b, h.layout.IsFile a → h.layout.IsFile b →
    ((h'.node a).eqClass = (h'.node b).eqClass ↔ cksum a = cksum b)
  emptyDirs : ∀ a b, a < h.numNodes → b < h.numNodes → h.IsEmptyDir a →
    ((h'.node a).eqClass = (h'.node b).eqClass ↔ h.IsEmptyDir b)
  kinds : ∀ c ∈ eqClasses,
    (∀ n ∈ (h'.eqClass c).nodes, (h.node n).type = .file) ∨
    (∀ n ∈ (h'.eqClass c).nodes, h.IsEmptyDir n) ∨
    (∀ n ∈ (h'.eqClass c).nodes, (h.node n).type = .dir ∧ (h.node n).children ≠ [])

namespace Heap

variable {E : Env} {cksum : NodeId → Cksum} {root : NodeId} {h h' : Heap}
  {eqClasses : List ClassId}

theorem Classified.own (done : Classified E cksum h h' eqClasses) (hc : h'.Consistent) {n : NodeId}
    (hn : n < h.numNodes) :
    ∃ c ∈ eqClasses, n ∈ (h'.eqClass c).nodes ∧ (h'.node n).eqClass = some c := by
  obtain ⟨c, hcl⟩ := isEvaluated_iff.mp ((done.evaluated n).mpr hn)
  have hmem := (hc.member n c).mp hcl
  exact ⟨c, (done.listed.mem c).mpr (List.ne_nil_of_mem hmem), hmem, hcl⟩

/-- Member lists of different classes are disjoint, as every node points to one
class. -/
theorem Classified.members_nodup (done : Classified E cksum h h' eqClasses) (hc : h'.Consistent) :
    (eqClasses.flatMap fun c => (h'.eqClass c).nodes).Nodup := by
  rw [List.nodup_flatMap]
  refine ⟨fun c _ => hc.nodes_nodup c, done.listed.nodup.imp ?_⟩
  intro c d hne n hn hn'
  rw [← hc.member] at hn hn'
  exact hne (Option.some.inj (hn.symm.trans hn'))

theorem Classified.alike (done : Classified E cksum h h' eqClasses) (sorted : h'.Sorted cksum)
    {a b : NodeId} (ha : a < h.numNodes) (same : (h'.node a).eqClass = (h'.node b).eqClass) :
    h.layout.kind cksum a = h.layout.kind cksum b := by
  obtain ⟨c, hcl⟩ := isEvaluated_iff.mp ((done.evaluated a).mpr ha)
  have := sorted.alike hcl (same ▸ hcl)
  rwa [done.moves.layout] at this

theorem Classified.together (done : Classified E cksum h h' eqClasses) (sorted : h'.Sorted cksum)
    {a b : NodeId} (ha : a < h.numNodes) (hb : b < h.numNodes)
    (alike : h.layout.kind cksum a = h.layout.kind cksum b)
    (leaf : h.layout.kind cksum a ≠ .dir) : (h'.node a).eqClass = (h'.node b).eqClass := by
  rw [← done.moves.layout] at alike leaf
  exact sorted.together ((done.evaluated a).mpr ha) ((done.evaluated b).mpr hb) alike leaf

theorem Classified.partitions (fresh : h.Fresh root) (done : Classified E cksum h h' eqClasses) :
    Partitions cksum h h' eqClasses := by
  have hc := done.moves.consistent fresh.tree fresh.consistent
  have sorted := done.moves.sorted fresh.tree fresh.consistent fresh.sorted
  have layout := done.moves.layout
  have inside : ∀ c, ∀ n ∈ (h'.eqClass c).nodes, n < h.numNodes := fun c n hn =>
    (done.evaluated n).mp (hc.evaluated_of_mem hn)
  constructor
  · exact layout
  · exact hc.log_nodup
  · exact fun n => (hc.logged n).trans (done.evaluated n)
  · simpa only [children_of_layout layout] using hc.log_order
  · intro n hn
    apply List.count_eq_one_of_mem (done.members_nodup hc)
    obtain ⟨c, hcl, hmem, -⟩ := done.own hc hn
    exact List.mem_flatMap.mpr ⟨c, hcl, hmem⟩
  · exact fun n hn => done.own hc hn
  · exact fun c _ => inside c
  · exact fun c hcl => (done.listed.mem c).mp hcl
  · intro a b ha hb
    have ka := kind_file cksum ha
    have kb := kind_file cksum hb
    constructor
    · intro same
      have := done.alike sorted ha.1 same
      rw [ka, kb] at this
      exact Kind.file.inj this
    · intro same
      exact done.together sorted ha.1 hb.1 (by rw [ka, kb, same]) (by simp [ka])
  · intro a b ha hb he
    have ka : h.layout.kind cksum a = .emptyDir := kind_eq_emptyDir_iff.mpr he
    constructor
    · intro same
      exact kind_eq_emptyDir_iff.mp ((done.alike sorted ha same).symm.trans ka)
    · intro he'
      have kb : h.layout.kind cksum b = .emptyDir := kind_eq_emptyDir_iff.mpr he'
      exact done.together sorted ha hb (ka.trans kb.symm) (by simp [ka])
  · intro c hcl
    obtain ⟨n, hn⟩ := List.exists_mem_of_ne_nil _ ((done.listed.mem c).mp hcl)
    have same (m : NodeId) (hm : m ∈ (h'.eqClass c).nodes) :
        h.layout.kind cksum m = h.layout.kind cksum n := by
      apply done.alike sorted (inside c m hm)
      rw [(hc.member m c).mpr hm, (hc.member n c).mpr hn]
    cases hk : h.layout.kind cksum n with
    | file k => exact Or.inl fun m hm => type_of_kind ((same m hm).trans hk)
    | emptyDir =>
      exact Or.inr (Or.inl fun m hm => kind_eq_emptyDir_iff.mp ((same m hm).trans hk))
    | dir =>
      exact Or.inr (Or.inr fun m hm => kind_eq_dir_iff.mp ((same m hm).trans hk))

end Heap

/-- A classification ends, fails no assertion and partitions the nodes just when the sums
of the distances it takes stay in range. -/
theorem classify_partitions (E : Env) (cksum : NodeId → Cksum) {h : Heap} {root : NodeId}
    {sum2Node : Sum2Node} (fresh : h.Fresh root) (holds : sum2Node.Holds h.layout cksum)
    (sized : E.Sized h.layout) :
    (∃ h' eqClasses, classify E h root sum2Node = .ok (h', eqClasses) ∧
      Partitions cksum h h' eqClasses) ↔ Propagation.SumsFit E h root sum2Node := by
  constructor
  · rintro ⟨h', eqClasses, run, -⟩
    exact .of_classify fresh holds run
  · intro fits
    obtain ⟨h', eqClasses, run, done⟩ := fits.classify fresh holds sized
    exact ⟨h', eqClasses, run, done.partitions fresh⟩

theorem classify_partitions_twins :
    ∃ h' eqClasses, classify (.counting 10) (.ofEntries twins) 0 twinSums = .ok (h', eqClasses) ∧
      Partitions (fun _ => 7) (.ofEntries twins) h' eqClasses := by
  have sized := Env.counting_sized 10 (Heap.ofEntries twins).layout
  apply (classify_partitions _ _ twins_fresh twins_holds sized).mpr
  exact Propagation.sumsFit_of_unlimited rfl twins_fresh twins_holds sized

/-! ## Sums that are too large

Two directories hold a file `x` of the largest size, and one of them another such file.
Together the two files weigh 2^64, which no `uint64_t` holds. -/

def huge : List Entry :=
  [⟨.dir, "r", 0, none, [1, 2]⟩, ⟨.dir, "a", 0, some 0, [3, 4]⟩, ⟨.dir, "b", 0, some 0, [5, 6]⟩,
    ⟨.file, "x", 2 ^ 63 - 1, some 1, []⟩, ⟨.file, "w", 3, some 1, []⟩,
    ⟨.file, "x", 2 ^ 63 - 1, some 2, []⟩, ⟨.file, "y", 2 ^ 63 - 1, some 2, []⟩]

def hugeSums : Sum2Node := ⟨[(1, [3, 5]), (2, [4]), (3, [6])], by decide, by decide⟩

def hugeCksum (n : NodeId) : Cksum := if n = 4 then 2 else if n = 6 then 3 else 1

theorem huge_fresh : (Heap.ofEntries huge).Fresh 0 := Heap.ofEntries_fresh (by decide)

theorem huge_holds : hugeSums.Holds (Heap.ofEntries huge).layout hugeCksum :=
  Sum2Node.holds_of_groups (by decide) (by decide) (by decide)

theorem huge_sums :
    ¬∀ (E : Env) (cksum : NodeId → Cksum) (h : Heap) (root : NodeId) (sum2Node : Sum2Node),
      h.Fresh root → sum2Node.Holds h.layout cksum → E.Sized h.layout →
      ∃ h' eqClasses, classify E h root sum2Node = .ok (h', eqClasses) ∧
        Partitions cksum h h' eqClasses := by
  intro claim
  obtain ⟨h', eqClasses, run, -⟩ := claim (.machine 20) _ _ _ _ huge_fresh huge_holds
    (Heap.ofEntries_sized _ (by decide))
  have fails : ¬ Returns (fun _ => True) (classify (.machine 20) (.ofEntries huge) 0 hugeSums) := by
    decide +kernel
  rw [run] at fails
  exact fails trivial

end Dupa
