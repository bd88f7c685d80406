import Dupa.Fresh
import Dupa.Propagation

/-!
# The classes of the leaves

The first two stages of the classification of a freshly built tree fail no check and
make a run of moves: every file joins the class of its checksum, every empty directory
the class of the empty ones. They leave the propagation in a sound state (`start_ok`).
-/

namespace Dupa

open Checked

namespace Heap

variable {E : Env} {cksum : NodeId → Cksum} {root : NodeId} {h h' : Heap} {n c : Nat}

theorem Fresh.not_evaluated (fresh : h.Fresh root) (n : NodeId) : ¬ h.IsEvaluated n :=
  not_isEvaluated_iff.mpr (fresh.unevaluated n)

theorem Fresh.consistent (fresh : h.Fresh root) : h.Consistent where
  toLinked := fresh.tree.toLinked
  counter := by
    intro p
    rw [fresh.waits, List.countP_eq_length.mpr]
    intro c _
    simp [fresh.unevaluated c]
  member := by simp [fresh.unevaluated, fresh.noClass]
  nodes_nodup := by simp [fresh.noClass]
  unallocated := by simp [fresh.noClass]
  logged := by simp [fresh.evaluated, fresh.not_evaluated]
  log_nodup := by simp [fresh.evaluated]
  log_order := fresh.evaluated ▸ Justified.nil

theorem Fresh.nonneg (fresh : h.Fresh root) (c : ClassId) : 0 ≤ (h.eqClass c).weight := by
  rw [fresh.noClass]

theorem Fresh.sorted (fresh : h.Fresh root) : h.Sorted cksum where
  alike := fun ha => by simp [fresh.unevaluated] at ha
  together := fun ha => absurd ha (fresh.not_evaluated _)

/-! ## Filling a class with leaves -/

/-- The class `c` is empty and is to hold the leaves of kind `k`, of which none
is evaluated. -/
structure Opened (cksum : NodeId → Cksum) (root : NodeId) (k : Kind) (c : ClassId) (h : Heap) :
    Prop where
  tree : h.layout.IsTree root
  consistent : h.Consistent
  known : c < h.numClasses
  empty : (h.eqClass c).nodes = []
  leaf : k ≠ .dir
  none : ∀ m, h.IsEvaluated m → h.layout.kind cksum m ≠ k

/-- The nodes `done` have been added to the class `c`. -/
structure Filled (E : Env) (cksum : NodeId → Cksum) (h : Heap) (c : ClassId) (done : List NodeId)
    (h' : Heap) : Prop where
  moves : Moves E cksum h h'
  numClasses : h'.numClasses = h.numClasses
  eqClass : ∀ m, (h'.node m).eqClass = if m ∈ done then some c else (h.node m).eqClass
  nodes : ∀ d, (h'.eqClass d).nodes = if d = c then done else (h.eqClass d).nodes

theorem Opened.filled {k : Kind} (opened : h.Opened cksum root k c) : Filled E cksum h c [] h where
  moves := .refl
  numClasses := rfl
  eqClass := fun _ => rfl
  nodes := fun d => by
    split
    · subst d; exact opened.empty
    · rfl

theorem Filled.isEvaluated_iff {done : List NodeId} (filled : Filled E cksum h c done h')
    (m : NodeId) : h'.IsEvaluated m ↔ m ∈ done ∨ h.IsEvaluated m := by
  simp only [IsEvaluated, filled.eqClass]
  by_cases hm : m ∈ done <;> simp [hm]

theorem Filled.snoc {k : Kind} {done : List NodeId} (opened : h.Opened cksum root k c)
    (filled : Filled E cksum h c done h') (alike : ∀ m ∈ done, h.layout.kind cksum m = k)
    (inside : n < h.numNodes) (hk : h.layout.kind cksum n = k) (absent : n ∉ done) :
    ∃ h'', h'.addNode E c n = .ok h'' ∧ Filled E cksum h c (done ++ [n]) h'' := by
  have layout := filled.moves.layout
  have leaf : h'.layout.kind cksum n ≠ .dir := by
    rw [layout, hk]
    exact opened.leaf
  have fresh : ¬ h'.IsEvaluated n := by
    rw [filled.isEvaluated_iff]
    rintro (hm | hm)
    · exact absent hm
    · exact opened.none n hm hk
  have member (m : NodeId) : (h'.node m).eqClass = some c ↔ m ∈ done := by
    rw [filled.eqClass]
    split
    · simp [*]
    · rw [opened.consistent.member, opened.empty]
      simp [*]
  have hc := filled.moves.consistent opened.tree opened.consistent
  obtain ⟨h'', hadd, placed⟩ := addNode_placed E c hc fresh
    (childrenEvaluated_of_leaf (layout ▸ opened.tree) leaf)
  refine ⟨h'', hadd, ?_, ?_, ?_, ?_⟩
  · refine filled.moves.tail (.leaf ?_ leaf fresh ?_ ?_ ?_ placed)
    · exact numNodes_of_layout layout ▸ inside
    · rw [filled.numClasses]
      exact opened.known
    · intro m hm
      rw [layout, hk]
      exact alike m ((member m).mp hm)
    · intro m hm hkm
      rw [layout, hk] at hkm
      rw [member]
      exact ((filled.isEvaluated_iff m).mp hm).resolve_right fun he => opened.none m he hkm
  · rw [placed.numClasses, filled.numClasses]
  · intro m
    rw [placed.eqClass, filled.eqClass]
    by_cases hm : m = n
    · simp [hm]
    · simp [hm]
  · intro d
    rw [placed.nodes]
    by_cases hd : d = c
    · simp [hd, filled.nodes]
    · simp [hd, filled.nodes]

theorem addNodes_ok (E : Env) {k : Kind} (opened : h.Opened cksum root k c) {nodes : List NodeId}
    (inside : ∀ m ∈ nodes, m < h.numNodes) (alike : ∀ m ∈ nodes, h.layout.kind cksum m = k)
    (nodup : nodes.Nodup) :
    ∃ h', h.addNodes E c nodes = .ok h' ∧ Filled E cksum h c nodes h' := by
  refine foldlM_ok (I := fun done h' => Filled E cksum h c done h') ?_ opened.filled
  rintro done n rest h' rfl filled
  refine filled.snoc opened (fun m hm => alike m (List.mem_append_left _ hm))
    (inside n (by simp)) (alike n (by simp)) fun hn => ?_
  exact (List.nodup_append.mp nodup).2.2 n hn n List.mem_cons_self rfl

/-- A new class for the leaves of one kind. -/
theorem Consistent.opened (hc : h.Consistent) (tree : h.layout.IsTree root) {k : Kind}
    (leaf : k ≠ .dir) (none : ∀ m, h.IsEvaluated m → h.layout.kind cksum m ≠ k) :
    h.newClass.1.Opened cksum root k h.numClasses where
  tree := tree
  consistent := hc.newClass
  known := Nat.lt_succ_self _
  empty := by rw [newClass_nodes hc, hc.unallocated _ (Nat.le_refl _)]
  leaf := leaf
  none := none

/-! ## The stages -/

/-- `eqClasses` lists the classes that have a member, each once. -/
structure Listed (h : Heap) (eqClasses : List ClassId) : Prop where
  mem : ∀ c, c ∈ eqClasses ↔ (h.eqClass c).nodes ≠ []
  nodup : eqClasses.Nodup

/-- A class that was new when it was filled with something joins the list. -/
theorem Filled.listed (hc : h.Consistent) {eqClasses : List ClassId} (listed : h.Listed eqClasses)
    {nodes : List NodeId} (filled : Filled E cksum h.newClass.1 h.numClasses nodes h') :
    h'.Listed (if nodes = [] then eqClasses else eqClasses ++ [h.numClasses]) := by
  have unlisted : h.numClasses ∉ eqClasses := by simp [listed.mem, hc.unallocated]
  have old (d : ClassId) (hd : d ≠ h.numClasses) :
      (h'.eqClass d).nodes = (h.eqClass d).nodes := by
    rw [filled.nodes, if_neg hd, newClass_nodes hc]
  have new : (h'.eqClass h.numClasses).nodes = nodes := by rw [filled.nodes, if_pos rfl]
  constructor
  · intro d
    by_cases hd : d = h.numClasses
    · subst hd
      rw [new]
      split <;> simp [*]
    · rw [old d hd, ← listed.mem]
      split <;> simp [hd]
  · split
    · exact listed.nodup
    · exact List.Nodup.append listed.nodup (List.nodup_singleton _) (by simpa using unlisted)

/-- The files of the groups `done` have their classes. -/
structure FilesDone (E : Env) (cksum : NodeId → Cksum) (h : Heap)
    (done : List (Cksum × List NodeId)) (s : Heap × List ClassId) : Prop where
  moves : Moves E cksum h s.1
  evaluated : ∀ n, s.1.IsEvaluated n ↔ ∃ group ∈ done, n ∈ group.2
  listed : s.1.Listed s.2

theorem classifyRange_ok {sum2Node : Sum2Node} (fresh : h.Fresh root)
    (holds : sum2Node.Holds h.layout cksum) {done rest : List (Cksum × List NodeId)}
    {group : Cksum × List NodeId} (split : sum2Node.groups = done ++ group :: rest)
    {s : Heap × List ClassId} (sofar : FilesDone E cksum h done s) :
    ∃ s', classifyRange E s group = .ok s' ∧ FilesDone E cksum h (done ++ [group]) s' := by
  obtain ⟨h', eqClasses⟩ := s
  obtain ⟨moves, evaluated, listed⟩ := sofar
  have layout := moves.layout
  have hc := moves.consistent fresh.tree fresh.consistent
  have here : group ∈ sum2Node.groups := by simp [split]
  have file (g : Cksum × List NodeId) (hg : g ∈ sum2Node.groups) (m : NodeId) (hm : m ∈ g.2) :
      h'.layout.kind cksum m = .file g.1 := by
    obtain ⟨hfile, hk⟩ := (holds.mem g.1 m).mp ⟨g, hg, rfl, hm⟩
    rw [layout, kind_file cksum hfile, hk]
  have inside (m : NodeId) (hm : m ∈ group.2) : m < h'.numNodes :=
    numNodes_of_layout layout ▸ ((holds.mem group.1 m).mp ⟨group, here, rfl, hm⟩).1.1
  have opened : h'.newClass.1.Opened cksum root (.file group.1) h'.numClasses := by
    apply hc.opened (layout ▸ fresh.tree) (by simp)
    intro m hm
    obtain ⟨g, hg, hmg⟩ := (evaluated m).mp hm
    rw [file g (by simp [split, hg]) m hmg]
    intro same
    have keys := sum2Node.keys
    rw [split, List.map_append, List.map_cons, List.nodup_append] at keys
    exact keys.2.2 g.1 (List.mem_map_of_mem hg) group.1 List.mem_cons_self (Kind.file.inj same)
  obtain ⟨h'', hadd, filled⟩ := addNodes_ok E opened inside (file group here) (holds.nodup group here)
  refine ⟨(h'', eqClasses ++ [h'.numClasses]), ?_, ?_, ?_, ?_⟩
  · simp only [classifyRange]
    change (h'.newClass.1.addNodes E h'.numClasses group.2 >>= _) = _
    rw [hadd]
    rfl
  · exact (moves.tail .newClass).trans filled.moves
  · intro m
    have : h'.newClass.1.IsEvaluated m ↔ h'.IsEvaluated m := Iff.rfl
    rw [filled.isEvaluated_iff, this, evaluated]
    simp only [List.mem_append, List.mem_singleton, or_and_right, exists_or, exists_eq_left]
    exact or_comm
  · have := filled.listed hc listed
    rwa [if_neg (sum2Node.nonempty group here)] at this

theorem classifyDuplicateFiles_ok (E : Env) {sum2Node : Sum2Node} (fresh : h.Fresh root)
    (holds : sum2Node.Holds h.layout cksum) :
    ∃ s, h.classifyDuplicateFiles E sum2Node = .ok s ∧
      FilesDone E cksum h sum2Node.groups s := by
  apply foldlM_ok (fun done group rest s split sofar => classifyRange_ok fresh holds split sofar)
  exact ⟨.refl, by simp [fresh.not_evaluated], by simp [fresh.noClass], List.nodup_nil⟩

theorem isEmptyDir_of_layout (layout : h'.layout = h.layout) :
    h'.IsEmptyDir n ↔ h.IsEmptyDir n := by
  unfold IsEmptyDir
  rw [type_of_layout layout, children_of_layout layout]

theorem classifyEmptyDirs_ok (E : Env) (cksum : NodeId → Cksum) (tree : h.layout.IsTree root)
    (hc : h.Consistent)
    (none : ∀ m, h.IsEvaluated m → ¬ h.IsEmptyDir m) :
    ∃ h', h.classifyEmptyDirs E root = .ok (h', h.numClasses) ∧
      Filled E cksum h.newClass.1 h.numClasses ((h.traverse root).filter fun n => h.IsEmptyDir n)
        h' := by
  have opened : h.newClass.1.Opened cksum root .emptyDir h.numClasses :=
    hc.opened tree (by simp) fun m hm hk => none m hm (kind_eq_emptyDir_iff.mp hk)
  have fold := foldlM_ok (l := h.traverse root) (s := h.newClass.1)
    (f := fun h' n => if h'.IsEmptyDir n then h'.addNode E h.numClasses n else return h')
    (I := fun done h' => Filled E cksum h.newClass.1 h.numClasses
      (done.filter fun n => h.IsEmptyDir n) h') ?_ opened.filled
  · obtain ⟨h', hfold, filled⟩ := fold
    refine ⟨h', ?_, filled⟩
    unfold classifyEmptyDirs
    change ((h.traverse root).foldlM _ h.newClass.1 >>= _) = _
    rw [hfold]
    rfl
  · intro done n rest h' split filled
    simp only [isEmptyDir_of_layout (h := h) (filled.moves.layout : _ = h.layout)]
    by_cases hn : h.IsEmptyDir n
    · obtain ⟨h'', hadd, filled'⟩ := filled.snoc opened (n := n)
        (fun m hm => kind_eq_emptyDir_iff.mpr (of_decide_eq_true (List.mem_filter.mp hm).2))
        ((mem_traverse tree n).mp (by rw [split]; simp)) (kind_eq_emptyDir_iff.mpr hn) fun hm => by
          have nodup := traverse_nodup tree
          rw [split] at nodup
          exact (List.nodup_append.mp nodup).2.2 n (List.mem_filter.mp hm).1 n List.mem_cons_self rfl
      refine ⟨h'', by rw [if_pos hn, hadd], ?_⟩
      simpa [List.filter_append, hn] using filled'
    · refine ⟨h', by rw [if_neg hn]; rfl, ?_⟩
      simpa [List.filter_append, hn] using filled

theorem getNodesReadyToEval_mem (tree : h.layout.IsTree root) (hc : h.Consistent) :
    n ∈ h.getNodesReadyToEval root ↔
      n < h.numNodes ∧ ¬ h.IsEvaluated n ∧ h.ChildrenEvaluated n := by
  simp only [getNodesReadyToEval, List.mem_filter, mem_traverse tree, hc.ready_iff,
    decide_eq_true_eq]
  exact and_congr_right fun _ => and_comm

/-- The propagation starts in a sound state. -/
theorem start_sound (cksum : NodeId → Cksum) (tree : h.layout.IsTree root) (hc : h.Consistent)
    (inside : ∀ n, h.IsEvaluated n → n < h.numNodes)
    (leaves : ∀ n, n < h.numNodes → h.layout.kind cksum n ≠ .dir → h.IsEvaluated n)
    {eqClasses : List ClassId} (listed : h.Listed eqClasses) :
    Propagation.Sound cksum root ⟨h, eqClasses, h.getNodesReadyToEval root⟩ :=
  ⟨tree, hc, inside, leaves, (traverse_nodup tree).filter _,
    fun _ => getNodesReadyToEval_mem tree hc, listed.mem, listed.nodup⟩

/-- What the first two stages leave to the propagation. -/
structure LeavesDone (E : Env) (cksum : NodeId → Cksum) (root : NodeId) (h : Heap)
    (s : Propagation) : Prop where
  moves : Moves E cksum h s.heap
  evaluated : ∀ n, s.heap.IsEvaluated n ↔ n < h.numNodes ∧ h.layout.kind cksum n ≠ .dir
  sound : s.Sound cksum root

theorem start_ok (E : Env) {sum2Node : Sum2Node} (fresh : h.Fresh root)
    (holds : sum2Node.Holds h.layout cksum) :
    ∃ s, Propagation.start E h root sum2Node = .ok s ∧ LeavesDone E cksum root h s := by
  obtain ⟨⟨h₁, files⟩, hfiles, moves₁, evaluated₁, listed₁⟩ :=
    classifyDuplicateFiles_ok E fresh holds
  have tree₁ : h₁.layout.IsTree root := moves₁.layout ▸ fresh.tree
  have isFile (n : NodeId) : h₁.IsEvaluated n ↔ h.layout.IsFile n := by
    rw [evaluated₁]
    constructor
    · rintro ⟨g, hg, hn⟩
      exact ((holds.mem g.1 n).mp ⟨g, hg, rfl, hn⟩).1
    · intro hn
      obtain ⟨g, hg, -, hmem⟩ := (holds.mem (cksum n) n).mpr ⟨hn, rfl⟩
      exact ⟨g, hg, hmem⟩
  have hc₁ := moves₁.consistent fresh.tree fresh.consistent
  obtain ⟨h₂, hempty, filled⟩ := classifyEmptyDirs_ok E cksum tree₁ hc₁ fun m hm he => by
    have := ((isFile m).mp hm).2
    rw [← moves₁.layout] at this
    exact absurd (this.symm.trans he.1) (by simp)
  have moves₂ : Moves E cksum h h₂ := (moves₁.tail .newClass).trans filled.moves
  have size₁ : h₁.numNodes = h.numNodes := numNodes_of_layout moves₁.layout
  have size₂ : h₂.numNodes = h.numNodes := numNodes_of_layout moves₂.layout
  have evaluated₂ (n : NodeId) : h₂.IsEvaluated n ↔ n < h.numNodes ∧ h.layout.kind cksum n ≠ .dir := by
    have : h₁.newClass.1.IsEvaluated n ↔ h₁.IsEvaluated n := Iff.rfl
    rw [filled.isEvaluated_iff, this, isFile, List.mem_filter, mem_traverse tree₁, size₁, leaf_iff,
      decide_eq_true_eq, isEmptyDir_of_layout moves₁.layout, or_comm, and_or_left]
    rfl
  have members : (h₂.eqClass h₁.numClasses).nodes =
      (h₁.traverse root).filter fun n => h₁.IsEmptyDir n := by rw [filled.nodes, if_pos rfl]
  refine ⟨⟨h₂, if (h₂.eqClass h₁.numClasses).nodes = [] then files else files ++ [h₁.numClasses],
    h₂.getNodesReadyToEval root⟩, ?_, moves₂, evaluated₂, ?_⟩
  · unfold Propagation.start
    rw [hfiles, ok_bind]
    dsimp only
    rw [hempty]
    rfl
  · refine start_sound cksum (moves₂.layout ▸ fresh.tree)
      (moves₂.consistent fresh.tree fresh.consistent) (fun n hn => size₂ ▸ ((evaluated₂ n).mp hn).1)
      (fun n hn leaf => (evaluated₂ n).mpr ⟨size₂ ▸ hn, moves₂.layout ▸ leaf⟩) ?_
    rw [members]
    exact filled.listed hc₁ listed₁

end Heap

end Dupa
