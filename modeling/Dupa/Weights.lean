import Dupa.Bearing
import Dupa.Exact

/-!
# Exact weights

When arithmetic is exact, every file weighs at least one and no tolerance is above
the whole, distances depend on the classes of the file-bearing children alone. Every
move adds one node to one class (`Added`), for one of three reasons (`Reason`).
-/

namespace Dupa

structure Env.Weighs (E : Env) (L : Layout) : Prop where
  exact : E.rounding = .exact
  files : E.useSize = false ∨ ∀ n, L.IsFile n → 1 ≤ (L.entry n).size
  atMostWhole : E.tolerableDiffPct ≤ 100

theorem Env.Weighs.counts {E : Env} {L : Layout} (weighs : E.Weighs L) : E.Counts L where
  rounding := weighs.exact ▸ Rounding.exact_counts L.size
  files := weighs.files
  atMostWhole := weighs.atMostWhole

namespace Heap

variable {E : Env} {cksum : NodeId → Cksum} {root : NodeId} {h h' : Heap} {n m x c : Nat}

theorem Weighted.floor_pos (hw : h.Weighted) (hn : (h.node n).eqClass = some c) :
    0 < h.floorWeight c ↔ h.layout.Bears n := by
  rw [floorWeight, Nat.floor_pos]
  constructor
  · intro heavy
    by_contra bears
    have := hw.weightless hn bears
    linarith
  · exact hw.bears hn

theorem Weighted.mem_bearing (hw : h.Weighted) :
    c ∈ h.bearing n ↔ c ∈ h.childSet n ∧ 0 < h.floorWeight c := by
  rw [mem_childSet]
  constructor
  · rintro ⟨x, hx, bears, hxc⟩
    exact ⟨⟨x, hx, hxc⟩, (hw.floor_pos hxc).mpr bears⟩
  · rintro ⟨⟨x, hx, hxc⟩, heavy⟩
    exact ⟨x, hx, (hw.floor_pos hxc).mp heavy, hxc⟩

/-- The classes of file-less children weigh nothing. -/
theorem Weighted.sum_bearing (hw : h.Weighted) :
    ∑ c ∈ h.childSet n, (h.eqClass c).weight =
      ∑ c ∈ (h.childSet n).filter (fun c => 0 < h.floorWeight c), (h.eqClass c).weight := by
  symm
  apply Finset.sum_filter_of_ne
  intro c hc heavy
  obtain ⟨x, hx, hxc⟩ := mem_childSet.mp hc
  rw [hw.floor_pos hxc]
  by_contra bears
  exact heavy (hw.weightless hxc bears)

/-! ## Distances -/

theorem Weighted.distance_eq_zero_iff (weighs : E.Weighs h.layout) (hw : h.Weighted) :
    h.distance E n m = 0 ↔ h.bearing n = h.bearing m := by
  rw [distance_exact weighs.exact hw.nonneg, Jaccard.dist_eq_zero_iff, Set.ext_iff]
  simp only [hw.mem_bearing]
  exact forall_congr' fun c => by tauto

/-! ## What every move keeps -/

/-- One node has been added to the class `c`, whose weight is the mean of the
weights its members had when they were added. -/
structure Added (E : Env) (h : Heap) (n : NodeId) (c : ClassId) (h' : Heap) : Prop where
  fresh : ¬ h.IsEvaluated n
  ready : h.ChildrenEvaluated n
  inside : n < h.numNodes
  layout : h'.layout = h.layout
  eqClass : ∀ m, (h'.node m).eqClass = if m = n then some c else (h.node m).eqClass
  nodes : (h'.eqClass c).nodes = (h.eqClass c).nodes ++ [n]
  weight : (h'.eqClass c).weight =
    ((h.eqClass c).weight * (h.eqClass c).nodes.length + h.ownWeight E n) /
      ((h.eqClass c).nodes.length + 1)
  others : ∀ d, d ≠ c → h'.eqClass d = h.eqClass d

theorem Placed.added (exact : E.rounding = .exact) (placed : Placed E h c n h')
    (fresh : ¬ h.IsEvaluated n) (ready : h.ChildrenEvaluated n) (inside : n < h.numNodes) :
    Added E h n c h' where
  fresh := fresh
  ready := ready
  inside := inside
  layout := placed.layout
  eqClass := placed.eqClass
  nodes := by rw [placed.nodes, if_pos rfl]
  weight := by rw [placed.weight, if_pos rfl, exact, newMean_exact]
  others := fun d hd => by
    ext1
    · rw [placed.nodes, if_neg hd]
    · rw [placed.weight, if_neg hd]

theorem ownWeight_newClass (hc : h.Consistent) (exact : E.rounding = .exact) :
    h.newClass.1.ownWeight E n = h.ownWeight E n := by
  cases type : (h.node n).type with
  | file => rw [ownWeight_file exact type, ownWeight_file exact (n := n) (h := h.newClass.1) type]; rfl
  | dir =>
    rw [ownWeight_dir exact type, ownWeight_dir exact (h := h.newClass.1) (n := n) type]
    change ∑ c ∈ h.childSet n, _ = _
    apply Finset.sum_congr rfl
    intro d hd
    obtain ⟨x, -, hxd⟩ := mem_childSet.mp hd
    rw [newClass_weight, if_neg (Nat.ne_of_lt (hc.known hxd))]

theorem Settled.added (exact : E.rounding = .exact) (hc : h.Consistent)
    (settled : Settled E h n c h') (fresh : ¬ h.IsEvaluated n) (ready : h.ChildrenEvaluated n)
    (inside : n < h.numNodes) : Added E h n c h' := by
  cases settled with
  | joined _ placed => exact placed.added exact fresh ready inside
  | founded _ placed =>
    have empty : (h.eqClass h.numClasses).nodes = [] := hc.unallocated _ (Nat.le_refl _)
    obtain ⟨-, -, -, layout, eqClass, nodes, weight, others⟩ :=
      placed.added exact fresh ready inside
    refine ⟨fresh, ready, inside, layout, eqClass, ?_, ?_, fun d hd => ?_⟩
    · rw [nodes, newClass_nodes hc]
    · rw [weight, newClass_nodes hc, ownWeight_newClass hc exact, empty]
      simp
    · rw [others d hd]
      ext1
      · rw [newClass_nodes hc]
      · rw [newClass_weight, if_neg hd]

/-! ## Runs -/

/-- All that every run from a fresh tree keeps. -/
structure Steady (E : Env) (cksum : NodeId → Cksum) (root : NodeId) (h : Heap) : Prop where
  tree : h.layout.IsTree root
  weighs : E.Weighs h.layout
  consistent : h.Consistent
  sorted : h.Sorted cksum
  weighted : h.Weighted

theorem Fresh.steady (fresh : h.Fresh root) (weighs : E.Weighs h.layout) :
    h.Steady E cksum root :=
  ⟨fresh.tree, weighs, fresh.consistent, fresh.sorted, fresh.weighted⟩

theorem Move.steady (steady : h.Steady E cksum root) (move : Move E cksum h h') :
    h'.Steady E cksum root := by
  obtain ⟨tree, weighs, hc, hs, hw⟩ := steady
  exact ⟨move.layout ▸ tree, move.layout ▸ weighs, move.consistent tree hc, move.sorted tree hc hs,
    move.weighted weighs.counts (fun _ _ _ _ => weighs.exact ▸ Rounding.exact_counts _) tree hc hw⟩

/-- What every move of a steady heap keeps holds after every run. -/
theorem Moves.keep {I : Heap → Prop} (steady : h.Steady E cksum root)
    (step : ∀ {a b}, a.Steady E cksum root → I a → Move E cksum a b → I b) (start : I h)
    (moves : Moves E cksum h h') : h'.Steady E cksum root ∧ I h' := by
  induction moves with
  | refl => exact ⟨steady, start⟩
  | tail _ move ih => exact ⟨move.steady ih.1, step ih.1 ih.2 move⟩

/-- Why a move adds `n` to the class `c`. -/
inductive Reason (E : Env) (cksum : NodeId → Cksum) (h : Heap) (n : NodeId) (c : ClassId) : Prop where
  | leaf (leaf : h.layout.kind cksum n ≠ .dir)
      (alike : ∀ m, (h.node m).eqClass = some c → h.layout.kind cksum m = h.layout.kind cksum n)
  | joined {e} (dir : h.layout.kind cksum n = .dir)
      (leaves : ∀ m < h.numNodes, h.layout.kind cksum m ≠ .dir → h.IsEvaluated m)
      (joins : h.Joins E n e c)
  | founded (dir : h.layout.kind cksum n = .dir)
      (leaves : ∀ m < h.numNodes, h.layout.kind cksum m ≠ .dir → h.IsEvaluated m)
      (apart : h.StaysApart E n) (empty : (h.eqClass c).nodes = [])

theorem Move.cases_added (steady : h.Steady E cksum root) (move : Move E cksum h h') :
    h' = h.newClass.1 ∨ ∃ n c, Added E h n c h' ∧ Reason E cksum h n c := by
  obtain ⟨tree, weighs, hc, hs, hw⟩ := steady
  cases move with
  | newClass => exact Or.inl rfl
  | @leaf n c _ inside leaf fresh known alike all placed =>
    exact Or.inr ⟨n, c, placed.added weighs.exact fresh (childrenEvaluated_of_leaf tree leaf) inside,
      .leaf leaf alike⟩
  | @dir n c _ dir fresh ready leaves settled =>
    obtain ⟨x, hx⟩ := List.exists_mem_of_ne_nil _ (kind_eq_dir_iff.mp dir).2
    refine Or.inr ⟨n, c, settled.added weighs.exact hc fresh ready (tree.inside n x hx).1, ?_⟩
    cases settled with
    | joined joins _ => exact .joined dir leaves joins
    | founded apart _ => exact .founded dir leaves apart (hc.unallocated _ (Nat.le_refl _))

theorem Added.isEvaluated_iff (added : Added E h n c h') :
    h'.IsEvaluated m ↔ m = n ∨ h.IsEvaluated m := by
  simp only [IsEvaluated, added.eqClass]
  by_cases hm : m = n <;> simp [hm]

theorem Added.eqClass_of_evaluated (added : Added E h n c h') (hm : h.IsEvaluated m) :
    (h'.node m).eqClass = (h.node m).eqClass := by
  rw [added.eqClass, if_neg]
  rintro rfl
  exact added.fresh hm

/-- A node whose children were evaluated keeps their classes. -/
theorem Added.childSet (added : Added E h n c h') (ready : h.ChildrenEvaluated m) :
    h'.childSet m = h.childSet m := by
  ext d
  rw [mem_childSet, mem_childSet, children_of_layout added.layout]
  refine exists_congr fun x => and_congr_right fun hx => ?_
  rw [added.eqClass_of_evaluated (ready x hx)]

/-- The same for the children that hold files. -/
theorem Added.bearing (added : Added E h n c h') (ready : h.ChildrenEvaluated m) :
    h'.bearing m = h.bearing m := by
  ext d
  unfold Heap.bearing
  simp only [Set.mem_ofPred_eq, children_of_layout added.layout, added.layout]
  refine exists_congr fun x => and_congr_right fun hx => ?_
  rw [added.eqClass_of_evaluated (ready x hx)]

end Heap

end Dupa
