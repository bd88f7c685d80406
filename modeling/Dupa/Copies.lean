import Dupa.Nesting

/-!
# Runs that put only copies together

As long as the file-bearing directories of one class are content-identical
(`Pure`), classes do not drift: adding a copy leaves the weight of its class as
it was (`Even`), and directories that are not copies stay as far apart as when
the later of them was evaluated (`Apart`).
-/

namespace Dupa

namespace Heap

/-- Only content-identical file-bearing directories share a class. -/
def Pure (cksum : NodeId → Cksum) (h : Heap) : Prop :=
  ∀ a b, h.SameClass a b → h.layout.BearingDir a → h.layout.BearingDir b →
    h.layout.ContentIdentical cksum a b

/-- Once a non-empty directory is evaluated, all leaves are. -/
def LeavesFirst (cksum : NodeId → Cksum) (h : Heap) : Prop :=
  ∀ n, h.IsEvaluated n → h.layout.kind cksum n = .dir →
    ∀ m < h.numNodes, h.layout.kind cksum m ≠ .dir → h.IsEvaluated m

/-- File-bearing directories that are no copies are out of tolerance. -/
def Apart (E : Env) (cksum : NodeId → Cksum) (h : Heap) : Prop :=
  ∀ a b, h.IsEvaluated a → h.IsEvaluated b → h.layout.BearingDir a → h.layout.BearingDir b →
    ¬ h.layout.ContentIdentical cksum a b → E.tolerance ≤ h.distance E a b

/-- Averaging has moved no class. -/
def Even (h : Heap) : Prop := ∀ c, h.EvenClass c

/-- The weight of every class of files is the mean weight of its members. -/
def Averaged (E : Env) (h : Heap) : Prop :=
  ∀ c, (∀ n ∈ (h.eqClass c).nodes, (h.node n).type = .file) →
    (h.eqClass c).weight * (h.eqClass c).nodes.length =
      ((h.eqClass c).nodes.map fun n => if E.useSize then ((h.node n).size : ℚ) else 1).sum

/-- The classes with members have kept their weights. -/
def Keeps (h h' : Heap) : Prop :=
  ∀ n c, (h.node n).eqClass = some c → (h'.eqClass c).weight = (h.eqClass c).weight

variable {E : Env} {cksum : NodeId → Cksum} {root : NodeId} {h h' : Heap} {a b n m c : Nat}

/-! ## Frames -/

theorem Keeps.sum (keeps : h.Keeps h') :
    ∑ d ∈ h.childSet m, (h'.eqClass d).weight = ∑ d ∈ h.childSet m, (h.eqClass d).weight := by
  apply Finset.sum_congr rfl
  intro d hd
  obtain ⟨x, -, hx⟩ := mem_childSet.mp hd
  exact keeps x d hx

theorem Keeps.distance (keeps : h.Keeps h') (exact : E.rounding = .exact) (hw : h.Weighted)
    (hw' : h'.Weighted) (ha : h'.childSet a = h.childSet a) (hb : h'.childSet b = h.childSet b) :
    h'.distance E a b = h.distance E a b := by
  have same : ∀ m, ∀ d ∈ h.childSet m, h'.floorWeight d = h.floorWeight d := by
    intro m d hd
    obtain ⟨x, -, hx⟩ := mem_childSet.mp hd
    rw [floorWeight, floorWeight, keeps x d hx]
  have items : ∀ m d, d ∈ h.childSet m ∧ 0 < h'.floorWeight d ↔
      ∃ k ∈ h.childSet m, 0 < h.floorWeight k ∧ id k = d := by
    intro m d
    constructor
    · rintro ⟨hd, heavy⟩
      exact ⟨d, hd, same m d hd ▸ heavy, rfl⟩
    · rintro ⟨d, hd, heavy, rfl⟩
      exact ⟨hd, (same m d hd).symm ▸ heavy⟩
  rw [distance_exact exact hw.nonneg, distance_exact exact hw'.nonneg, ha, hb]
  refine Jaccard.dist_congr id (fun _ _ _ _ _ _ => id) (fun k hk _ => ?_) (items a) (items b)
  rcases Finset.mem_union.mp hk with hk | hk
  · exact same a k hk
  · exact same b k hk

/-- Distances see the file-bearing child classes only. -/
theorem Weighted.distance_congr (exact : E.rounding = .exact) (hw : h.Weighted)
    (same : h.bearing a = h.bearing b) : h.distance E a m = h.distance E b m := by
  have items : ∀ {x y}, h.bearing x = h.bearing y → ∀ d, d ∈ h.childSet x ∧ 0 < h.floorWeight d ↔
      ∃ k ∈ h.childSet y, 0 < h.floorWeight k ∧ id k = d := by
    intro x y same d
    rw [← hw.mem_bearing, same, hw.mem_bearing]
    simp
  rw [distance_exact exact hw.nonneg, distance_exact exact hw.nonneg]
  exact Jaccard.dist_congr id (fun _ _ _ _ _ _ => id) (fun _ _ _ => rfl) (items same) (items rfl)

theorem Weighted.sum_congr (hw : h.Weighted) (same : h.bearing a = h.bearing b) :
    ∑ d ∈ h.childSet a, (h.eqClass d).weight = ∑ d ∈ h.childSet b, (h.eqClass d).weight := by
  rw [hw.sum_bearing, hw.sum_bearing]
  congr 1
  ext d
  rw [Finset.mem_filter, Finset.mem_filter, ← hw.mem_bearing, same, hw.mem_bearing]

theorem Weighted.distance_comm (exact : E.rounding = .exact) (hw : h.Weighted) :
    h.distance E a b = h.distance E b a := by
  rw [distance_exact exact hw.nonneg, Jaccard.dist_comm, ← distance_exact exact hw.nonneg]

theorem Added.pure (added : Added E h n c h') (pure : h'.Pure cksum) : h.Pure cksum := by
  intro a b same hda hdb
  rw [← added.layout]
  exact pure a b (added.sameClass same) (added.layout ▸ hda) (added.layout ▸ hdb)

/-! ## One move -/

theorem Move.leavesFirst (steady : h.Steady E cksum root) (first : h.LeavesFirst cksum)
    (move : Move E cksum h h') : h'.LeavesFirst cksum := by
  rcases move.cases_added steady with rfl | ⟨n, c, added, reason⟩
  · exact first
  intro a ha hk m hm leaf
  rw [added.layout] at hk leaf
  rw [numNodes_of_layout added.layout] at hm
  refine added.isEvaluated_iff.mpr (Or.inr ?_)
  cases reason with
  | leaf leaf' _ =>
    rcases added.isEvaluated_iff.mp ha with rfl | ha
    · exact absurd hk leaf'
    · exact first a ha hk m hm leaf
  | joined _ leaves _ => exact leaves m hm leaf
  | founded _ leaves _ _ => exact leaves m hm leaf

theorem Averaged.newClass (hc : h.Consistent) (averaged : h.Averaged E) :
    h.newClass.1.Averaged E := by
  intro c files
  rw [newClass_nodes hc] at files ⊢
  rw [newClass_weight]
  split
  · subst c
    simp [hc.unallocated h.numClasses (Nat.le_refl _)]
  · exact averaged c files

theorem Move.averaged (steady : h.Steady E cksum root) (averaged : h.Averaged E)
    (move : Move E cksum h h') : h'.Averaged E := by
  have ⟨_, weighs, hc, _, _⟩ := steady
  rcases move.cases_added steady with rfl | ⟨n, c, added, _⟩
  · exact averaged.newClass hc
  have entry (m : NodeId) : (h'.node m).toEntry = (h.node m).toEntry :=
    congrArg (fun L : Layout => L.entry m) added.layout
  intro d files
  simp only [entry] at files ⊢
  by_cases hd : d = c
  · subst hd
    rw [added.nodes] at files ⊢
    have old := averaged d fun m hm => files m (List.mem_append_left _ hm)
    have own := ownWeight_file weighs.exact (files n (by simp))
    have count : (0 : ℚ) < (h.eqClass d).nodes.length + 1 := by positivity
    rw [added.weight, List.length_append, List.length_singleton, List.map_append, List.sum_append,
      ← old, own]
    push_cast
    rw [div_mul_cancel₀ _ (ne_of_gt count)]
    simp
  · rw [added.others d hd] at files ⊢
    exact averaged d files

theorem Fresh.averaged (fresh : h.Fresh root) : h.Averaged E := by
  intro c _
  simp [fresh.noClass]

/-- In a pure heap the new node is a copy of the one it joined. -/
theorem Added.copy (steady : h.Steady E cksum root) (tight : h.Tight) (pure : h'.Pure cksum)
    (added : Added E h n c h') {e : NodeId} (joins : h.Joins E n e c)
    (hn : h.layout.BearingDir n) : h.layout.BearingDir e ∧ h.layout.ContentIdentical cksum n e ∧
      h.bearing n = h.bearing e := by
  have ⟨tree, weighs, hc, _, hw⟩ := steady
  have eeval := joins.equivalent.candidate.2
  have edir := (joins.equivalent.nonemptyDir tree).1
  have he : h.layout.BearingDir e :=
    ⟨edir, (joins.bears weighs.counts hc hw hn.1 edir added.ready).mp hn.2⟩
  have same : h'.SameClass n e := by
    refine ⟨c, by rw [added.eqClass, if_pos rfl], ?_⟩
    rw [added.eqClass_of_evaluated eeval, joins.eqClass]
  have identical := pure n e same (added.layout ▸ hn) (added.layout ▸ he)
  rw [added.layout] at identical
  exact ⟨he, identical,
    tight.bearing_eq steady added.ready (hc.children_evaluated eeval) identical⟩

/-- Adding a copy leaves the weight of its class as it was. -/
theorem Added.keeps (steady : h.Steady E cksum root) (steady' : h'.Steady E cksum root)
    (tight : h.Tight) (even : h.Even) (pure : h'.Pure cksum) (added : Added E h n c h')
    (reason : Reason E cksum h n c) (dir : h.layout.kind cksum n = .dir) : h.Keeps h' := by
  have ⟨tree, weighs, hc, hs, hw⟩ := steady
  intro m d hm
  by_cases hd : d = c
  swap
  · rw [added.others d hd]
  subst hd
  have old := added.eqClass_of_evaluated (Heap.evaluated_of_eqClass hm)
  by_cases bears : h.layout.Bears m
  · cases reason with
    | leaf leaf _ => exact absurd dir leaf
    | founded _ _ _ empty =>
      have := (hc.member m d).mp hm
      simp [empty] at this
    | @joined e _ _ joins =>
      have type := (kind_eq_dir_iff.mp dir).1
      have edir := (joins.equivalent.nonemptyDir tree).1
      have fromJoined := joins.bears weighs.counts hc hw type edir added.ready
      have hn : h.layout.BearingDir n :=
        ⟨type, fromJoined.mpr ((hw.same_bears hm joins.eqClass).mp bears)⟩
      obtain ⟨he, -, same⟩ := added.copy steady tight pure joins hn
      have own : h.ownWeight E n = (h.eqClass d).weight := by
        rw [ownWeight_dir weighs.exact type, hw.sum_congr same, even d e joins.eqClass he]
      have count : ((h.eqClass d).nodes.length : ℚ) + 1 ≠ 0 := by positivity
      rw [added.weight, own]
      field_simp
  · have bears' : ¬ h'.layout.Bears m := added.layout ▸ bears
    rw [hw.weightless hm bears, steady'.weighted.weightless (old.trans hm) bears']

theorem keeps_newClass (hc : h.Consistent) : h.Keeps h.newClass.1 := fun _ _ hm => by
  rw [newClass_weight, if_neg (Nat.ne_of_lt (hc.known hm))]

/-- No file-bearing directory is evaluated before all leaves are. -/
theorem Added.no_dir_yet (first : h.LeavesFirst cksum) (added : Added E h n c h')
    (leaf : h.layout.kind cksum n ≠ .dir) (hm : h'.IsEvaluated m) :
    ¬ h.layout.BearingDir m := by
  intro hd
  have dir : h.layout.kind cksum m = .dir := kind_of_bearingDir hd
  rcases added.isEvaluated_iff.mp hm with rfl | hm
  · exact leaf dir
  · exact added.fresh (first m hm dir n added.inside leaf)

theorem Move.even (steady : h.Steady E cksum root) (first : h.LeavesFirst cksum)
    (tight : h.Tight) (even : h.Even) (pure : h'.Pure cksum) (move : Move E cksum h h') :
    h'.Even := by
  have steady' := move.steady steady
  rcases move.cases_added steady with rfl | ⟨n, c, added, reason⟩
  · intro d m hm hdm
    have keeps := keeps_newClass steady.consistent
    exact (keeps m d hm).trans ((even d m hm hdm).trans keeps.sum.symm)
  intro d m hm hdm
  have evaluated := Heap.evaluated_of_eqClass hm
  rw [added.layout] at hdm
  by_cases leaf : h.layout.kind cksum n ≠ .dir
  · exact absurd hdm (added.no_dir_yet first leaf evaluated)
  have dir := not_not.mp leaf
  have keeps := added.keeps steady steady' tight even pure reason dir
  rcases added.isEvaluated_iff.mp evaluated with rfl | old
  · rw [added.eqClass, if_pos rfl, Option.some.injEq] at hm
    subst hm
    rw [added.childSet added.ready, keeps.sum, ← ownWeight_dir steady.weighs.exact hdm.1]
    have count : ((h.eqClass c).nodes.length : ℚ) + 1 ≠ 0 := by positivity
    have mean := added.weight
    rw [eq_div_iff count] at mean
    cases reason with
    | leaf leaf _ => exact absurd dir leaf
    | joined _ _ joins =>
      have := keeps _ c joins.eqClass
      rw [← this] at mean
      linarith
    | founded _ _ _ empty =>
      simpa [empty] using mean
  · rw [added.eqClass_of_evaluated old] at hm
    rw [keeps m d hm, even d m hm hdm,
      added.childSet (steady.consistent.children_evaluated old), keeps.sum]

/-- A new node is out of tolerance of every directory it is no copy of. -/
theorem Added.apart (steady : h.Steady E cksum root) (tight : h.Tight) (apart : h.Apart E cksum)
    (pure : h'.Pure cksum) (added : Added E h n c h') (reason : Reason E cksum h n c)
    (hn : h.layout.BearingDir n) (hb : h.IsEvaluated b) (hdb : h.layout.BearingDir b)
    (different : ¬ h.layout.ContentIdentical cksum n b) : E.tolerance ≤ h.distance E n b := by
  have ⟨tree, weighs, hc, _, hw⟩ := steady
  cases reason with
  | leaf leaf _ => exact absurd (kind_of_bearingDir hn) leaf
  | @joined e _ _ joins =>
    obtain ⟨he, identical, same⟩ := added.copy steady tight pure joins hn
    rw [hw.distance_congr weighs.exact same]
    exact apart e b joins.equivalent.candidate.2 hb he hdb fun heb => different (identical.trans heb)
  | founded _ _ out _ =>
    by_contra near
    have near := lt_of_lt_of_le (not_le.mp near) weighs.counts.tolerance_le_one
    have common := hw.shares
      (Or.inl (bearing_nonempty hn.1 hn.2 added.ready)) near
    have := out b (equivalent_of_bearing hc added.fresh hb common)
    linarith

theorem Move.apart (steady : h.Steady E cksum root) (first : h.LeavesFirst cksum)
    (tight : h.Tight) (even : h.Even) (apart : h.Apart E cksum) (pure : h'.Pure cksum)
    (move : Move E cksum h h') : h'.Apart E cksum := by
  have steady' := move.steady steady
  have ⟨_, weighs, hc, _, hw⟩ := steady
  rcases move.cases_added steady with rfl | ⟨n, c, added, reason⟩
  · intro a b ha hb hda hdb different
    rw [(keeps_newClass hc).distance weighs.exact hw steady'.weighted rfl rfl]
    exact apart a b ha hb hda hdb different
  intro a b ha hb hda hdb different
  rw [added.layout] at hda hdb different
  by_cases leaf : h.layout.kind cksum n ≠ .dir
  · exact absurd hda (added.no_dir_yet first leaf ha)
  have keeps := added.keeps steady steady' tight even pure reason (not_not.mp leaf)
  have same {m : NodeId} (hm : h'.IsEvaluated m) : h'.childSet m = h.childSet m := by
    rcases added.isEvaluated_iff.mp hm with rfl | hm
    · exact added.childSet added.ready
    · exact added.childSet (hc.children_evaluated hm)
  rw [keeps.distance weighs.exact hw steady'.weighted (same ha) (same hb)]
  rcases added.isEvaluated_iff.mp ha with rfl | ha <;> rcases added.isEvaluated_iff.mp hb with rfl | hb
  · exact absurd (Layout.ContentIdentical.refl _) different
  · exact added.apart steady tight apart pure reason hda hb hdb different
  · rw [hw.distance_comm weighs.exact]
    exact added.apart steady tight apart pure reason hdb ha hda fun same => different same.symm
  · exact apart a b ha hb hda hdb different

/-! ## Every run -/

/-- What every run keeps when the tolerance is at least one percent. -/
structure Regular (E : Env) (cksum : NodeId → Cksum) (h : Heap) : Prop where
  inside : ∀ n, h.IsEvaluated n → n < h.numNodes
  first : h.LeavesFirst cksum
  averaged : h.Averaged E
  tight : h.Tight
  even : h.Pure cksum → h.Even
  apart : h.Pure cksum → h.Apart E cksum

theorem Fresh.regular (fresh : h.Fresh root) : h.Regular E cksum where
  inside := fun a ha => absurd ha (fresh.not_evaluated a)
  first := fun a ha => absurd ha (fresh.not_evaluated a)
  averaged := fresh.averaged
  tight := fresh.tight
  even := fun _ c n hn => by simp [fresh.unevaluated] at hn
  apart := fun _ a _ ha => absurd ha (fresh.not_evaluated a)

theorem Move.pure (steady : h.Steady E cksum root) (pure : h'.Pure cksum)
    (move : Move E cksum h h') : h.Pure cksum := by
  rcases move.cases_added steady with rfl | ⟨n, c, added, _⟩
  · exact pure
  · exact added.pure pure

theorem Move.regular (positive : 1 ≤ E.tolerableDiffPct) (steady : h.Steady E cksum root)
    (regular : h.Regular E cksum) (move : Move E cksum h h') : h'.Regular E cksum := by
  obtain ⟨inside, first, averaged, tight, even, apart⟩ := regular
  refine ⟨move.inside steady.tree inside, move.leavesFirst steady first, move.averaged steady averaged,
    move.tight positive steady tight, fun pure => ?_, fun pure => ?_⟩
  · exact move.even steady first tight (even (move.pure steady pure)) pure
  · have before := move.pure steady pure
    exact move.apart steady first tight (even before) (apart before) pure

end Heap

end Dupa
