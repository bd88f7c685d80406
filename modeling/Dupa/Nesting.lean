import Dupa.Content

/-!
# Directories inside their duplicates

Nothing keeps a directory from joining the class of one of its descendants:
averaging can bring the two together (`nested_in_one_class`). Where the classes on the
way from the one to the other weigh exactly what the directories in them do, it cannot
happen (`no_nested_duplicates`): an ancestor in the class would have one file-bearing
child class of its own weight, so would every member, and the descendant would
hand the situation down to its own children, which are in the same classes again.
-/

namespace Dupa

namespace Heap

/-- Averaging has not moved the class away from what its directories weigh. -/
def EvenClass (h : Heap) (c : ClassId) : Prop :=
  ∀ n, (h.node n).eqClass = some c → h.layout.BearingDir n →
    (h.eqClass c).weight = ∑ d ∈ h.childSet n, (h.eqClass d).weight

/-- Nor any class of a directory on the way from `a` down to `b`. -/
def EvenAbove (h : Heap) (a b : NodeId) : Prop :=
  ∀ n c, Forest.Below h.layout.children a n → Forest.Below h.layout.children n b → n ≠ b →
    (h.node n).eqClass = some c → h.EvenClass c

/-- Two nodes of one class that also have a file-bearing child class in common. -/
def Share (h : Heap) (a b : NodeId) : Prop :=
  h.SameClass a b ∧ (h.bearing a ∩ h.bearing b).Nonempty

/-- File-bearing directories of one class are linked by such pairs. -/
def Chained (h : Heap) : Prop :=
  ∀ a b, h.SameClass a b → h.layout.BearingDir a → h.layout.BearingDir b →
    Relation.ReflTransGen h.Share a b

variable {E : Env} {cksum : NodeId → Cksum} {root : NodeId} {h h' : Heap} {a b n c : Nat}

/-! ## Classes are chained -/

theorem Share.symm (share : h.Share a b) : h.Share b a :=
  ⟨share.1.symm, by rw [Set.inter_comm]; exact share.2⟩

instance : Std.Symm h.Share := ⟨fun _ _ => Share.symm⟩

/-- The classmates of a file-bearing directory are such directories too. -/
theorem Steady.bearingDir (steady : h.Steady E cksum root) (hda : h.layout.BearingDir a)
    (same : h.SameClass a b) : h.layout.BearingDir b := by
  obtain ⟨c, ha, hb⟩ := same
  have dir := (steady.sorted.alike hb ha).trans (kind_of_bearingDir hda)
  exact ⟨(kind_eq_dir_iff.mp dir).1, (steady.weighted.same_bears ha hb).mp hda.2⟩

theorem Added.share (hc : h.Consistent) (added : Added E h n c h') (share : h.Share a b) :
    h'.Share a b := by
  obtain ⟨⟨d, ha, hb⟩, common⟩ := share
  refine ⟨added.sameClass ⟨d, ha, hb⟩, ?_⟩
  rwa [added.bearing (hc.children_evaluated (Heap.evaluated_of_eqClass ha)),
    added.bearing (hc.children_evaluated (Heap.evaluated_of_eqClass hb))]

theorem Move.chained (steady : h.Steady E cksum root) (chained : h.Chained)
    (move : Move E cksum h h') : h'.Chained := by
  have ⟨tree, weighs, hc, hs, hw⟩ := steady
  rcases move.cases_added steady with rfl | ⟨n, c, added, reason⟩
  · exact chained
  have new : (h'.node n).eqClass = some c := by rw [added.eqClass, if_pos rfl]
  -- A chain leads from the new node to any other member.
  have link : h.layout.BearingDir n → ∀ b, (h.node b).eqClass = some c → h.layout.BearingDir b →
      Relation.ReflTransGen h'.Share n b := by
    intro bearingDir b hb hdb
    cases reason with
    | leaf leaf _ => exact absurd (kind_of_bearingDir bearingDir) leaf
    | @joined e _ _ joins =>
      have edir := (joins.equivalent.nonemptyDir tree).1
      have ebears := (joins.bears weighs.counts hc hw bearingDir.1 edir added.ready).mp bearingDir.2
      have eeval := joins.equivalent.candidate.2
      have common := hw.shares
        (Or.inl (bearing_nonempty bearingDir.1 bearingDir.2 added.ready))
        (lt_of_lt_of_le joins.near weighs.counts.tolerance_le_one)
      have first : h'.Share n e := by
        refine ⟨⟨c, new, (added.eqClass_of_evaluated eeval).trans joins.eqClass⟩, ?_⟩
        rwa [added.bearing added.ready, added.bearing (hc.children_evaluated eeval)]
      refine .head first ?_
      exact Relation.ReflTransGen.mono (fun _ _ share => added.share hc share) _ _
        (chained e b ⟨c, joins.eqClass, hb⟩ ⟨edir, ebears⟩ hdb)
    | founded _ _ _ empty =>
      have := (hc.member b c).mp hb
      simp [empty] at this
  rintro a b ⟨d, ha, hb⟩ hda hdb
  rw [added.layout] at hda hdb
  rw [added.eqClass] at ha hb
  split at ha <;> split at hb
  · subst a; subst b; exact .refl
  · subst a
    obtain rfl := Option.some.inj ha
    exact link hda b hb hdb
  · subst b
    obtain rfl := Option.some.inj hb
    exact Std.Symm.symm _ _ (link hdb a ha hda)
  · exact Relation.ReflTransGen.mono (fun _ _ share => added.share hc share) _ _
      (chained a b ⟨d, ha, hb⟩ hda hdb)

theorem Fresh.chained (fresh : h.Fresh root) : h.Chained := by
  rintro a b ⟨c, ha, -⟩
  simp [fresh.unevaluated] at ha

/-! ## Classes without drift -/

/-- A child class that weighs as much as all of them is the only one that
weighs anything. -/
theorem Weighted.single (hw : h.Weighted) {j : ClassId} (hj : j ∈ h.bearing n)
    (most : ∑ c ∈ h.childSet n, (h.eqClass c).weight ≤ (h.eqClass j).weight) :
    h.bearing n = {j} := by
  ext d
  rw [Set.mem_singleton_iff]
  constructor
  · intro hd
    by_contra hne
    have hjc := (hw.mem_bearing.mp hj).1
    have hdc : d ∈ (h.childSet n).erase j := Finset.mem_erase.mpr ⟨hne, (hw.mem_bearing.mp hd).1⟩
    rw [← Finset.add_sum_erase _ _ hjc] at most
    obtain ⟨x, -, bears, hxd⟩ := hd
    have heavy := hw.bears hxd bears
    have := Finset.single_le_sum (f := fun c => (h.eqClass c).weight)
      (fun c _ => hw.nonneg c) hdc
    linarith
  · rintro rfl
    exact hj

theorem EvenClass.single_of_share (steady : h.Steady E cksum root) (even : h.EvenClass c)
    (ha : (h.node a).eqClass = some c) (hda : h.layout.BearingDir a) {j : ClassId}
    (single : h.bearing a = {j}) (share : h.Share a b) : h.bearing b = {j} := by
  have ⟨_, _, hc, _, hw⟩ := steady
  have hdb := steady.bearingDir hda share.1
  obtain ⟨⟨c', ha', hb⟩, d, hd, hdb'⟩ := share
  obtain rfl := Option.some.inj (ha.symm.trans ha')
  rw [single, Set.mem_singleton_iff] at hd
  subst hd
  apply hw.single hdb'
  rw [← even b hb hdb, even a ha hda, hw.sum_bearing]
  have only : (h.childSet a).filter (fun c => 0 < h.floorWeight c) = {d} := by
    ext x
    rw [Finset.mem_filter, ← hw.mem_bearing, single]
    simp
  rw [only, Finset.sum_singleton]

theorem EvenClass.single_of_chain (steady : h.Steady E cksum root) (even : h.EvenClass c)
    (ha : (h.node a).eqClass = some c) (hda : h.layout.BearingDir a) {j : ClassId}
    (single : h.bearing a = {j}) (chain : Relation.ReflTransGen h.Share a b) :
    h.bearing b = {j} := by
  have all : (h.node b).eqClass = some c ∧ h.layout.BearingDir b ∧ h.bearing b = {j} := by
    induction chain with
    | refl => exact ⟨ha, hda, single⟩
    | tail _ share ih =>
      obtain ⟨here, dir, only⟩ := ih
      obtain ⟨d, hd, there⟩ := share.1
      obtain rfl := Option.some.inj (here.symm.trans hd)
      exact ⟨there, steady.bearingDir dir share.1, even.single_of_share steady here dir only share⟩
  exact all.2.2

/-- Going down, the upper node of a step is above the lower end. -/
theorem EvenAbove.even (even : h.EvenAbove a b) (tree : h.layout.IsTree root) {p x : NodeId}
    (above : Forest.Below h.layout.children a p) (hx : x ∈ h.layout.children p)
    (below : Forest.Below h.layout.children x b) (hp : (h.node p).eqClass = some c) :
    h.EvenClass c := by
  apply even p c above (Forest.below_of_child hx below) _ hp
  rintro rfl
  exact tree.forest.not_below hx below

theorem EvenAbove.child (even : h.EvenAbove a b) {x : NodeId} (hx : x ∈ h.layout.children a) :
    h.EvenAbove x b :=
  fun n c above => even n c (Forest.below_of_child hx above)

/-- A class weighs at least as much as any below it. -/
theorem EvenAbove.weight_le (even : h.EvenAbove a b) (tree : h.layout.IsTree root)
    (hc : h.Consistent) (hw : h.Weighted) {c d : ClassId}
    (below : Forest.Below h.layout.children a b) (ha : (h.node a).eqClass = some c)
    (hb : (h.node b).eqClass = some d) : (h.eqClass d).weight ≤ (h.eqClass c).weight := by
  induction below using Relation.ReflTransGen.head_induction_on generalizing c with
  | refl => rw [Option.some.inj (hb.symm.trans ha)]
  | @head p x hx below ih =>
    obtain ⟨e, he⟩ := isEvaluated_iff.mp
      (hc.children_evaluated (evaluated_of_eqClass ha) x hx)
    apply le_trans (ih (even.child hx) he)
    by_cases bears : h.layout.Bears x
    · have dir := tree.inner p x hx
      rw [even.even tree (Forest.below_refl p) hx below ha p ha
        ⟨dir, (bears_dir dir).mpr ⟨x, hx, bears⟩⟩]
      exact Finset.single_le_sum (fun d _ => hw.nonneg d) (mem_childSet.mpr ⟨x, hx, he⟩)
    · rw [hw.weightless he bears]
      exact hw.nonneg c

/-- The class of the lower end is that of the upper one, so one may go on below it. -/
theorem EvenAbove.descend (even : h.EvenAbove a b) (tree : h.layout.IsTree root)
    (same : h.SameClass a b) {x y : NodeId} (hx : x ∈ h.layout.children a)
    (below : Forest.Below h.layout.children x b) (hy : y ∈ h.layout.children b) :
    h.EvenAbove x y := by
  intro n d above further ne hn
  rcases Relation.ReflTransGen.cases_tail further with rfl | ⟨p, down, child⟩
  · exact absurd rfl ne
  obtain rfl := tree.forest.unique child hy
  by_cases last : n = p
  · subst last
    obtain ⟨c, ha, hb⟩ := same
    obtain rfl := Option.some.inj (hb.symm.trans hn)
    exact even.even tree (Forest.below_refl a) hx below ha
  · exact even n d (Forest.below_of_child hx above) down last hn

/-- By induction on the upper directory. -/
theorem EvenAbove.not_nested (steady : h.Steady E cksum root) (chained : h.Chained)
    (even : h.EvenAbove a b) (hda : h.layout.BearingDir a)
    (below : Forest.Below h.layout.children a b) (ne : b ≠ a) : ¬ h.SameClass a b := by
  have ⟨tree, weighs, hc, hs, hw⟩ := steady
  induction a using tree.forest.induction generalizing b with
  | step a ih =>
    intro same
    obtain ⟨c, ha, hb⟩ := id same
    obtain ⟨x, hx, below⟩ := (Forest.below_iff.mp below).resolve_left ne
    obtain ⟨bdir, bears⟩ := steady.bearingDir hda same
    have evenC : h.EvenClass c := even.even tree (Forest.below_refl a) hx below ha
    have xbears : h.layout.Bears x := by
      obtain ⟨m, hm, file⟩ := bears
      exact ⟨m, Forest.below_trans below hm, file⟩
    obtain ⟨j, hj⟩ := isEvaluated_iff.mp
      (hc.children_evaluated (evaluated_of_eqClass ha) x hx)
    -- The child on the way down weighs what the class does, so nothing else does.
    have single : h.bearing a = {j} := by
      refine hw.single ⟨x, hx, xbears, hj⟩ ?_
      rw [← evenC a ha hda]
      exact (even.child hx).weight_le tree hc hw below hj hb
    have same' : h.bearing b = {j} :=
      evenC.single_of_chain steady ha hda single (chained a b same hda ⟨bdir, bears⟩)
    obtain ⟨y, hy, ybears, hyj⟩ : j ∈ h.bearing b := same' ▸ Set.mem_singleton j
    have xdir : (h.node x).type = .dir := by
      rcases Forest.below_iff.mp below with rfl | ⟨z, hz, -⟩
      · exact bdir
      · exact tree.inner x z hz
    refine ih x hx (even.descend tree same hx below hy) ⟨xdir, xbears⟩
      (Forest.below_child below hy) ?_ ⟨j, hj, hyj⟩
    rintro rfl
    exact tree.forest.not_below hy below

end Heap

/-- No file-bearing directory is in the class of one of its proper descendants if
averaging has moved none of the classes on the way there. -/
theorem no_nested_duplicates (E : Env) (cksum : NodeId → Cksum) {h : Heap} {root : NodeId}
    {sum2Node : Sum2Node} (fresh : h.Fresh root) (holds : sum2Node.Holds h.layout cksum)
    (weighs : E.Weighs h.layout) :
    ∃ h' eqClasses, classify E h root sum2Node = .ok (h', eqClasses) ∧
      ∀ a b, h.layout.BearingDir a → Forest.Below h.layout.children a b → b ≠ a →
        h'.EvenAbove a b → ¬ h'.SameClass a b := by
  obtain ⟨h', eqClasses, run, done⟩ :=
    Propagation.classify_exact weighs.exact fresh holds weighs.counts.sized
  refine ⟨h', eqClasses, run, fun a b hda below ne even => ?_⟩
  obtain ⟨steady, chained⟩ := Heap.Moves.keep (fresh.steady weighs)
    (fun steady chained move => move.chained steady chained) fresh.chained done.moves
  have layout := done.moves.layout
  exact even.not_nested steady chained (layout ▸ hda) (layout ▸ below) ne

/-- The non-empty directories below `bound` weigh what their classes do. -/
def EvenBelow (bound : ℕ) (result : Except Fault (Heap × List ClassId)) : Prop :=
  match result with
  | .ok s => ∀ n < bound, ∀ c ∈ (s.1.node n).eqClass, (s.1.node n).children ≠ [] →
      (s.1.eqClass c).weight = (((s.1.classList n).dedup).map fun d => (s.1.eqClass d).weight).sum
  | .error _ => False

instance (bound : ℕ) (result : Except Fault (Heap × List ClassId)) :
    Decidable (EvenBelow bound result) :=
  match result with
  | .ok _ => inferInstanceAs (Decidable (∀ n < bound, _))
  | .error _ => isFalse id

theorem Heap.Classified.even {E : Env} {cksum : NodeId → Cksum} {h h' : Heap}
    {eqClasses : List ClassId} (done : Classified E cksum h h' eqClasses)
    (each : EvenBelow h.numNodes (.ok (h', eqClasses))) (c : ClassId) : h'.EvenClass c := by
  intro n hn hd
  have inside := (done.evaluated n).mp (evaluated_of_eqClass hn)
  obtain ⟨x, hx, -⟩ := (bears_dir hd.1).mp hd.2
  rw [each n inside c hn (List.ne_nil_of_mem hx)]
  exact HashOrder.insertion.sum_visit _ _

theorem no_nested_duplicates_twins :
    ∃ h' eqClasses, classify (.counting 10) (.ofEntries twins) 0 twinSums = .ok (h', eqClasses) ∧
      h'.EvenAbove 0 1 ∧ ¬ h'.SameClass 0 1 := by
  obtain ⟨h', eqClasses, run, apart⟩ := no_nested_duplicates (.counting 10) _ twins_fresh twins_holds
    ⟨rfl, Or.inl rfl, by decide⟩
  have done := Propagation.of_classify twins_fresh twins_holds run
  have each : EvenBelow 6 (classify (.counting 10) (.ofEntries twins) 0 twinSums) := by
    decide +kernel
  rw [run] at each
  have even : h'.EvenAbove 0 1 := fun n c _ _ _ _ => done.even each c
  have below : Forest.Below (Heap.ofEntries twins).layout.children 0 1 :=
    Forest.below_child (Forest.below_refl 0) (by decide)
  have file : Forest.Below (Heap.ofEntries twins).layout.children 0 4 :=
    Forest.below_child below (by decide)
  exact ⟨h', eqClasses, run, even, apart 0 1 ⟨rfl, 4, file, rfl⟩ below (by decide) even⟩

/-! ## A directory in the class of its child -/

theorem nested_in_one_class :
    classAfter (classify (.sizing 50) (.ofEntries nested) 0 nestedSums) 2 = some 3 ∧
      classAfter (classify (.sizing 50) (.ofEntries nested) 0 nestedSums) 3 = some 3 := by
  decide +kernel

theorem nested_duplicates :
    ¬ ∀ (E : Env) (cksum : NodeId → Cksum) (h : Heap) (root : NodeId) (sum2Node : Sum2Node),
      h.Fresh root → sum2Node.Holds h.layout cksum → E.Weighs h.layout →
      1 ≤ E.tolerableDiffPct → E.tolerableDiffPct ≤ 50 →
      ∀ h' eqClasses, classify E h root sum2Node = .ok (h', eqClasses) →
        ∀ a b, h.layout.IsDir a → Forest.Below h.layout.children a b → b ≠ a →
          ¬ h'.SameClass a b := by
  intro claim
  have weighs : (Env.sizing 50).Weighs (Heap.ofEntries nested).layout :=
    ⟨rfl, Or.inr fun _ file => Heap.ofEntries_atLeast (by decide) file, by decide⟩
  obtain ⟨h', eqClasses, run, -⟩ :=
    Propagation.classify_exact weighs.exact nested_fresh nested_holds weighs.counts.sized
  have below : Forest.Below (Heap.ofEntries nested).layout.children 2 3 :=
    Forest.below_child (Forest.below_refl 2) (by decide)
  refine claim _ _ _ _ _ nested_fresh nested_holds weighs (by decide) (by decide) h' eqClasses run
    2 3 (by decide) below (by decide) ⟨3, ?_, ?_⟩
  · simpa only [run, classAfter] using nested_in_one_class.1
  · simpa only [run, classAfter] using nested_in_one_class.2

end Dupa
