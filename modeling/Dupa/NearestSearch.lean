import Dupa.Bearing
import Dupa.Turns

/-!
# The search for the nearest directory

`PropagateEquivalence` looks for the nearest directory among those that share a child
class only. Every directory nearer than the tolerance is among them, so the search
decides like one over all evaluated directories, provided these have a distance: the
sums of each fit (`search_exhaustive`).
-/

namespace Dupa

open Checked

namespace Heap

def EvaluatedDir (h : Heap) (n : NodeId) : Prop := h.IsEvaluated n ∧ (h.node n).type = .dir

/-- What the documented search over all evaluated directories decides for `n`: every one
of them has a distance, and `n` joins a class just when some directory is nearer than the
tolerance, and then the class of a nearest one. -/
structure SearchAll (E : Env) (h : Heap) (n : NodeId) (choice : Option ClassId) : Prop where
  returns : ∀ m, h.EvaluatedDir m → ∃ d, h.nodeDistance E n m = .ok d
  joins : choice.isSome ↔
    ∃ m d, h.EvaluatedDir m ∧ h.nodeDistance E n m = .ok d ∧ d < E.tolerance
  nearest : ∀ c ∈ choice, ∃ m ∈ (h.eqClass c).nodes, h.EvaluatedDir m ∧
    ∃ d, h.nodeDistance E n m = .ok d ∧
      ∀ x d', h.EvaluatedDir x → h.nodeDistance E n x = .ok d' → d ≤ d'

variable {E : Env} {cksum : NodeId → Cksum} {root : NodeId} {h h' : Heap} {n m x c : Nat}

/-- Directories out of the search are out of tolerance. -/
theorem Weighted.equivalent_of_near (counts : E.Counts h.layout) (hc : h.Consistent)
    (hw : h.Weighted) (dir : (h.node n).type = .dir) (bears : h.layout.Bears n)
    (fresh : ¬ h.IsEvaluated n) (ready : h.ChildrenEvaluated n) (hm : h.IsEvaluated m)
    (near : h.distance E n m < E.tolerance) : h.Equivalent n m := by
  apply equivalent_of_bearing hc fresh hm
  apply hw.shares (Or.inl (bearing_nonempty dir bears ready))
  exact lt_of_lt_of_le near counts.tolerance_le_one

theorem classToJoin_exhaustive (counts : E.Counts h.layout) (tree : h.layout.IsTree root)
    (hc : h.Consistent) (hw : h.Weighted) (dir : (h.node n).type = .dir)
    (bears : h.layout.Bears n) (fresh : ¬ h.IsEvaluated n) (ready : h.ChildrenEvaluated n)
    (fits : ∀ m, h.EvaluatedDir m → h.Fits E n m) :
    ∃ choice, h.classToJoin E n = .ok choice ∧ h.SearchAll E n choice := by
  have returns : ∀ m, h.EvaluatedDir m → h.nodeDistance E n m = .ok (h.distance E n m) :=
    fun m hm => nodeDistance_ok hc hw.nonneg ready (hc.children_evaluated hm.1) dir (fits m hm)
  have seen : ∀ m, h.IsEvaluated m → h.distance E n m < E.tolerance → h.Equivalent n m :=
    fun m hm near => hw.equivalent_of_near counts hc dir bears fresh ready hm near
  have other : ∀ {p}, h.Equivalent n p → h.EvaluatedDir p := fun equivalent =>
    ⟨equivalent.candidate.2, (equivalent.nonemptyDir tree).1⟩
  obtain ⟨choice, hchoice⟩ := classToJoin_ok (E := E) hc hw.nonneg ready dir
    fun p equivalent => fits p (other equivalent)
  obtain ⟨chosen, -⟩ := of_classToJoin hc ready hchoice
  refine ⟨choice, hchoice, ?_⟩
  cases choice with
  | some c =>
    obtain ⟨e, joins⟩ := chosen
    have here := other joins.equivalent
    constructor
    · exact fun m hm => ⟨_, returns m hm⟩
    · exact iff_of_true rfl ⟨e, _, here, returns e here, joins.near⟩
    · rintro d ⟨⟩
      refine ⟨e, (hc.member e c).mp joins.eqClass, here, _, returns e here, ?_⟩
      intro x d' hx hd
      obtain rfl := Except.ok.inj (hd.symm.trans (returns x hx))
      by_cases near : h.distance E n x < E.tolerance
      · exact joins.nearest x (seen x hx.1 near)
      · exact le_trans (le_of_lt joins.near) (not_lt.mp near)
  | none =>
    constructor
    · exact fun m hm => ⟨_, returns m hm⟩
    · apply iff_of_false (by simp)
      rintro ⟨m, d, hm, hd, near⟩
      obtain rfl := Except.ok.inj (hd.symm.trans (returns m hm))
      exact absurd near (not_lt.mpr (chosen m (seen m hm.1 near)))
    · rintro d ⟨⟩

end Heap

/-- The turn for `n` puts it where `classToJoin` says, or in a new class. -/
theorem Propagation.Turn.chosen {E : Env} {cksum : NodeId → Cksum} {root n : NodeId}
    {s s' : Propagation} (turn : Turn E s n s') (sound : s.Sound cksum root)
    {choice : Option ClassId} (hchoice : s.heap.classToJoin E n = .ok choice) :
    (s'.heap.node n).eqClass = some (choice.getD s.heap.numClasses) := by
  obtain ⟨rest, choice', t, front, hchoice', hplace, rfl⟩ := turn.chose
  obtain rfl := Except.ok.inj (hchoice.symm.trans hchoice')
  have hc := sound.consistent
  obtain ⟨fresh, ready, -⟩ := sound.front front
  rw [pushParent_heap]
  cases choice with
  | some c =>
    obtain ⟨h', hadd, hplace⟩ := of_bind_ok hplace
    cases hplace
    obtain ⟨h'', hadd', placed⟩ := Heap.addNode_placed E c hc fresh ready
    obtain rfl := Except.ok.inj (hadd.symm.trans hadd')
    simp [placed.eqClass]
  | none =>
    obtain ⟨h', hadd, hplace⟩ := of_bind_ok hplace
    cases hplace
    obtain ⟨h'', hadd', placed⟩ := Heap.addNode_placed E s.heap.numClasses hc.newClass fresh ready
    obtain rfl := Except.ok.inj (hadd.symm.trans hadd')
    simp [placed.eqClass]

/-- In every state of `PropagateEquivalence` the restricted search decides for a ready
file-bearing directory like the one over all evaluated directories just when the sums of
its distances to all of these fit. -/
theorem search_exhaustive {E : Env} {cksum : NodeId → Cksum} {h : Heap} {root : NodeId}
    {sum2Node : Sum2Node} {s : Propagation} (fresh : h.Fresh root)
    (holds : sum2Node.Holds h.layout cksum) (counts : E.Counts h.layout)
    (reached : Propagation.Reached E h root sum2Node s) :
    ∀ n, (h.node n).type = .dir → h.layout.Bears n → s.heap.IsReadyToEvaluate n →
      ¬ s.heap.IsEvaluated n →
      ((∃ choice, s.heap.classToJoin E n = .ok choice ∧ s.heap.SearchAll E n choice ∧
        ∀ s', Propagation.Turn E s n s' →
          (s'.heap.node n).eqClass = some (choice.getD s.heap.numClasses)) ↔
        ∀ m, s.heap.EvaluatedDir m → s.heap.Fits E n m) := by
  intro n dir bears ready unevaluated
  obtain ⟨moves, sound⟩ := reached.moves fresh holds
  obtain ⟨-, hw⟩ := moves.weighted counts fresh
  have hc := sound.consistent
  have children := hc.ready_iff.mp ready
  constructor
  · rintro ⟨choice, -, all, -⟩ m hm
    obtain ⟨d, hd⟩ := all.returns m hm
    exact (Heap.of_nodeDistance children (hc.children_evaluated hm.1) hd).1
  · intro fits
    obtain ⟨choice, hchoice, all⟩ := Heap.classToJoin_exhaustive (moves.layout ▸ counts) sound.tree hc
      hw ((Heap.type_of_layout moves.layout n).trans dir) (moves.layout ▸ bears) unevaluated children
      fits
    exact ⟨choice, hchoice, all, fun s' turn => turn.chosen sound hchoice⟩

theorem search_exhaustive_twins :
    ∃ s choice, Propagation.Reached (.counting 10) (.ofEntries twins) 0 twinSums s ∧
      s.heap.classToJoin (.counting 10) 2 = .ok choice ∧ s.heap.SearchAll (.counting 10) 2 choice := by
  have after : Propagation.AfterTurns (.counting 10) twins twinSums 1 fun s =>
      s.heap.IsReadyToEvaluate 2 ∧ ¬ s.heap.IsEvaluated 2 := by
    decide +kernel
  obtain ⟨s, reached, ready, unevaluated⟩ := after.reached
  have counts : (Env.counting 10).Counts (Heap.ofEntries twins).layout :=
    ⟨Rounding.exact_counts _, Or.inl rfl, by decide⟩
  have bears : (Heap.ofEntries twins).layout.Bears 2 :=
    ⟨5, Forest.below_of_child (by decide) (Forest.below_refl 5), rfl⟩
  obtain ⟨moves, -⟩ := reached.moves twins_fresh twins_holds
  have nonneg := moves.nonneg counts.sized twins_fresh.nonneg
  obtain ⟨choice, hchoice, all, -⟩ :=
    (search_exhaustive twins_fresh twins_holds counts reached 2 rfl bears ready unevaluated).mpr
      fun _ _ => Heap.fits_of_unlimited rfl nonneg
  exact ⟨s, choice, reached, hchoice, all⟩

/-! ## A distance that is too large

Each of the two directories holds two files of the largest size, all of them different. -/

def strangers : List Entry :=
  [⟨.dir, "r", 0, none, [1, 2]⟩, ⟨.dir, "a", 0, some 0, [3, 4]⟩, ⟨.dir, "b", 0, some 0, [5, 6]⟩,
    ⟨.file, "x", 2 ^ 63 - 1, some 1, []⟩, ⟨.file, "y", 2 ^ 63 - 1, some 1, []⟩,
    ⟨.file, "z", 2 ^ 63 - 1, some 2, []⟩, ⟨.file, "w", 2 ^ 63 - 1, some 2, []⟩]

def strangerSums : Sum2Node := ⟨[(3, [3]), (4, [4]), (5, [5]), (6, [6])], by decide, by decide⟩

theorem strangers_fresh : (Heap.ofEntries strangers).Fresh 0 := Heap.ofEntries_fresh (by decide)

theorem strangers_holds : strangerSums.Holds (Heap.ofEntries strangers).layout UInt64.ofNat :=
  Sum2Node.holds_of_groups (by decide) (by decide) (by decide)

theorem strangers_counts : (Env.machine 20).Counts (Heap.ofEntries strangers).layout where
  rounding := Rounding.double_counts.mono (by decide)
  files := Or.inr (by
    rintro n ⟨inside, file⟩
    revert inside file
    change n < 7 → _
    revert n
    decide)
  atMostWhole := by decide

/-- The second directory founds a class, but it has no distance to the first. -/
theorem strangers_searched :
    ¬∀ (E : Env) (cksum : NodeId → Cksum) (h : Heap) (root : NodeId) (sum2Node : Sum2Node)
      (s : Propagation), h.Fresh root → sum2Node.Holds h.layout cksum → E.Counts h.layout →
      Propagation.Reached E h root sum2Node s →
      ∀ n, (h.node n).type = .dir → h.layout.Bears n → s.heap.IsReadyToEvaluate n →
        ¬ s.heap.IsEvaluated n →
        ∃ choice, s.heap.classToJoin E n = .ok choice ∧ s.heap.SearchAll E n choice ∧
          ∀ s', Propagation.Turn E s n s' →
            (s'.heap.node n).eqClass = some (choice.getD s.heap.numClasses) := by
  intro claim
  have after : Propagation.AfterTurns (.machine 20) strangers strangerSums 1 fun s =>
      s.heap.IsReadyToEvaluate 2 ∧ ¬ s.heap.IsEvaluated 2 ∧ s.heap.IsEvaluated 1 ∧
        (s.heap.node 1).type = .dir ∧
        ¬ Returns (fun _ => True) (s.heap.nodeDistance (.machine 20) 2 1) := by
    decide +kernel
  obtain ⟨s, reached, ready, unevaluated, evaluated, dir, undefined⟩ := after.reached
  have bears : (Heap.ofEntries strangers).layout.Bears 2 :=
    ⟨5, Forest.below_of_child (by decide) (Forest.below_refl 5), rfl⟩
  obtain ⟨choice, -, all, -⟩ := claim _ _ _ _ _ s strangers_fresh strangers_holds strangers_counts
    reached 2 rfl bears ready unevaluated
  obtain ⟨d, hd⟩ := all.returns 1 ⟨evaluated, dir⟩
  rw [hd] at undefined
  exact undefined trivial

end Dupa
