import Mathlib.Tactic.Linarith
import Dupa.Consistent
import Dupa.FuzzyDedup

/-!
# The class a ready node joins

On a consistent heap a node joins the class of a nearest of its equivalents if that
one is nearer than the tolerance, and a new class otherwise, whatever the arithmetic
rounds to (`of_classToJoin`). `GetPossibleEquivalents`, `NodeDistance` and
`GetClosestNode` fail no assert, provided no class weighs less than nothing and the
sums `NodeDistance` takes stay in the range of a `uint64_t` (`classToJoin_ok`).
-/

namespace Dupa

open Checked

/-- `tolerable_diff_pct_ / 100.` -/
def Env.tolerance (E : Env) : ℚ := E.rounding.rnd (E.tolerableDiffPct / 100)

namespace Heap

variable {E : Env} {h : Heap} {n m p : NodeId}

/-- `p` is another evaluated node with a child in the class of a child of `n`. -/
def Equivalent (h : Heap) (n p : NodeId) : Prop :=
  ∃ child ∈ (h.node n).children, ∃ c, (h.node child).eqClass = some c ∧
    ∃ q, (h.node q).eqClass = some c ∧ q ≠ child ∧
      (h.node q).parent = some p ∧ h.IsEvaluated p ∧ p ≠ n

/-- What `equivalentParent` answers when it fails no check. -/
def otherParent (h : Heap) (n child q : NodeId) : Option NodeId :=
  (h.node q).parent.filter fun p => q ≠ child ∧ h.IsEvaluated p ∧ p ≠ n

/-- The members of the class of a child. -/
def classmates (h : Heap) (child : NodeId) : List NodeId :=
  ((h.node child).eqClass.map fun c => (h.eqClass c).nodes).getD []

theorem equivalentParent_ok {child q : NodeId} (hq : h.IsEvaluated q) :
    h.equivalentParent n child q = .ok (h.otherParent n child q) := by
  unfold equivalentParent otherParent
  rw [ensure_bind hq]
  cases (h.node q).parent with
  | none => rfl
  | some p =>
    by_cases hp : q ≠ child ∧ h.IsEvaluated p ∧ p ≠ n
    · simp [hp, Option.filter, pure, Except.pure]
    · simp [hp, Option.filter, pure, Except.pure]

theorem classmates_ok (hc : h.Consistent) {child : NodeId} (hchild : h.IsEvaluated child) :
    (do let c ← h.getEqClass child
        (h.eqClass c).nodes.mapM (h.equivalentParent n child)) =
      (.ok ((h.classmates child).map (h.otherParent n child)) : Except Fault _) := by
  obtain ⟨c, hcl⟩ := isEvaluated_iff.mp hchild
  rw [getEqClass_ok hcl, ok_bind]
  simp only [classmates, hcl, Option.map_some, Option.getD_some]
  exact mapM_ok fun q hq => equivalentParent_ok (hc.evaluated_of_mem hq)

theorem mem_classmates (hc : h.Consistent) {child q : NodeId} :
    q ∈ h.classmates child ↔ ∃ c, (h.node child).eqClass = some c ∧ (h.node q).eqClass = some c := by
  unfold classmates
  cases hcl : (h.node child).eqClass with
  | none => simp
  | some c => simp [hc.member q c]

theorem getPossibleEquivalents_ok (hc : h.Consistent) (hn : h.ChildrenEvaluated n) :
    ∃ nodes, h.getPossibleEquivalents E n = .ok nodes ∧ ∀ p, p ∈ nodes ↔ h.Equivalent n p := by
  refine ⟨E.nodeOrder.visit (((h.node n).children.map fun child =>
    (h.classmates child).map (h.otherParent n child)).flatten.filterMap id), ?_, fun p => ?_⟩
  · unfold getPossibleEquivalents
    rw [ensure_bind (hc.ready_iff.mpr hn),
      mapM_ok fun child hchild => classmates_ok hc (hn child hchild)]
    rfl
  · rw [E.nodeOrder.mem, List.mem_filterMap]
    simp only [id_eq, exists_eq_right, List.mem_flatten, List.mem_map, exists_exists_and_eq_and,
      mem_classmates hc, otherParent, Option.filter_eq_some_iff, decide_eq_true_eq]
    constructor
    · rintro ⟨child, hchild, q, ⟨c, hcl, hq⟩, hp, hne, hev, hpn⟩
      exact ⟨child, hchild, c, hcl, q, hq, hne, hp, hev, hpn⟩
    · rintro ⟨child, hchild, c, hcl, q, hq, hne, hp, hev, hpn⟩
      exact ⟨child, hchild, q, ⟨c, hcl, hq⟩, hp, hne, hev, hpn⟩

/-! ## The distance -/

/-- `addClass`, where both sums stay in range. -/
def sumClass (E : Env) (h : Heap) (shared : ClassId → Bool) (sums : ℕ × ℕ) (c : ClassId) : ℕ × ℕ :=
  (E.rounding.add sums.1 (h.eqClass c).weight,
    if shared c then sums.2 else E.rounding.add sums.2 (h.eqClass c).weight)

/-- The two sums `NodeDistance` accumulates, of the union and of the symmetric
difference of the child classes. -/
def sums (E : Env) (h : Heap) (n m : NodeId) : ℕ × ℕ :=
  (E.classOrder.visit ((h.classList m).filter (· ∉ h.classList n))).foldl
    (h.sumClass E fun _ => false)
    ((E.classOrder.visit (h.classList n)).foldl (h.sumClass E (· ∈ h.classList m)) (0, 0))

/-- What `NodeDistance` returns when it fails no check. -/
def distance (E : Env) (h : Heap) (n m : NodeId) : ℚ :=
  if (h.sums E n m).1 = 0 then 0
  else E.rounding.rnd (E.rounding.rnd (h.sums E n m).2 / E.rounding.rnd (h.sums E n m).1)

/-- The weights of the child classes of `n` and `m`, in the order in which
`NodeDistance` adds them to its sum. -/
def unionWeights (E : Env) (h : Heap) (n m : NodeId) : List ℚ :=
  (E.classOrder.visit (h.classList n) ++
    E.classOrder.visit ((h.classList m).filter (· ∉ h.classList n))).map fun c =>
      (h.eqClass c).weight

/-- The sum of the union stays in the range of a `uint64_t`. -/
def Fits (E : Env) (h : Heap) (n m : NodeId) : Prop := E.rounding.AddsUp 0 (h.unionWeights E n m)

instance (n m : NodeId) : Decidable (h.Fits E n m) :=
  inferInstanceAs (Decidable (E.rounding.AddsUp _ _))

/-- The sum survives a conversion, and the difference is not above it. -/
def SumsInOrder (R : Rounding) (s : ℕ × ℕ) : Prop := s.2 ≤ s.1 ∧ R.Fixed s.1

section
variable {shared : ClassId → Bool} {l : List ClassId} {s s' : ℕ × ℕ}

theorem of_addWeight {sum sum' : ℕ} {weight : ℚ} (added : addWeight E sum weight = .ok sum') :
    E.rounding.InRange (E.rounding.plus sum weight) ∧ sum' = E.rounding.add sum weight := by
  obtain ⟨range, added⟩ := of_ensure_ok added
  cases added
  exact ⟨range, rfl⟩

theorem addWeight_ok {sum : ℕ} {weight : ℚ}
    (range : E.rounding.InRange (E.rounding.plus sum weight)) :
    addWeight E sum weight = .ok (E.rounding.add sum weight) :=
  ensure_bind range

theorem of_addClass {c : ClassId} (added : h.addClass E shared s c = .ok s') :
    E.rounding.InRange (E.rounding.plus s.1 (h.eqClass c).weight) ∧ s' = h.sumClass E shared s c := by
  obtain ⟨sum, hsum, added⟩ := of_bind_ok added
  obtain ⟨range, rfl⟩ := of_addWeight hsum
  refine ⟨range, ?_⟩
  by_cases both : shared c
  · simp only [both, if_true] at added
    cases added
    simp [sumClass, both]
  · simp only [both, Bool.false_eq_true, if_false] at added
    obtain ⟨diff, hdiff, added⟩ := of_bind_ok added
    obtain ⟨-, rfl⟩ := of_addWeight hdiff
    cases added
    simp [sumClass, both]

/-- The sums that are returned have stayed in range. -/
theorem of_foldlM_addClass (added : l.foldlM (h.addClass E shared) s = .ok s') :
    E.rounding.AddsUp s.1 (l.map fun c => (h.eqClass c).weight) ∧
      s' = l.foldl (h.sumClass E shared) s := by
  induction l generalizing s with
  | nil =>
    cases added
    exact ⟨trivial, rfl⟩
  | cons c l ih =>
    rw [List.foldlM_cons] at added
    obtain ⟨t, turn, added⟩ := of_bind_ok added
    obtain ⟨range, rfl⟩ := of_addClass turn
    obtain ⟨fits, rfl⟩ := ih added
    exact ⟨⟨range, fits⟩, rfl⟩

theorem foldl_sumClass_fst : (l.foldl (h.sumClass E shared) s).1 =
    (l.map fun c => (h.eqClass c).weight).foldl E.rounding.add s.1 := by
  induction l generalizing s with
  | nil => rfl
  | cons c l ih => exact ih

variable (hw : ∀ c, 0 ≤ (h.eqClass c).weight)
include hw

theorem sumClass_inOrder (hs : SumsInOrder E.rounding s) (c : ClassId) :
    SumsInOrder E.rounding (h.sumClass E shared s c) := by
  refine ⟨?_, Rounding.fixed_add (hw c)⟩
  unfold sumClass
  dsimp only
  split
  · exact Nat.le_trans hs.1 (hs.2.le_add (hw c))
  · exact Rounding.add_mono hs.1 _

theorem foldl_inOrder (hs : SumsInOrder E.rounding s) :
    SumsInOrder E.rounding (l.foldl (h.sumClass E shared) s) := by
  induction l generalizing s with
  | nil => exact hs
  | cons c l ih => exact ih (sumClass_inOrder hw hs c)

/-- The difference is in range as it is not above the sum. -/
theorem addClass_ok {c : ClassId} (hs : SumsInOrder E.rounding s)
    (range : E.rounding.InRange (E.rounding.plus s.1 (h.eqClass c).weight)) :
    h.addClass E shared s c = .ok (h.sumClass E shared s c) := by
  unfold addClass sumClass
  rw [addWeight_ok range, ok_bind]
  by_cases both : shared c
  · simp only [both, if_true]
    rfl
  · have below := range.of_le (Rounding.plus_nonneg (hw c)) (Rounding.plus_mono hs.1 _)
    simp only [both, Bool.false_eq_true, if_false]
    rw [addWeight_ok below]
    rfl

theorem foldlM_addClass_ok (hs : SumsInOrder E.rounding s)
    (fits : E.rounding.AddsUp s.1 (l.map fun c => (h.eqClass c).weight)) :
    l.foldlM (h.addClass E shared) s = .ok (l.foldl (h.sumClass E shared) s) := by
  induction l generalizing s with
  | nil => rfl
  | cons c l ih =>
    rw [List.foldlM_cons, addClass_ok hw hs fits.1, ok_bind]
    exact ih (sumClass_inOrder hw hs c) fits.2

theorem sums_inOrder : SumsInOrder E.rounding (h.sums E n m) :=
  foldl_inOrder hw (foldl_inOrder hw ⟨Nat.le_refl 0, E.rounding.fixed_zero⟩)

end

theorem fits_iff : h.Fits E n m ↔
    E.rounding.AddsUp 0 ((E.classOrder.visit (h.classList n)).map fun c => (h.eqClass c).weight) ∧
    E.rounding.AddsUp
      ((E.classOrder.visit (h.classList n)).foldl (h.sumClass E (· ∈ h.classList m)) (0, 0)).1
      ((E.classOrder.visit ((h.classList m).filter (· ∉ h.classList n))).map fun c =>
        (h.eqClass c).weight) := by
  rw [Fits, unionWeights, List.map_append, Rounding.addsUp_append, foldl_sumClass_fst]

/-- Where nothing is too large, every sum fits. -/
theorem fits_of_unlimited (unlimited : E.rounding.range = none)
    (hw : ∀ c, 0 ≤ (h.eqClass c).weight) : h.Fits E n m := by
  apply Rounding.addsUp_of_unlimited unlimited
  intro weight mem
  obtain ⟨c, -, rfl⟩ := List.mem_map.mp mem
  exact hw c

/-- Nodes that `NodeDistance` may be asked about. -/
structure Comparable (h : Heap) (n : NodeId) : Prop where
  dir : (h.node n).type = .dir
  ready : h.IsReadyToEvaluate n
  children : h.ChildrenEvaluated n

theorem of_nodeDistance {d : ℚ} (hn : h.ChildrenEvaluated n) (hm : h.ChildrenEvaluated m)
    (run : h.nodeDistance E n m = .ok d) : h.Fits E n m ∧ d = h.distance E n m := by
  obtain ⟨-, run⟩ := of_ensure_ok run
  obtain ⟨-, run⟩ := of_ensure_ok run
  obtain ⟨-, run⟩ := of_ensure_ok run
  rw [childClasses_ok hn, childClasses_ok hm] at run
  simp only [ok_bind] at run
  obtain ⟨s, first, run⟩ := of_bind_ok run
  obtain ⟨t, second, run⟩ := of_bind_ok run
  obtain ⟨fits, rfl⟩ := of_foldlM_addClass first
  obtain ⟨fits', rfl⟩ := of_foldlM_addClass second
  refine ⟨fits_iff.mpr ⟨fits, fits'⟩, ?_⟩
  change (if (h.sums E n m).1 = 0 then _ else _) = _ at run
  unfold distance
  split at run
  · rename_i zero
    rw [if_pos zero]
    cases run
    rfl
  · rename_i heavy
    obtain ⟨-, run⟩ := of_ensure_ok run
    rw [if_neg heavy]
    cases run
    rfl

theorem nodeDistance_eq (hw : ∀ c, 0 ≤ (h.eqClass c).weight) (hn : h.Comparable n)
    (ready : h.IsReadyToEvaluate m) (children : h.ChildrenEvaluated m) (fits : h.Fits E n m) :
    h.nodeDistance E n m = .ok (h.distance E n m) := by
  have order := sums_inOrder (E := E) (n := n) (m := m) hw
  obtain ⟨fits, fits'⟩ := fits_iff.mp fits
  have start : SumsInOrder E.rounding (0, 0) := ⟨Nat.le_refl 0, E.rounding.fixed_zero⟩
  unfold nodeDistance
  rw [ensure_bind hn.ready, ensure_bind ready, ensure_bind (Or.inl (by simp [hn.dir])),
    childClasses_ok hn.children, childClasses_ok children]
  simp only [ok_bind]
  rw [foldlM_addClass_ok hw start fits, ok_bind,
    foldlM_addClass_ok hw (foldl_inOrder hw start) fits', ok_bind]
  change (if (h.sums E n m).1 = 0 then _ else _) = _
  unfold distance
  split
  · rfl
  · exact ensure_bind order.1

theorem nodeDistance_ok (hc : h.Consistent) (hw : ∀ c, 0 ≤ (h.eqClass c).weight)
    (hn : h.ChildrenEvaluated n) (hm : h.ChildrenEvaluated m) (hdir : (h.node n).type = .dir)
    (fits : h.Fits E n m) : h.nodeDistance E n m = .ok (h.distance E n m) :=
  nodeDistance_eq hw ⟨hdir, hc.ready_iff.mpr hn, hn⟩ (hc.ready_iff.mpr hm) hm fits

/-- The asserts of `NodeDistance` hold just when its sum fits. -/
theorem nodeDistance_iff (hc : h.Consistent) (hw : ∀ c, 0 ≤ (h.eqClass c).weight)
    (hn : h.ChildrenEvaluated n) (hm : h.ChildrenEvaluated m) (hdir : (h.node n).type = .dir) {d : ℚ} :
    h.nodeDistance E n m = .ok d ↔ h.Fits E n m ∧ d = h.distance E n m := by
  constructor
  · exact of_nodeDistance hn hm
  · rintro ⟨fits, rfl⟩
    exact nodeDistance_ok hc hw hn hm hdir fits

theorem distance_le_one (hw : ∀ c, 0 ≤ (h.eqClass c).weight) : h.distance E n m ≤ 1 := by
  have order := sums_inOrder (E := E) (n := n) (m := m) hw
  unfold distance
  split
  · exact zero_le_one
  · rename_i hne
    have whole : (1 : ℚ) ≤ (h.sums E n m).1 := by exact_mod_cast Nat.pos_of_ne_zero hne
    have one_le : 1 ≤ E.rounding.rnd (h.sums E n m).1 := E.rounding.one ▸ E.rounding.mono whole
    apply E.rounding.rnd_le_one
    rw [div_le_one (by linarith)]
    exact E.rounding.mono (by exact_mod_cast order.1)

/-! ## The nearest candidate -/

/-- A node that may be compared with `ref`. -/
def Candidate (h : Heap) (ref m : NodeId) : Prop := m ≠ ref ∧ h.IsEvaluated m

/-- `m` is at least as near to `ref` as every one of `candidates`. -/
def Nearest (E : Env) (h : Heap) (ref : NodeId) (candidates : List NodeId) (m : NodeId) : Prop :=
  ∀ x ∈ candidates, h.distance E ref m ≤ h.distance E ref x

/-- A nearest candidate has been found, and every candidate was compared. -/
structure Found (E : Env) (h : Heap) (ref : NodeId) (candidates : List NodeId)
    (found : NodeId × ℚ) : Prop where
  distance : found.2 = h.distance E ref found.1
  mem : found.1 ∈ candidates
  nearest : h.Nearest E ref candidates found.1
  fits : ∀ x ∈ candidates, h.Fits E ref x

section
variable {ref best : NodeId} {candidates rest : List NodeId} {found : NodeId × ℚ}

/-- A candidate that is no nearer than the next one need not be looked at. -/
theorem Found.skip (later : h.Found E ref (x :: rest) found) (fits : h.Fits E ref best)
    (closer : h.distance E ref x ≤ h.distance E ref best) :
    h.Found E ref (best :: x :: rest) found where
  distance := later.distance
  mem := List.mem_cons_of_mem _ later.mem
  nearest := List.forall_mem_cons.mpr
    ⟨(later.nearest x List.mem_cons_self).trans closer, later.nearest⟩
  fits := List.forall_mem_cons.mpr ⟨fits, later.fits⟩

theorem Found.pass (later : h.Found E ref (best :: rest) found) (fits : h.Fits E ref x)
    (further : h.distance E ref best ≤ h.distance E ref x) :
    h.Found E ref (best :: x :: rest) found where
  distance := later.distance
  mem := by
    rcases List.mem_cons.mp later.mem with here | mem
    · exact here ▸ List.mem_cons_self
    · exact List.mem_cons_of_mem _ (List.mem_cons_of_mem _ mem)
  nearest := by
    obtain ⟨here, others⟩ := List.forall_mem_cons.mp later.nearest
    exact List.forall_mem_cons.mpr ⟨here, List.forall_mem_cons.mpr ⟨here.trans further, others⟩⟩
  fits := by
    obtain ⟨here, others⟩ := List.forall_mem_cons.mp later.fits
    exact List.forall_mem_cons.mpr ⟨here, List.forall_mem_cons.mpr ⟨fits, others⟩⟩

variable (hc : h.Consistent) (hr : h.ChildrenEvaluated ref)
include hc hr

theorem of_closerNode (fits : h.Fits E ref best)
    (run : h.closerNode E ref (best, h.distance E ref best) rest = .ok found) :
    h.Found E ref (best :: rest) found := by
  induction rest generalizing best with
  | nil =>
    cases run
    exact ⟨rfl, List.mem_cons_self, by simp [Nearest], by simpa using fits⟩
  | cons x xs ih =>
    obtain ⟨-, run⟩ := of_ensure_ok run
    obtain ⟨evaluated, run⟩ := of_ensure_ok run
    obtain ⟨d, distance, run⟩ := of_bind_ok run
    obtain ⟨fits', rfl⟩ := of_nodeDistance hr (hc.children_evaluated evaluated) distance
    obtain ⟨-, run⟩ := of_ensure_ok run
    dsimp only at run
    split at run
    · rename_i closer
      exact (ih fits' run).skip fits closer.le
    · rename_i further
      exact (ih fits run).pass fits' (not_lt.mp further)

theorem of_getClosestNode (evaluated : ∀ x ∈ candidates, h.IsEvaluated x)
    (run : h.getClosestNode E ref candidates = .ok found) : h.Found E ref candidates found := by
  cases candidates with
  | nil => cases run
  | cons x xs =>
    obtain ⟨d, distance, run⟩ := of_bind_ok run
    obtain ⟨fits, rfl⟩ :=
      of_nodeDistance hr (hc.children_evaluated (evaluated x List.mem_cons_self)) distance
    exact of_closerNode hc hr fits run

variable (hw : ∀ c, 0 ≤ (h.eqClass c).weight) (hdir : (h.node ref).type = .dir)
include hw hdir

theorem closerNode_ok (hrest : ∀ x ∈ rest, h.Candidate ref x) (fits : ∀ x ∈ rest, h.Fits E ref x)
    (best : NodeId × ℚ) : ∃ found, h.closerNode E ref best rest = .ok found := by
  induction rest generalizing best with
  | nil => exact ⟨best, rfl⟩
  | cons x xs ih =>
    obtain ⟨hne, hev⟩ := hrest x List.mem_cons_self
    have near : h.distance E ref x < 11 / 10 := by
      have := distance_le_one (E := E) (n := ref) (m := x) hw
      linarith
    unfold closerNode
    rw [ensure_bind hne, ensure_bind hev, nodeDistance_ok hc hw hr (hc.children_evaluated hev) hdir
      (fits x List.mem_cons_self), ok_bind, ensure_bind near]
    exact ih (fun y hy => hrest y (List.mem_cons_of_mem x hy))
      (fun y hy => fits y (List.mem_cons_of_mem x hy)) _

theorem getClosestNode_ok (hne : candidates ≠ []) (hcand : ∀ x ∈ candidates, h.Candidate ref x)
    (fits : ∀ x ∈ candidates, h.Fits E ref x) :
    ∃ found, h.getClosestNode E ref candidates = .ok found := by
  cases candidates with
  | nil => exact absurd rfl hne
  | cons x xs =>
    have hx := (hcand x List.mem_cons_self).2
    simp only [getClosestNode]
    rw [nodeDistance_ok hc hw hr (hc.children_evaluated hx) hdir (fits x List.mem_cons_self), ok_bind]
    exact closerNode_ok hc hr hw hdir (fun y hy => hcand y (List.mem_cons_of_mem x hy))
      (fun y hy => fits y (List.mem_cons_of_mem x hy)) _

end

/-! ## The choice -/

/-- `n` joins the class of its equivalent `e`, a nearest one and near enough. -/
structure Joins (E : Env) (h : Heap) (n e : NodeId) (c : ClassId) : Prop where
  equivalent : h.Equivalent n e
  eqClass : (h.node e).eqClass = some c
  near : h.distance E n e < E.tolerance
  nearest : ∀ x, h.Equivalent n x → h.distance E n e ≤ h.distance E n x

/-- No equivalent of `n` is near enough to join. -/
def StaysApart (E : Env) (h : Heap) (n : NodeId) : Prop :=
  ∀ x, h.Equivalent n x → E.tolerance ≤ h.distance E n x

theorem Equivalent.candidate (hp : h.Equivalent n p) : h.Candidate n p := by
  obtain ⟨_, _, _, _, _, _, _, _, hev, hne⟩ := hp
  exact ⟨hne, hev⟩

/-- What the choice of a class means. -/
def Chosen (E : Env) (h : Heap) (n : NodeId) : Option ClassId → Prop
  | some c => ∃ e, h.Joins E n e c
  | none => h.StaysApart E n

/-- The distances to all equivalents of `n` can be computed. -/
def AllFit (E : Env) (h : Heap) (n : NodeId) : Prop := ∀ p, h.Equivalent n p → h.Fits E n p

theorem of_classToJoin (hc : h.Consistent) (hn : h.ChildrenEvaluated n) {choice : Option ClassId}
    (run : h.classToJoin E n = .ok choice) : h.Chosen E n choice ∧ h.AllFit E n := by
  obtain ⟨nodes, hnodes, hmem⟩ := getPossibleEquivalents_ok (E := E) hc hn
  unfold classToJoin at run
  rw [hnodes, ok_bind] at run
  split at run
  · rename_i none
    cases run
    have alone : ∀ x, ¬ h.Equivalent n x := fun x hx => by simpa [none] using (hmem x).mpr hx
    exact ⟨fun x hx => absurd hx (alone x), fun x hx => absurd hx (alone x)⟩
  · obtain ⟨⟨m, d⟩, closest, run⟩ := of_bind_ok run
    obtain ⟨same, mem, nearest, fits⟩ :=
      of_getClosestNode hc hn (fun x hx => ((hmem x).mp hx).candidate.2) closest
    obtain rfl : d = h.distance E n m := same
    refine ⟨?_, fun x hx => fits x ((hmem x).mpr hx)⟩
    have equivalent := (hmem m).mp mem
    change (if h.distance E n m < E.tolerance then _ else _) = _ at run
    split at run
    · rename_i near
      obtain ⟨c, hcl⟩ := isEvaluated_iff.mp equivalent.candidate.2
      rw [getEqClass_ok hcl, ok_bind] at run
      cases run
      exact ⟨m, equivalent, hcl, near, fun x hx => nearest x ((hmem x).mpr hx)⟩
    · rename_i far
      cases run
      exact fun x hx => le_trans (not_lt.mp far) (nearest x ((hmem x).mpr hx))

theorem classToJoin_ok (hc : h.Consistent) (hw : ∀ c, 0 ≤ (h.eqClass c).weight)
    (hn : h.ChildrenEvaluated n) (hdir : (h.node n).type = .dir) (fits : h.AllFit E n) :
    ∃ choice, h.classToJoin E n = .ok choice := by
  obtain ⟨nodes, hnodes, hmem⟩ := getPossibleEquivalents_ok (E := E) hc hn
  unfold classToJoin
  rw [hnodes, ok_bind]
  by_cases hempty : nodes = []
  · exact ⟨none, by simp only [hempty, if_true]; rfl⟩
  · obtain ⟨⟨m, d⟩, closest⟩ := getClosestNode_ok (E := E) hc hn hw hdir hempty
      (fun x hx => ((hmem x).mp hx).candidate) (fun x hx => fits x ((hmem x).mp hx))
    have mem := (of_getClosestNode hc hn (fun x hx => ((hmem x).mp hx).candidate.2) closest).mem
    obtain ⟨c, hcl⟩ := isEvaluated_iff.mp ((hmem m).mp mem).candidate.2
    simp only [hempty, if_false, closest, ok_bind]
    split
    · exact ⟨some c, by rw [getEqClass_ok hcl]; rfl⟩
    · exact ⟨none, rfl⟩

end Heap

end Dupa
