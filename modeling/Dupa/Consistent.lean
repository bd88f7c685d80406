import Mathlib.Data.List.Count
import Dupa.Library.Justified
import Dupa.Layout

/-!
# The heap stays consistent

`Consistent` ties together what `AddNode` and `SetEqClass` update on different
objects: the counters of children to evaluate, the class pointers of the nodes,
the member lists of the classes and the order of evaluation. `Placed` is all
that `AddNode` changes; `addNode_placed` says that on a consistent heap it
changes just that, with no assert failing, and `Placed.consistent` that the heap
stays consistent.
-/

namespace Dupa

open Checked

namespace Heap

structure Consistent (h : Heap) : Prop extends h.layout.Linked where
  counter : ∀ p, (h.node p).notEvaluatedChildren =
    ((h.node p).children.countP fun c => (h.node c).eqClass.isNone : ℕ)
  member : ∀ n c, (h.node n).eqClass = some c ↔ n ∈ (h.eqClass c).nodes
  nodes_nodup : ∀ c, (h.eqClass c).nodes.Nodup
  unallocated : ∀ c, h.numClasses ≤ c → (h.eqClass c).nodes = []
  logged : ∀ n, n ∈ h.evaluated ↔ h.IsEvaluated n
  log_nodup : h.evaluated.Nodup
  log_order : Justified (fun before n => ∀ c ∈ (h.node n).children, c ∈ before) h.evaluated

/-- The classes of the evaluated children, in their order, repetitions kept. -/
def classList (h : Heap) (n : NodeId) : List ClassId :=
  (h.node n).children.filterMap fun c => (h.node c).eqClass

/-- What `GetWeight` computes for a node that is not evaluated. -/
def ownWeight (E : Env) (h : Heap) (n : NodeId) : ℚ :=
  match (h.node n).type with
  | .file => if E.useSize then E.rounding.rnd (h.node n).size else 1
  | .dir => (E.classOrder.visit (h.classList n)).foldl
      (fun weight c => E.rounding.rnd (weight + (h.eqClass c).weight)) 0

/-- The running mean of `AddNode`, for a class with `count` members so far. -/
def newMean (R : Rounding) (count : ℕ) (old added : ℚ) : ℚ :=
  R.rnd (R.rnd (R.rnd (old * R.rnd count) + added) / R.rnd (count + 1 : ℕ))

/-- All that `AddNode` does when it puts `n` in the class `c`. -/
structure Placed (E : Env) (h : Heap) (c : ClassId) (n : NodeId) (h' : Heap) : Prop where
  layout : h'.layout = h.layout
  numClasses : h'.numClasses = h.numClasses
  eqClass : ∀ m, (h'.node m).eqClass = if m = n then some c else (h.node m).eqClass
  counter : ∀ p, (h'.node p).notEvaluatedChildren =
    (h.node p).notEvaluatedChildren - if (h.node n).parent = some p then 1 else 0
  nodes : ∀ d, (h'.eqClass d).nodes =
    if d = c then (h.eqClass c).nodes ++ [n] else (h.eqClass d).nodes
  weight : ∀ d, (h'.eqClass d).weight =
    if d = c then newMean E.rounding (h.eqClass c).nodes.length (h.eqClass c).weight (h.ownWeight E n)
    else (h.eqClass d).weight
  evaluated : h'.evaluated = h.evaluated ++ [n]

/-- Every child has a class. -/
def ChildrenEvaluated (h : Heap) (n : NodeId) : Prop :=
  ∀ c ∈ (h.node n).children, h.IsEvaluated c

variable {E : Env} {h h' : Heap} {n c : Nat}

theorem isEvaluated_iff : h.IsEvaluated n ↔ ∃ c, (h.node n).eqClass = some c :=
  Option.isSome_iff_exists

theorem evaluated_of_eqClass (hn : (h.node n).eqClass = some c) : h.IsEvaluated n :=
  isEvaluated_iff.mpr ⟨c, hn⟩

theorem not_isEvaluated_iff : ¬ h.IsEvaluated n ↔ (h.node n).eqClass = none := by
  simp [IsEvaluated]

theorem getEqClass_ok (hn : (h.node n).eqClass = some c) : h.getEqClass n = .ok c := by
  simp [getEqClass, hn]

theorem mem_classList : c ∈ h.classList n ↔ ∃ x ∈ (h.node n).children, (h.node x).eqClass = some c :=
  List.mem_filterMap

theorem mapM_getEqClass {l : List NodeId} (hl : ∀ x ∈ l, h.IsEvaluated x) :
    l.mapM h.getEqClass = .ok (l.filterMap fun x => (h.node x).eqClass) := by
  induction l with
  | nil => rfl
  | cons x xs ih =>
    obtain ⟨d, hd⟩ := isEvaluated_iff.mp (hl x List.mem_cons_self)
    rw [List.mapM_cons, getEqClass_ok hd, ih fun y hy => hl y (List.mem_cons_of_mem x hy)]
    simp [hd]

theorem childClasses_ok (hn : h.ChildrenEvaluated n) : h.childClasses n = .ok (h.classList n) :=
  mapM_getEqClass hn

theorem getWeight_ok (fresh : ¬ h.IsEvaluated n) (hn : h.ChildrenEvaluated n) :
    h.getWeight E n = .ok (h.ownWeight E n) := by
  rw [not_isEvaluated_iff] at fresh
  unfold getWeight ownWeight
  rw [fresh]
  cases (h.node n).type with
  | file => rfl
  | dir => rw [childClasses_ok hn]; rfl

theorem Consistent.ready_iff (hc : h.Consistent) : h.IsReadyToEvaluate n ↔ h.ChildrenEvaluated n := by
  simp only [IsReadyToEvaluate, hc.counter, Int.natCast_eq_zero, List.countP_eq_zero,
    ChildrenEvaluated, IsEvaluated, Option.isNone_iff_eq_none, ← Option.isSome_iff_ne_none]

theorem Consistent.children_evaluated (hc : h.Consistent) (hn : h.IsEvaluated n) :
    h.ChildrenEvaluated n := by
  obtain ⟨before, after, split⟩ := List.append_of_mem ((hc.logged n).mpr hn)
  intro x hx
  rw [← hc.logged, split]
  exact List.mem_append_left _ (hc.log_order before n after split x hx)

theorem ownWeight_dir_nonneg (hw : ∀ c, 0 ≤ (h.eqClass c).weight) (dir : (h.node n).type = .dir) :
    0 ≤ h.ownWeight E n := by
  have sum_nonneg : ∀ (l : List ClassId) (start : ℚ), 0 ≤ start →
      0 ≤ l.foldl (fun weight c => E.rounding.rnd (weight + (h.eqClass c).weight)) start := by
    intro l
    induction l with
    | nil => exact fun _ hs => hs
    | cons d l ih => exact fun start hs => ih _ (E.rounding.rnd_nonneg (add_nonneg hs (hw d)))
  unfold ownWeight
  rw [dir]
  exact sum_nonneg _ 0 (le_refl 0)

theorem ownWeight_nonneg (sized : E.Sized h.layout) (hw : ∀ c, 0 ≤ (h.eqClass c).weight)
    (inside : n < h.numNodes) : 0 ≤ h.ownWeight E n := by
  cases type : (h.node n).type with
  | dir => exact ownWeight_dir_nonneg hw type
  | file =>
    unfold ownWeight
    rw [type]
    dsimp only
    split
    · rename_i counts
      apply E.rounding.rnd_nonneg
      exact_mod_cast sized counts n ⟨inside, type⟩
    · exact zero_le_one

theorem newMean_nonneg (R : Rounding) (count : ℕ) {old added : ℚ} (ho : 0 ≤ old) (ha : 0 ≤ added) :
    0 ≤ newMean R count old added := by
  apply R.rnd_nonneg
  apply div_nonneg
  · apply R.rnd_nonneg
    have := R.rnd_nonneg (mul_nonneg ho (R.rnd_nonneg (Nat.cast_nonneg count)))
    linarith
  · exact R.rnd_nonneg (Nat.cast_nonneg _)

/-- Renaming the members of a class does not change what a node weighs. -/
theorem getWeight_setClass (nodes : List NodeId) :
    (h.setClass c ⟨nodes, (h.eqClass c).weight⟩).getWeight E n = h.getWeight E n := by
  have weight : ∀ d, ((h.setClass c ⟨nodes, (h.eqClass c).weight⟩).eqClass d).weight =
      (h.eqClass d).weight := by
    intro d
    by_cases hd : d = c
    · subst hd; simp [setClass]
    · simp [setClass, hd]
  simp only [getWeight, weight]
  rfl

/-- The heap after `SetEqClass`: `n` points to `c`, and its parent has one child
less to wait for. -/
def pointTo (h : Heap) (n : NodeId) (c : ClassId) : Heap :=
  { h with
    node := fun m => { h.node m with
      eqClass := if m = n then some c else (h.node m).eqClass
      notEvaluatedChildren :=
        (h.node m).notEvaluatedChildren - if (h.node n).parent = some m then 1 else 0 }
    evaluated := h.evaluated ++ [n] }

theorem setEqClass_ok (ready : h.IsReadyToEvaluate n) (fresh : ¬ h.IsEvaluated n)
    (waiting : ∀ p, (h.node n).parent = some p → p ≠ n ∧ (h.node p).notEvaluatedChildren ≠ 0) :
    h.setEqClass n c = .ok (h.pointTo n c) := by
  unfold setEqClass
  rw [ensure_bind ready, ensure_bind fresh]
  simp only [setNode, Function.update_self]
  cases hp : (h.node n).parent with
  | none =>
    simp only [pointTo, hp, reduceCtorEq, ite_false, sub_zero, pure, Except.pure]
    congr 2
    funext m
    by_cases hm : m = n
    · subst hm; simp
    · simp [hm]
  | some p =>
    obtain ⟨hne, positive⟩ := waiting p hp
    simp only [Function.update_of_ne hne]
    rw [ensure_bind positive]
    simp only [pointTo, hp, Option.some.injEq, pure, Except.pure]
    congr 2
    funext m
    by_cases hm : m = n
    · subst hm; simp [hne, Ne.symm hne]
    · by_cases hmp : m = p
      · subst hmp; simp [hm]
      · simp [hm, hmp, Ne.symm hmp]

/-- While a child is not evaluated, its parent is another node that waits for it. -/
theorem Consistent.waiting (hc : h.Consistent) (fresh : ¬ h.IsEvaluated n)
    (hn : h.ChildrenEvaluated n) {p : NodeId} (hp : (h.node n).parent = some p) :
    p ≠ n ∧ (h.node p).notEvaluatedChildren ≠ 0 := by
  have child : n ∈ (h.node p).children := (hc.parent_iff p n).mpr hp
  refine ⟨?_, fun zero => fresh (hc.ready_iff.mp zero n child)⟩
  rintro rfl
  exact fresh (hn p child)

theorem Consistent.evaluated_of_mem (hc : h.Consistent) (hn : n ∈ (h.eqClass c).nodes) :
    h.IsEvaluated n := evaluated_of_eqClass ((hc.member n c).mpr hn)

theorem Consistent.notMem_nodes (hc : h.Consistent) (fresh : ¬ h.IsEvaluated n) (c : ClassId) :
    n ∉ (h.eqClass c).nodes := fun hn => fresh (hc.evaluated_of_mem hn)

theorem addNode_placed (E : Env) (c : ClassId) (hc : h.Consistent) (fresh : ¬ h.IsEvaluated n)
    (hn : h.ChildrenEvaluated n) : ∃ h', h.addNode E c n = .ok h' ∧ Placed E h c n h' := by
  have ready : h.IsReadyToEvaluate n := hc.ready_iff.mpr hn
  unfold addNode
  rw [ensure_bind (hc.notMem_nodes fresh c)]
  simp only [getWeight_setClass, getWeight_ok fresh hn, ok_bind]
  refine ⟨_, setEqClass_ok ready fresh fun p hp => hc.waiting fresh hn hp,
    rfl, rfl, fun m => rfl, fun p => rfl, ?_, ?_, rfl⟩
  · intro d
    by_cases hd : d = c
    · subst hd; simp [pointTo, setClass]
    · simp [pointTo, setClass, hd]
  · intro d
    by_cases hd : d = c
    · subst hd; simp [pointTo, setClass, newMean]
    · simp [pointTo, setClass, hd]

theorem numNodes_of_layout (hl : h'.layout = h.layout) : h'.numNodes = h.numNodes :=
  congrArg Layout.size hl

theorem children_of_layout (hl : h'.layout = h.layout) (n : NodeId) :
    (h'.node n).children = (h.node n).children :=
  congrArg (fun L : Layout => (L.entry n).children) hl

theorem parent_of_layout (hl : h'.layout = h.layout) (n : NodeId) :
    (h'.node n).parent = (h.node n).parent :=
  congrArg (fun L : Layout => (L.entry n).parent) hl

theorem type_of_layout (hl : h'.layout = h.layout) (n : NodeId) :
    (h'.node n).type = (h.node n).type :=
  congrArg (fun L : Layout => (L.entry n).type) hl

/-- Taking one element out of what is counted lowers the count of a list
without repetitions by one, if the element is there. -/
theorem countP_erase_one {p q : NodeId → Bool} {l : List NodeId} (hl : l.Nodup) (hp : p n)
    (hq : ∀ m, q m = (p m && m != n)) :
    (l.countP q : Int) = l.countP p - if n ∈ l then 1 else 0 := by
  induction l with
  | nil => simp
  | cons x xs ih =>
    obtain ⟨hx, hxs⟩ := List.nodup_cons.mp hl
    simp only [List.countP_cons, List.mem_cons, hq x]
    have := ih hxs
    by_cases hxn : x = n
    · subst hxn
      simp only [hx, ite_false] at this
      simp [hp, this]
    · have hne : ¬ n = x := fun he => hxn he.symm
      simp only [hne, false_or]
      by_cases hpx : p x
      · simp [hpx, hxn, this]; omega
      · simp [hpx, this]

theorem newClass_nodes (hc : h.Consistent) (d : ClassId) :
    (h.newClass.1.eqClass d).nodes = (h.eqClass d).nodes := by
  by_cases hd : d = h.numClasses
  · subst hd
    simp [newClass, setClass, hc.unallocated h.numClasses (Nat.le_refl _)]
  · simp [newClass, setClass, hd]

theorem newClass_weight (d : ClassId) :
    (h.newClass.1.eqClass d).weight = if d = h.numClasses then 0 else (h.eqClass d).weight := by
  by_cases hd : d = h.numClasses
  · subst hd
    simp [newClass, setClass]
  · simp [newClass, setClass, hd]

theorem newClass_nonneg (hw : ∀ c, 0 ≤ (h.eqClass c).weight) (d : ClassId) :
    0 ≤ (h.newClass.1.eqClass d).weight := by
  rw [newClass_weight]
  split
  · exact le_refl 0
  · exact hw d

theorem Consistent.newClass (hc : h.Consistent) : h.newClass.1.Consistent where
  toLinked := hc.toLinked
  counter := hc.counter
  member := fun n c => by rw [newClass_nodes hc]; exact hc.member n c
  nodes_nodup := fun c => by rw [newClass_nodes hc]; exact hc.nodes_nodup c
  unallocated := fun c hcl => by
    rw [newClass_nodes hc]
    exact hc.unallocated c (Nat.le_of_succ_le hcl)
  logged := hc.logged
  log_nodup := hc.log_nodup
  log_order := hc.log_order

namespace Placed

variable (placed : Placed E h c n h')
include placed

theorem isEvaluated_iff (m : NodeId) : h'.IsEvaluated m ↔ m = n ∨ h.IsEvaluated m := by
  simp only [IsEvaluated, placed.eqClass]
  by_cases hm : m = n <;> simp [hm]

theorem nonneg (hw : ∀ d, 0 ≤ (h.eqClass d).weight) (own : 0 ≤ h.ownWeight E n) (d : ClassId) :
    0 ≤ (h'.eqClass d).weight := by
  rw [placed.weight]
  split
  · exact newMean_nonneg _ _ (hw c) own
  · exact hw d

theorem consistent (hc : h.Consistent) (fresh : ¬ h.IsEvaluated n) (hn : h.ChildrenEvaluated n)
    (known : c < h.numClasses) : h'.Consistent where
  toLinked := placed.layout ▸ hc.toLinked
  counter := by
    intro p
    rw [placed.counter, hc.counter, children_of_layout placed.layout]
    have edge : ((h.node n).parent = some p) ↔ n ∈ (h.node p).children := (hc.parent_iff p n).symm
    simp only [edge]
    refine (countP_erase_one (hc.nodup p) (Option.isNone_iff_eq_none.mpr
      (not_isEvaluated_iff.mp fresh)) fun m => ?_).symm
    rw [placed.eqClass]
    by_cases hm : m = n <;> simp [hm]
  member := by
    intro m d
    rw [placed.eqClass, placed.nodes]
    have absent := hc.notMem_nodes fresh
    by_cases hm : m = n
    · subst hm
      by_cases hd : d = c
      · subst hd; simp
      · simp [hd, absent d, Ne.symm hd]
    · by_cases hd : d = c
      · subst hd; simp [hm, hc.member]
      · simp [hm, hd, hc.member]
  nodes_nodup := by
    intro d
    rw [placed.nodes]
    split
    · simpa using List.Nodup.concat (hc.notMem_nodes fresh c) (hc.nodes_nodup c)
    · exact hc.nodes_nodup d
  unallocated := by
    intro d hd
    rw [placed.numClasses] at hd
    have hne : d ≠ c := by omega
    rw [placed.nodes, if_neg hne]
    exact hc.unallocated d hd
  logged := by
    intro m
    rw [placed.evaluated, placed.isEvaluated_iff, ← hc.logged]
    simp [or_comm]
  log_nodup := by
    rw [placed.evaluated]
    have absent : n ∉ h.evaluated := fun hm => fresh ((hc.logged n).mp hm)
    simpa using List.Nodup.concat absent hc.log_nodup
  log_order := by
    rw [placed.evaluated]
    simp only [children_of_layout placed.layout]
    exact hc.log_order.snoc fun x hx => (hc.logged x).mpr (hn x hx)

end Placed

end Heap

end Dupa
