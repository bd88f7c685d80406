import Dupa.Exact

/-!
# AddChild and AddNode in any order

Fresh nodes and classes are changed by `AddChild` and `AddNode` alone, in any order
and on any objects, as long as no assert fails. Nodes may even be put below themselves;
such nodes never become ready. What the classification relies on holds after every call.
-/

namespace Dupa

open Checked

namespace Heap

/-- All that `AddChild` does when it puts `child` below `n`, and what it asserts. -/
structure Attached (h : Heap) (n child : NodeId) (h' : Heap) : Prop where
  unevaluated : ¬ h.IsEvaluated n
  orphan : (h.node child).parent = none
  childUnevaluated : ¬ h.IsEvaluated child
  parent : ∀ m, (h'.node m).parent = if m = child then some n else (h.node m).parent
  children : ∀ m, (h'.node m).children =
    if m = n then (h.node n).children ++ [child] else (h.node m).children
  counter : ∀ m, (h'.node m).notEvaluatedChildren =
    (h.node m).notEvaluatedChildren + if m = n then 1 else 0
  eqClass : ∀ m, (h'.node m).eqClass = (h.node m).eqClass
  classes : h'.eqClass = h.eqClass
  numClasses : h'.numClasses = h.numClasses
  evaluated : h'.evaluated = h.evaluated

variable {E : Env} {h h' : Heap} {n child c : Nat}

theorem addChild_attached (ok : h.addChild n child = .ok h') : Attached h n child h' := by
  obtain ⟨unevaluated, ok⟩ := of_ensure_ok ok
  obtain ⟨orphan, ok⟩ := of_ensure_ok ok
  obtain ⟨childUnevaluated, ok⟩ := of_ensure_ok ok
  obtain ⟨-, ok⟩ := of_ensure_ok ok
  cases ok
  refine ⟨unevaluated, orphan, childUnevaluated, ?_, ?_, ?_, ?_, rfl, rfl, rfl⟩
  all_goals
    intro m
    by_cases hn : m = n <;> by_cases hc : m = child <;>
      simp_all [setNode, Function.update_apply]

namespace Attached

variable (attached : Attached h n child h')
include attached

theorem isEvaluated_iff (m : NodeId) : h'.IsEvaluated m ↔ h.IsEvaluated m := by
  simp only [IsEvaluated, attached.eqClass]

/-- The children of a node that is evaluated stay as they are. -/
theorem children_of_evaluated {m : NodeId} (hm : h.IsEvaluated m) :
    (h'.node m).children = (h.node m).children := by
  rw [attached.children, if_neg]
  rintro rfl
  exact attached.unevaluated hm

theorem notMem_children (hc : h.Consistent) (p : NodeId) : child ∉ (h.node p).children := by
  intro hp
  have parent := (hc.parent_iff p child).mp hp
  have orphan := attached.orphan
  change (h.node child).parent = some p at parent
  rw [orphan] at parent
  cases parent

theorem linked (hc : h.Consistent) : h'.layout.Linked where
  parent_iff := by
    intro p m
    change m ∈ (h'.node p).children ↔ (h'.node m).parent = some p
    have edge : m ∈ (h.node p).children ↔ (h.node m).parent = some p := hc.parent_iff p m
    rw [attached.parent, attached.children]
    by_cases hm : m = child
    · subst hm
      have absent := attached.notMem_children hc
      by_cases hp : p = n
      · subst hp; simp
      · simp [hp, Ne.symm hp, absent p]
    · by_cases hp : p = n
      · subst hp; simp [hm, edge]
      · simp [hm, hp, edge]
  nodup := by
    intro p
    change (h'.node p).children.Nodup
    rw [attached.children]
    split
    · simpa using List.Nodup.concat (attached.notMem_children hc n) (hc.nodup n)
    · exact hc.nodup p

theorem consistent (hc : h.Consistent) : h'.Consistent where
  toLinked := attached.linked hc
  counter := by
    intro p
    have waits : (h.node child).eqClass.isNone :=
      Option.isNone_iff_eq_none.mpr (not_isEvaluated_iff.mp attached.childUnevaluated)
    rw [attached.counter, attached.children, hc.counter]
    simp only [attached.eqClass]
    by_cases hp : p = n
    · subst hp
      simp [List.countP_append, waits]
    · simp [hp]
  member := fun m c => by rw [attached.eqClass, attached.classes]; exact hc.member m c
  nodes_nodup := fun c => by rw [attached.classes]; exact hc.nodes_nodup c
  unallocated := fun c known => by
    rw [attached.classes]
    exact hc.unallocated c (attached.numClasses ▸ known)
  logged := fun m => by rw [attached.evaluated, attached.isEvaluated_iff]; exact hc.logged m
  log_nodup := by rw [attached.evaluated]; exact hc.log_nodup
  log_order := by
    rw [attached.evaluated]
    intro before m after split
    have logged : m ∈ h.evaluated := by simp [split]
    rw [attached.children_of_evaluated ((hc.logged m).mp logged)]
    exact hc.log_order before m after split

end Attached

/-- What `AddNode` and the functions it calls assert of the node. -/
theorem addNode_asserts (ok : h.addNode E c n = .ok h') :
    h.IsReadyToEvaluate n ∧ ¬ h.IsEvaluated n := by
  obtain ⟨-, ok⟩ := of_ensure_ok ok
  obtain ⟨weight, -, ok⟩ := of_bind_ok ok
  obtain ⟨ready, ok⟩ := of_ensure_ok ok
  obtain ⟨fresh, -⟩ := of_ensure_ok ok
  exact ⟨ready, fresh⟩

theorem addNode_effect (hc : h.Consistent) (ok : h.addNode E c n = .ok h') :
    Placed E h c n h' ∧ ¬ h.IsEvaluated n ∧ h.ChildrenEvaluated n := by
  obtain ⟨ready, fresh⟩ := addNode_asserts ok
  have evaluated := hc.ready_iff.mp ready
  obtain ⟨t, ht, placed⟩ := addNode_placed E c hc fresh evaluated
  rw [ok] at ht
  cases ht
  exact ⟨placed, fresh, evaluated⟩

/-- Counters, back pointers, member lists and the order of evaluation fit together. -/
structure InStep (h : Heap) : Prop where
  counter : ∀ p, (h.node p).notEvaluatedChildren =
    ((h.node p).children.countP fun c => (h.node c).eqClass.isNone : ℕ)
  counter_nonneg : ∀ p, 0 ≤ (h.node p).notEvaluatedChildren
  member : ∀ n c, (h.node n).eqClass = some c ↔ n ∈ (h.eqClass c).nodes
  once : ∀ n c, n ∈ (h.eqClass c).nodes →
    (h.eqClass c).nodes.count n = 1 ∧ ∀ d, d ≠ c → n ∉ (h.eqClass d).nodes
  children_evaluated : ∀ p, h.IsEvaluated p → ∀ c ∈ (h.node p).children, h.IsEvaluated c
  parent_iff : ∀ p c, (h.node c).parent = some p ↔ c ∈ (h.node p).children
  child_once : ∀ p c, c ∈ (h.node p).children → (h.node p).children.count c = 1

theorem Consistent.inStep (hc : h.Consistent) : h.InStep where
  counter := hc.counter
  counter_nonneg p := by rw [hc.counter]; exact Int.natCast_nonneg _
  member := hc.member
  once n c hn := by
    refine ⟨List.count_eq_one_of_mem (hc.nodes_nodup c) hn, fun d hd hnd => hd ?_⟩
    have first := (hc.member n d).mpr hnd
    rw [(hc.member n c).mpr hn] at first
    exact (Option.some.inj first).symm
  children_evaluated p hp := hc.children_evaluated hp
  parent_iff p c := (hc.parent_iff p c).symm
  child_once p c child := List.count_eq_one_of_mem (hc.nodup p) child

end Heap

/-- A heap and, for every node that has been added to a class, what it weighed just
before. No code reads the weights. -/
structure Ledger where
  heap : Heap
  weighed : NodeId → ℚ

namespace Ledger

/-- Nodes and classes as their constructors leave them. -/
structure Fresh (s : Ledger) : Prop where
  parent : ∀ n, (s.heap.node n).parent = none
  children : ∀ n, (s.heap.node n).children = []
  waits : ∀ n, (s.heap.node n).notEvaluatedChildren = 0
  unevaluated : ∀ n, (s.heap.node n).eqClass = none
  noMember : ∀ c, s.heap.eqClass c = ⟨[], 0⟩
  evaluated : s.heap.evaluated = []

/-- One call, on objects that exist, in which no assert fails. -/
inductive Step (E : Env) (s : Ledger) : Ledger → Prop where
  | addChild (n child : NodeId) {h'} (ok : s.heap.addChild n child = .ok h') :
      Step E s ⟨h', s.weighed⟩
  | addNode (c n : Nat) {weight h'} (known : c < s.heap.numClasses)
      (weighs : s.heap.getWeight E n = .ok weight) (ok : s.heap.addNode E c n = .ok h') :
      Step E s ⟨h', Function.update s.weighed n weight⟩

inductive Reachable (E : Env) : Ledger → Prop where
  | start {s} : s.Fresh → Reachable E s
  | next {s t} : Reachable E s → Step E s t → Reachable E t

/-- The weight of a class is the mean of what its members weighed when they were added. -/
def Averaged (s : Ledger) : Prop :=
  ∀ c, (s.heap.eqClass c).weight * (s.heap.eqClass c).nodes.length =
    ((s.heap.eqClass c).nodes.map s.weighed).sum

variable {E : Env} {s t : Ledger}

theorem Fresh.consistent (fresh : s.Fresh) : s.heap.Consistent where
  parent_iff p c := by
    change c ∈ (s.heap.node p).children ↔ (s.heap.node c).parent = some p
    simp [fresh.children, fresh.parent]
  nodup p := by
    change (s.heap.node p).children.Nodup
    rw [fresh.children]
    exact List.nodup_nil
  counter p := by simp [fresh.waits, fresh.children]
  member n c := by simp [fresh.unevaluated, fresh.noMember]
  nodes_nodup c := by simp [fresh.noMember]
  unallocated c _ := by simp [fresh.noMember]
  logged n := by simp [fresh.evaluated, Heap.IsEvaluated, fresh.unevaluated]
  log_nodup := by simp [fresh.evaluated]
  log_order := by rw [fresh.evaluated]; exact Justified.nil

theorem step_consistent (hc : s.heap.Consistent) (step : Step E s t) : t.heap.Consistent := by
  cases step with
  | addChild n child ok => exact (Heap.addChild_attached ok).consistent hc
  | addNode c n known _ ok =>
    obtain ⟨placed, fresh, evaluated⟩ := Heap.addNode_effect hc ok
    exact placed.consistent hc fresh evaluated known

theorem step_averaged (exact : E.rounding = .exact) (hc : s.heap.Consistent) (ha : s.Averaged)
    (step : Step E s t) : t.Averaged := by
  cases step with
  | addChild n child ok =>
    intro c
    rw [(Heap.addChild_attached ok).classes]
    exact ha c
  | @addNode c n weight _ known weighs ok =>
    obtain ⟨placed, fresh, evaluated⟩ := Heap.addNode_effect hc ok
    have own : weight = s.heap.ownWeight E n := by
      rw [Heap.getWeight_ok fresh evaluated] at weighs
      exact (Except.ok.inj weighs).symm
    -- the members so far are other nodes, whose weights stay recorded
    have recorded (d : ClassId) :
        (s.heap.eqClass d).nodes.map (Function.update s.weighed n weight) =
          (s.heap.eqClass d).nodes.map s.weighed := by
      apply List.map_congr_left
      intro m hm
      apply Function.update_of_ne
      rintro rfl
      exact hc.notMem_nodes fresh d hm
    intro d
    dsimp only
    rw [placed.weight, placed.nodes]
    by_cases hd : d = c
    · subst hd
      rw [if_pos rfl, if_pos rfl, exact, Heap.newMean_exact, List.length_append, List.map_append,
        List.sum_append, recorded, ← ha d, own]
      have positive : ((s.heap.eqClass d).nodes.length : ℚ) + 1 ≠ 0 := by positivity
      simp [div_mul_cancel₀ _ positive]
    · rw [if_neg hd, if_neg hd, recorded]
      exact ha d

theorem reachable_consistent (reachable : Reachable E s) : s.heap.Consistent := by
  induction reachable with
  | start fresh => exact fresh.consistent
  | next _ step ih => exact step_consistent ih step

theorem reachable_averaged (exact : E.rounding = .exact) (reachable : Reachable E s) :
    s.Averaged := by
  induction reachable with
  | start fresh => intro c; simp [fresh.noMember]
  | next before step ih => exact step_averaged exact (reachable_consistent before) ih step

/-- A node that is ready and not evaluated can be added to any class: the other asserts
on the way hold. -/
theorem addNode_goes_through (hc : s.heap.Consistent) {c n : Nat} (known : c < s.heap.numClasses)
    (ready : s.heap.IsReadyToEvaluate n) (fresh : ¬ s.heap.IsEvaluated n) :
    ∃ t, Step E s t ∧ (t.heap.node n).eqClass = some c := by
  have evaluated := hc.ready_iff.mp ready
  obtain ⟨h', ok, placed⟩ := Heap.addNode_placed E c hc fresh evaluated
  refine ⟨_, .addNode c n known (Heap.getWeight_ok fresh evaluated) ok, ?_⟩
  rw [placed.eqClass, if_pos rfl]

/-- A directory and two files, and two classes. -/
def threeNodes : Ledger where
  heap := {
    numNodes := 3
    node := fun n => ⟨⟨if n = 0 then .dir else .file, "n", n, none, []⟩, none, 0⟩
    numClasses := 2
    eqClass := fun _ => ⟨[], 0⟩
    evaluated := [] }
  weighed := fun _ => 0

theorem threeNodes_fresh : threeNodes.Fresh :=
  ⟨fun _ => rfl, fun _ => rfl, fun _ => rfl, fun _ => rfl, fun _ => rfl, rfl⟩

end Ledger

end Dupa
