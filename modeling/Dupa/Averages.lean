import Dupa.Distance
import Dupa.Weights

/-!
# When a class was weighed

`AddNode` feeds the running mean of a class with the weight that the new member has at
that moment. The weight of a class of directories is the mean of these weights
(`weight_as_added`), not of those the members have when the classification is over:
the class of a child can still change (`stale_weight`).
-/

namespace Dupa

open Checked Heap Propagation

namespace Heap

variable {E : Env} {cksum : NodeId → Cksum} {h h' : Heap} {n m c : Nat}

/-- The average of what the classes of the children of its members weigh. -/
def average (h : Heap) (c : ClassId) : ℚ :=
  ((h.eqClass c).nodes.map h.total).sum / (h.eqClass c).nodes.length

/-- A move that evaluates a node adds it to one class. -/
theorem Move.added {cksum : NodeId → Cksum} {root : NodeId} (exact : E.rounding = .exact)
    (tree : h.layout.IsTree root) (hc : h.Consistent) (move : Move E cksum h h')
    (logged : h'.evaluated = h.evaluated ++ [n]) : ∃ c, Added E h n c h' := by
  have last : ∀ {m}, h'.evaluated = h.evaluated ++ [m] → m = n := by
    intro m log
    rw [logged] at log
    exact (List.singleton_inj.mp (List.append_cancel_left log)).symm
  cases move with
  | newClass =>
    have : h.evaluated = h.evaluated ++ [n] := logged
    simp at this
  | @leaf m c _ inside leaf fresh known alike all placed =>
    obtain rfl := last placed.evaluated
    exact ⟨c, placed.added exact fresh (childrenEvaluated_of_leaf tree leaf) inside⟩
  | @dir m c _ dir fresh ready leaves settled =>
    obtain rfl := last settled.evaluated
    obtain ⟨x, hx⟩ := List.exists_mem_of_ne_nil _ (kind_eq_dir_iff.mp dir).2
    exact ⟨c, settled.added exact hc fresh ready (tree.inside m x hx).1⟩

end Heap

variable {E : Env} {cksum : NodeId → Cksum} {h : Heap} {root : NodeId} {sum2Node : Sum2Node}
  {s s' : Propagation} {n : NodeId}

/-- `before` gives for every directory the state whose turn evaluated it, and classes
of directories weigh what their members weighed then. -/
structure Recorded (E : Env) (cksum : NodeId → Cksum) (h : Heap) (root : NodeId)
    (sum2Node : Sum2Node) (before : NodeId → Propagation) (s : Propagation) : Prop where
  front : ∀ n, s.heap.IsEvaluated n → h.layout.kind cksum n = .dir →
    Reached E h root sum2Node (before n) ∧ (∃ rest, (before n).readyToEval = n :: rest) ∧
      (before n).heap.childSet n = s.heap.childSet n
  mean : ∀ c, (∀ n ∈ (s.heap.eqClass c).nodes, h.layout.kind cksum n = .dir) →
    (s.heap.eqClass c).weight * (s.heap.eqClass c).nodes.length =
      ((s.heap.eqClass c).nodes.map fun n => (before n).heap.total n).sum

theorem Recorded.start (fresh : h.Fresh root) (holds : sum2Node.Holds h.layout cksum)
    (starts : start E h root sum2Node = .ok s) (before : NodeId → Propagation) :
    Recorded E cksum h root sum2Node before s := by
  have leaves := start_leaves fresh holds starts
  constructor
  · intro n hn dir
    exact absurd dir ((leaves.evaluated n).mp hn).2
  · intro c dirs
    have none : (s.heap.eqClass c).nodes = [] := by
      apply List.eq_nil_iff_forall_not_mem.mpr
      intro n hn
      have evaluated := leaves.sound.consistent.evaluated_of_mem hn
      exact ((leaves.evaluated n).mp evaluated).2 (dirs n hn)
    simp [none]

/-- One turn records the state it starts from. -/
theorem Recorded.turn (fresh : h.Fresh root) (holds : sum2Node.Holds h.layout cksum)
    (exact : E.rounding = .exact) {before : NodeId → Propagation}
    (recorded : Recorded E cksum h root sum2Node before s) (reached : Reached E h root sum2Node s)
    (sound : s.Sound cksum root) (turn : Turn E s n s') :
    Recorded E cksum h root sum2Node (Function.update before n s) s' := by
  have hc := sound.consistent
  obtain ⟨move, logged, -⟩ := turn.sound sound
  obtain ⟨c, added⟩ := move.added exact sound.tree hc logged
  obtain ⟨front, -⟩ := turn
  have layout := (reached.moves fresh holds).1.layout
  have others : ∀ m, s.heap.IsEvaluated m → Function.update before n s m = before m := by
    intro m hm
    apply Function.update_of_ne
    rintro rfl
    exact added.fresh hm
  have older : ∀ d, ∀ m ∈ (s.heap.eqClass d).nodes, s.heap.IsEvaluated m := fun _ _ =>
    hc.evaluated_of_mem
  constructor
  · intro m hm dir
    rcases added.isEvaluated_iff.mp hm with rfl | hm
    · rw [Function.update_self, added.childSet added.ready]
      exact ⟨reached, ⟨_, front⟩, rfl⟩
    · rw [others m hm, added.childSet (hc.children_evaluated hm)]
      exact recorded.front m hm dir
  · intro d dirs
    have same : ((s.heap.eqClass d).nodes.map fun m => (Function.update before n s m).heap.total m) =
        (s.heap.eqClass d).nodes.map fun m => (before m).heap.total m := by
      apply List.map_congr_left
      intro m hm
      rw [others m (older d m hm)]
    by_cases hd : d = c
    · subst hd
      rw [added.nodes] at dirs ⊢
      have old := recorded.mean d fun m hm => dirs m (List.mem_append_left _ hm)
      have type : (s.heap.node n).type = .dir := by
        have dir := dirs n (List.mem_append_right _ (List.mem_singleton_self n))
        rw [← layout] at dir
        exact (kind_eq_dir_iff.mp dir).1
      have own : s.heap.ownWeight E n = s.heap.total n := ownWeight_dir exact type
      have count : (0 : ℚ) < (s.heap.eqClass d).nodes.length + 1 := by positivity
      rw [added.weight, List.length_append, List.length_singleton, List.map_append,
        List.sum_append, same, ← old, own]
      push_cast
      rw [div_mul_cancel₀ _ (ne_of_gt count)]
      simp
    · rw [added.others d hd] at dirs ⊢
      rw [same]
      exact recorded.mean d dirs

theorem Propagation.Reached.recorded (fresh : h.Fresh root)
    (holds : sum2Node.Holds h.layout cksum) (exact : E.rounding = .exact)
    (reached : Reached E h root sum2Node s) :
    ∃ before, Recorded E cksum h root sum2Node before s := by
  obtain ⟨s0, starts, turns⟩ := reached
  induction turns with
  | refl => exact ⟨fun _ => s0, .start fresh holds starts _⟩
  | @tail s t turns turn ih =>
    obtain ⟨n, turn⟩ := turn
    obtain ⟨before, recorded⟩ := ih
    have reached : Reached E h root sum2Node s := ⟨s0, starts, turns⟩
    exact ⟨_, recorded.turn fresh holds exact reached (reached.moves fresh holds).2 turn⟩

/-- The weight of a class of directories is the average of what its members weighed when
they were added, and what they weigh in the end when the differences cancel out. -/
theorem weight_as_added (E : Env) (cksum : NodeId → Cksum) {h : Heap} {root : NodeId}
    {sum2Node : Sum2Node} (fresh : h.Fresh root) (holds : sum2Node.Holds h.layout cksum)
    (sized : E.Sized h.layout) (exact : E.rounding = .exact) :
    ∃ h' eqClasses, classify E h root sum2Node = .ok (h', eqClasses) ∧
      ∃ before : NodeId → Propagation,
        (∀ n < h.numNodes, h.layout.kind cksum n = .dir →
          Reached E h root sum2Node (before n) ∧ (∃ rest, (before n).readyToEval = n :: rest) ∧
            (before n).heap.childSet n = h'.childSet n) ∧
        ∀ c ∈ eqClasses, (∀ n ∈ (h'.eqClass c).nodes, h.layout.kind cksum n = .dir) →
          (h'.eqClass c).weight = ((h'.eqClass c).nodes.map fun n => (before n).heap.total n).sum /
            (h'.eqClass c).nodes.length ∧
          ((h'.eqClass c).weight = h'.average c ↔
            ((h'.eqClass c).nodes.map fun n => h'.total n - (before n).heap.total n).sum = 0) := by
  obtain ⟨h', eqClasses, run, done⟩ := classify_exact exact fresh holds sized
  obtain ⟨s, reached, -, rfl, rfl⟩ := classify_reached run
  obtain ⟨before, recorded⟩ := reached.recorded fresh holds exact
  refine ⟨s.heap, s.eqClasses, run, before,
    fun n hn dir => recorded.front n ((done.evaluated n).mpr hn) dir, fun c hc dirs => ?_⟩
  have count : ((s.heap.eqClass c).nodes.length : ℚ) ≠ 0 := by
    have := (done.listed.mem c).mp hc
    rw [Nat.cast_ne_zero, Ne, List.length_eq_zero_iff]
    exact this
  have mean := recorded.mean c dirs
  have difference : ((s.heap.eqClass c).nodes.map fun n =>
      s.heap.total n - (before n).heap.total n).sum =
      ((s.heap.eqClass c).nodes.map s.heap.total).sum -
        (s.heap.eqClass c).weight * (s.heap.eqClass c).nodes.length := by
    rw [mean]
    exact Multiset.sum_map_sub (m := ((s.heap.eqClass c).nodes : Multiset NodeId))
  refine ⟨(eq_div_iff count).mpr mean, ?_⟩
  rw [difference, Heap.average, eq_div_iff count, sub_eq_zero, eq_comm]

theorem weight_as_added_twins :
    ∃ h' eqClasses, classify (.counting 10) (.ofEntries twins) 0 twinSums = .ok (h', eqClasses) ∧
      ∃ before : NodeId → Propagation, ∀ n < 6,
        (Heap.ofEntries twins).layout.kind (fun _ => 7) n = .dir →
          (before n).heap.childSet n = h'.childSet n := by
  obtain ⟨h', eqClasses, run, before, front, -⟩ :=
    weight_as_added (.counting 10) _ twins_fresh twins_holds (Env.counting_sized 10 _) rfl
  exact ⟨h', eqClasses, run, before, fun n hn dir => (front n hn dir).2.2⟩

/-! ## A class that gains a member later

Directory `a` holds `x`, `y` and `z` and is all that `p` holds; `b` holds the same files
and a directory with another one. `p` is weighed before `b` joins the class of `a`. -/

def grown : List Entry :=
  [⟨.dir, "r", 0, none, [1, 2]⟩, ⟨.dir, "p", 0, some 0, [3]⟩, ⟨.dir, "b", 0, some 0, [8, 9, 10, 4]⟩,
    ⟨.dir, "a", 0, some 1, [5, 6, 7]⟩, ⟨.dir, "d", 0, some 2, [11]⟩,
    ⟨.file, "x", 1, some 3, []⟩, ⟨.file, "y", 1, some 3, []⟩, ⟨.file, "z", 1, some 3, []⟩,
    ⟨.file, "x", 1, some 2, []⟩, ⟨.file, "y", 1, some 2, []⟩, ⟨.file, "z", 1, some 2, []⟩,
    ⟨.file, "w", 1, some 4, []⟩]

def grownSums : Sum2Node :=
  ⟨[(1, [5, 8]), (2, [6, 9]), (3, [7, 10]), (4, [11])], by decide, by decide⟩

def grownCksum (n : NodeId) : Cksum :=
  if n = 5 ∨ n = 8 then 1 else if n = 6 ∨ n = 9 then 2 else if n = 11 then 4 else 3

theorem grown_fresh : (Heap.ofEntries grown).Fresh 0 := Heap.ofEntries_fresh (by decide)

theorem grown_holds : grownSums.Holds (Heap.ofEntries grown).layout grownCksum :=
  Sum2Node.holds_of_groups (by decide) (by decide) (by decide)

/-- The class of `p` weighs 3, and the class of its child 3.5. -/
theorem stale_weight :
    ¬∀ (E : Env) (cksum : NodeId → Cksum) (h : Heap) (root : NodeId) (sum2Node : Sum2Node),
      h.Fresh root → sum2Node.Holds h.layout cksum → E.Sized h.layout → E.rounding = .exact →
      1 ≤ E.tolerableDiffPct → E.tolerableDiffPct ≤ 100 →
      ∀ h' eqClasses, classify E h root sum2Node = .ok (h', eqClasses) →
        ∀ c ∈ eqClasses, (∀ n ∈ (h'.eqClass c).nodes, h.layout.kind cksum n = .dir) →
          (h'.eqClass c).weight = h'.average c := by
  intro claim
  have sized := Env.counting_sized 50 (Heap.ofEntries grown).layout
  obtain ⟨h', eqClasses, run, -⟩ := classify_exact (E := .counting 50) rfl grown_fresh grown_holds sized
  have stale : Returns (fun s : Heap × List ClassId => 7 ∈ s.2 ∧
      (∀ n ∈ (s.1.eqClass 7).nodes, (Heap.ofEntries grown).layout.kind grownCksum n = .dir) ∧
      (s.1.eqClass 7).weight ≠ s.1.average 7)
      (classify (.counting 50) (.ofEntries grown) 0 grownSums) := by
    decide +kernel
  rw [run] at stale
  obtain ⟨listed, dirs, differ⟩ := stale
  exact differ (claim _ _ _ _ _ grown_fresh grown_holds sized rfl (by decide) (by decide) h' eqClasses
    run 7 listed dirs)

end Dupa
