import Mathlib.Data.List.Sort
import Dupa.Interesting

/-!
# How unique directories are

`CalculateUniqueness` collects the files below every directory and weighs those that
have no duplicate elsewhere against all of them. On a classified tree it fails no
check and reaches every node, each with exactly the files below it
(`calculateUniqueness_ok`). With this, and with its classes sorted, the result of
`FuzzyDedup` is complete (`fuzzyDedup_sound`).
-/

namespace Dupa

open Checked

/-- The quotient of two `double`s; by zero it is no number. -/
def Rounding.divide (R : Rounding) (x y : ℚ) : Option ℚ :=
  if y = 0 then none else some (R.rnd (x / y))

def Layout.FileBelow (L : Layout) (n file : NodeId) : Prop :=
  L.IsFile file ∧ Forest.Below L.children n file

namespace Heap

def hasDuplicateElsewhere (h : Heap) (n : NodeId) (notHere : List NodeId) : Except Fault Bool := do
  let c ← h.getEqClass n
  return (h.eqClass c).nodes.any (· ∉ notHere)

/-- One turn of the loop that sums up `total_weight` and `unique_weight`. -/
def addDescendant (E : Env) (h : Heap) (descendants : List NodeId) (weights : ℚ × ℚ)
    (desc : NodeId) : Except Fault (ℚ × ℚ) := do
  let weight ← h.getWeight E desc
  let total := E.rounding.rnd (weights.1 + weight)
  if ← h.hasDuplicateElsewhere desc descendants then
    return (total, weights.2)
  else
    return (total, E.rounding.rnd (weights.2 + weight))

/-- The fraction of a directory with these files below it. -/
def uniqueFraction (E : Env) (h : Heap) (descendants : List NodeId) : Except Fault (Option ℚ) := do
  let (total, unique) ← descendants.foldlM (h.addDescendant E descendants) (0, 0)
  return if total = 0 then some 0 else E.rounding.divide unique total

/-- `CalculateUniqueness`, at most so deep. It sets `unique_fraction_`, which is `none`
as long as it is not set or if it is no number. -/
def calculateUniqueness (E : Env) (h : Heap) :
    ℕ → NodeId → (NodeId → Option ℚ) → Except Fault (List NodeId × (NodeId → Option ℚ))
  | 0, _, _ => throw .outOfFuel
  | fuel + 1, n, fractions => do
    ensure (h.IsEvaluated n) .notEvaluated
    match (h.node n).type with
    | .file =>
      let c ← h.getEqClass n
      return ([n], Function.update fractions n (some (if h.IsSingle c then 1 else 0)))
    | .dir =>
      let (nodes, fractions) ← (h.node n).children.foldlM (fun (nodes, fractions) child => do
        let (childNodes, fractions) ← h.calculateUniqueness E fuel child fractions
        return (nodes ++ childNodes, fractions)) ([], fractions)
      let descendants := E.nodeOrder.visit nodes
      let fraction ← h.uniqueFraction E descendants
      return (descendants, Function.update fractions n fraction)

/-- The nodes that `CalculateUniqueness` returns, in their order. -/
def descendantsUp (E : Env) (h : Heap) : ℕ → NodeId → List NodeId
  | 0, _ => []
  | fuel + 1, n =>
    match (h.node n).type with
    | .file => [n]
    | .dir => E.nodeOrder.visit ((h.node n).children.flatMap (h.descendantsUp E fuel))

def descendants (E : Env) (h : Heap) (n : NodeId) : List NodeId := h.descendantsUp E h.numNodes n

/-- The fraction of the node: of a file, by its class; of a directory, by the files below. -/
def HasFraction (E : Env) (h : Heap) (n : NodeId) (x : Option ℚ) : Prop :=
  match (h.node n).type with
  | .file => ∃ c, (h.node n).eqClass = some c ∧ x = some (if h.IsSingle c then 1 else 0)
  | .dir => (h.descendants E n).Nodup ∧ (∀ f, f ∈ h.descendants E n ↔ h.layout.FileBelow n f) ∧
      h.uniqueFraction E (h.descendants E n) = .ok x

variable {E : Env} {h : Heap} {root n : NodeId} {x : Option ℚ}

theorem getWeight_evaluated {c : ClassId} (hn : (h.node n).eqClass = some c) :
    h.getWeight E n = .ok (h.eqClass c).weight := by
  simp [getWeight, hn]
  rfl

theorem addDescendant_ok (hn : h.IsEvaluated n) (descendants : List NodeId) (weights : ℚ × ℚ) :
    ∃ weights', h.addDescendant E descendants weights n = .ok weights' := by
  obtain ⟨c, hc⟩ := isEvaluated_iff.mp hn
  rw [addDescendant, getWeight_evaluated hc, ok_bind, hasDuplicateElsewhere, getEqClass_ok hc, ok_bind]
  cases (h.eqClass c).nodes.any (· ∉ descendants) with
  | true => exact ⟨_, rfl⟩
  | false => exact ⟨_, rfl⟩

/-- Of a total that is not zero there is a quotient. -/
theorem uniqueFraction_ok {files : List NodeId} (evaluated : ∀ f ∈ files, h.IsEvaluated f) :
    ∃ x : ℚ, h.uniqueFraction E files = .ok (some x) := by
  obtain ⟨⟨total, unique⟩, hsum, -⟩ := foldlM_ok (f := h.addDescendant E files) (l := files)
    (s := (0, 0)) (I := fun _ _ => True) (by
      rintro done f rest weights rfl -
      obtain ⟨weights', h'⟩ := addDescendant_ok (evaluated f (by simp)) _ weights
      exact ⟨weights', h', trivial⟩) trivial
  rw [uniqueFraction, hsum, ok_bind]
  by_cases zero : total = 0
  · exact ⟨0, by simp only [zero, if_true]; rfl⟩
  · exact ⟨E.rounding.rnd (unique / total), by
      simp only [zero, if_false, Rounding.divide]; rfl⟩

theorem hasFraction_file {c : ClassId} (htype : (h.node n).type = .file)
    (hc : (h.node n).eqClass = some c) :
    h.HasFraction E n (some (if h.IsSingle c then 1 else 0)) := by
  rw [HasFraction, htype]
  exact ⟨c, hc, rfl⟩

theorem hasFraction_dir (htype : (h.node n).type = .dir) (nodup : (h.descendants E n).Nodup)
    (mem : ∀ f, f ∈ h.descendants E n ↔ h.layout.FileBelow n f)
    (hx : h.uniqueFraction E (h.descendants E n) = .ok x) : h.HasFraction E n x := by
  rw [HasFraction, htype]
  exact ⟨nodup, mem, hx⟩

theorem HasFraction.isSome (evaluated : ∀ m < h.numNodes, h.IsEvaluated m)
    (fraction : h.HasFraction E n x) : x.isSome := by
  unfold HasFraction at fraction
  cases htype : (h.node n).type with
  | file =>
    rw [htype] at fraction
    obtain ⟨c, -, rfl⟩ := fraction
    rfl
  | dir =>
    rw [htype] at fraction
    obtain ⟨-, mem, hx⟩ := fraction
    obtain ⟨y, hy⟩ := uniqueFraction_ok (E := E) fun f hf => evaluated f ((mem f).mp hf).1.1
    rw [hy] at hx
    cases hx
    rfl

/-- Levels above the height of a node add nothing. -/
theorem descendantsUp_enough (E : Env) {height : NodeId → ℕ}
    (falls : ∀ p, ∀ c ∈ h.layout.children p, height c < height p) {fuel fuel' : ℕ}
    (enough : height n < fuel) (enough' : height n < fuel') :
    h.descendantsUp E fuel n = h.descendantsUp E fuel' n := by
  induction fuel generalizing n fuel' with
  | zero => omega
  | succ fuel ih =>
    cases fuel' with
    | zero => omega
    | succ fuel' =>
      have same : ∀ c ∈ (h.node n).children, h.descendantsUp E fuel c = h.descendantsUp E fuel' c := by
        intro c hc
        have := falls n c hc
        exact ih (by omega) (by omega)
      simp only [descendantsUp, List.flatMap_congr same]

/-- What a call for `n` returns and leaves of the fractions that were set before. -/
structure Reached (E : Env) (h : Heap) (n : NodeId) (before : NodeId → Option ℚ)
    (result : List NodeId × (NodeId → Option ℚ)) : Prop where
  order : result.1 = h.descendants E n
  nodup : result.1.Nodup
  mem : ∀ f, f ∈ result.1 ↔ h.layout.FileBelow n f
  inside : ∀ m, Forest.Below h.layout.children n m → h.HasFraction E m (result.2 m)
  outside : ∀ m, ¬Forest.Below h.layout.children n m → result.2 m = before m

/-- The same for the children of a node that have been visited. -/
structure ReachedAll (E : Env) (h : Heap) (children : List NodeId) (before : NodeId → Option ℚ)
    (result : List NodeId × (NodeId → Option ℚ)) : Prop where
  order : result.1 = children.flatMap (h.descendants E)
  nodup : result.1.Nodup
  mem : ∀ f, f ∈ result.1 ↔ ∃ c ∈ children, h.layout.FileBelow c f
  inside : ∀ c ∈ children, ∀ m, Forest.Below h.layout.children c m → h.HasFraction E m (result.2 m)
  outside : ∀ m, (∀ c ∈ children, ¬Forest.Below h.layout.children c m) → result.2 m = before m

/-- Another child, with nothing below it that is below those before it. -/
theorem ReachedAll.snoc {done : List NodeId} {c : NodeId} {before : NodeId → Option ℚ}
    {sofar result : List NodeId × (NodeId → Option ℚ)} (reached : h.ReachedAll E done before sofar)
    (next : h.Reached E c sofar.2 result)
    (apart : ∀ d ∈ done, ∀ m, Forest.Below h.layout.children d m →
      ¬Forest.Below h.layout.children c m) :
    h.ReachedAll E (done ++ [c]) before (sofar.1 ++ result.1, result.2) := by
  constructor
  case order => simp [reached.order, next.order]
  case nodup =>
    refine List.nodup_append.mpr ⟨reached.nodup, next.nodup, ?_⟩
    rintro f hf g hg rfl
    obtain ⟨d, hd, below⟩ := (reached.mem f).mp hf
    exact apart d hd f below.2 ((next.mem f).mp hg).2
  case mem =>
    intro f
    simp only [List.mem_append, List.mem_singleton, reached.mem, next.mem, or_and_right, exists_or,
      exists_eq_left]
  case inside =>
    intro d hd m below
    rcases List.mem_append.mp hd with hd | hd
    · rw [next.outside m (apart d hd m below)]
      exact reached.inside d hd m below
    · obtain rfl := List.mem_singleton.mp hd
      exact next.inside m below
  case outside =>
    intro m out
    rw [next.outside m (out c (by simp))]
    exact reached.outside m fun d hd => out d (List.mem_append_left _ hd)

theorem reached_file (tree : h.layout.IsTree root) (file : h.layout.IsFile n) {c : ClassId}
    (hc : (h.node n).eqClass = some c) (before : NodeId → Option ℚ) :
    h.Reached E n before
      ([n], Function.update before n (some (if h.IsSingle c then 1 else 0))) := by
  have alone : h.descendants E n = [n] := by
    obtain ⟨levels, hlevels⟩ := Nat.exists_eq_succ_of_ne_zero (Nat.ne_zero_of_lt file.1)
    rw [descendants, show h.numNodes = levels + 1 from hlevels, descendantsUp,
      show (h.node n).type = .file from file.2]
  have leaf : ∀ m, Forest.Below h.layout.children n m ↔ m = n := fun m => by
    rw [Forest.below_iff, tree.file_leaf file]
    simp
  constructor
  case order => exact alone.symm
  case nodup => exact List.nodup_singleton n
  case mem =>
    intro f
    rw [List.mem_singleton, Layout.FileBelow, leaf]
    exact ⟨fun hf => ⟨hf ▸ file, hf⟩, And.right⟩
  case inside =>
    intro m hm
    obtain rfl := (leaf m).mp hm
    dsimp only
    rw [Function.update_self]
    exact hasFraction_file file.2 hc
  case outside =>
    intro m hm
    exact Function.update_of_ne (fun hmn => hm ((leaf m).mpr hmn)) _ _

theorem ReachedAll.reached (evaluated : ∀ m < h.numNodes, h.IsEvaluated m)
    (htype : (h.node n).type = .dir)
    (flat : h.descendants E n =
      E.nodeOrder.visit ((h.layout.children n).flatMap (h.descendants E)))
    {before : NodeId → Option ℚ} {sofar : List NodeId × (NodeId → Option ℚ)}
    (all : h.ReachedAll E (h.layout.children n) before sofar) :
    ∃ x, h.uniqueFraction E (E.nodeOrder.visit sofar.1) = .ok x ∧
      h.Reached E n before (E.nodeOrder.visit sofar.1, Function.update sofar.2 n x) := by
  have mem : ∀ f, f ∈ E.nodeOrder.visit sofar.1 ↔ h.layout.FileBelow n f := by
    intro f
    rw [E.nodeOrder.mem, all.mem]
    constructor
    · rintro ⟨c, hc, file, below⟩
      exact ⟨file, Forest.below_of_child hc below⟩
    · rintro ⟨file, below⟩
      rcases Forest.below_iff.mp below with rfl | ⟨c, hc, below⟩
      · exact absurd (htype.symm.trans file.2) (by simp)
      · exact ⟨c, hc, file, below⟩
  have order : E.nodeOrder.visit sofar.1 = h.descendants E n := by rw [flat, all.order]
  obtain ⟨x, hx⟩ := uniqueFraction_ok (E := E) fun f hf => evaluated f ((mem f).mp hf).1.1
  refine ⟨some x, hx, order, E.nodeOrder.nodup _, mem, fun m below => ?_, fun m out => ?_⟩
  · dsimp only
    by_cases hm : m = n
    · subst hm
      rw [Function.update_self]
      exact hasFraction_dir htype (order ▸ E.nodeOrder.nodup _) (order ▸ mem) (order ▸ hx)
    · obtain ⟨c, hc, below⟩ := (Forest.below_iff.mp below).resolve_left hm
      rw [Function.update_of_ne hm]
      exact all.inside c hc m below
  · have hm : m ≠ n := fun hmn => out (hmn ▸ Forest.below_refl _)
    dsimp only
    rw [Function.update_of_ne hm]
    exact all.outside m fun c hc below => out (Forest.below_of_child hc below)

/-- By induction on the fuel, with a height that falls along every edge below it. -/
theorem calculateUniqueness_ok (E : Env) (tree : h.layout.IsTree root)
    (evaluated : ∀ m < h.numNodes, h.IsEvaluated m) {height : NodeId → ℕ}
    (falls : ∀ p, ∀ c ∈ h.layout.children p, height c < height p)
    (bound : ∀ n < h.numNodes, height n < h.numNodes) {fuel : ℕ} (enough : height n < fuel)
    (hn : n < h.numNodes) (before : NodeId → Option ℚ) :
    ∃ result, h.calculateUniqueness E fuel n before = .ok result ∧ h.Reached E n before result := by
  induction fuel generalizing n before with
  | zero => omega
  | succ fuel ih =>
    rw [calculateUniqueness, ensure_bind (evaluated n hn)]
    cases htype : (h.node n).type with
    | file =>
      obtain ⟨c, hc⟩ := isEvaluated_iff.mp (evaluated n hn)
      refine ⟨_, ?_, reached_file tree ⟨hn, htype⟩ hc before⟩
      simp only [getEqClass_ok hc, ok_bind]
      rfl
    | dir =>
      obtain ⟨⟨nodes, fractions⟩, hfold, all⟩ := foldlM_ok (l := h.layout.children n)
        (f := fun (s : List NodeId × (NodeId → Option ℚ)) child => do
          let (childNodes, fractions) ← h.calculateUniqueness E fuel child s.2
          return (s.1 ++ childNodes, fractions))
        (s := ([], before)) (I := fun done s => h.ReachedAll E done before s) (by
          intro done c rest s split reached
          have hc : c ∈ h.layout.children n := by simp [split]
          have lower := falls n c hc
          obtain ⟨result, hcall, next⟩ := ih (by omega) (tree.inside n c hc).2 s.2
          refine ⟨(s.1 ++ result.1, result.2), by rw [hcall]; rfl, reached.snoc next ?_⟩
          intro d hd m
          have distinct := tree.nodup n
          rw [split] at distinct
          exact tree.forest.siblings_apart (by simp [split, hd]) hc
            ((List.nodup_append.mp distinct).2.2 d hd c List.mem_cons_self))
        ⟨rfl, List.nodup_nil, by simp, by simp, fun _ _ => rfl⟩
      have flat : h.descendants E n =
          E.nodeOrder.visit ((h.layout.children n).flatMap (h.descendants E)) := by
        have here := bound n hn
        rw [descendants, descendantsUp_enough E falls here (Nat.lt_succ_of_lt here), descendantsUp,
          htype]
        rfl
      obtain ⟨x, hx, reached⟩ := all.reached evaluated htype flat
      refine ⟨_, ?_, reached⟩
      change (List.foldlM _ _ (h.layout.children n) >>= _) = _
      simp only [hfold, ok_bind, hx]
      rfl

/-- The order of the classes does not matter. -/
theorem Partitioned.perm {eqClasses sorted : List ClassId} (part : h.Partitioned eqClasses)
    (perm : sorted.Perm eqClasses) : h.Partitioned sorted where
  classified n hn := by
    obtain ⟨c, hc, hnc⟩ := part.classified n hn
    exact ⟨c, perm.mem_iff.mpr hc, hnc⟩
  member c hc := part.member c (perm.mem_iff.mp hc)
  nodes_nodup c hc := part.nodes_nodup c (perm.mem_iff.mp hc)
  nonempty c hc := part.nonempty c (perm.mem_iff.mp hc)

end Heap

/-! ## The result -/

/-- `std::sort` by weight, the heaviest class first. Of classes with equal weights any
can come first. -/
structure ClassSort where
  sort : (ClassId → ℚ) → List ClassId → List ClassId
  perm : ∀ weight classes, (sort weight classes).Perm classes
  ordered : ∀ weight classes, (sort weight classes).Pairwise fun a b => weight b ≤ weight a

/-- Of classes with equal weights the one before in the list stays before. -/
def ClassSort.insertion : ClassSort where
  sort weight classes := classes.insertionSort fun a b => weight b ≤ weight a
  perm _ _ := List.perm_insertionSort _ _
  ordered weight _ :=
    haveI : Std.Total fun a b => weight b ≤ weight a := ⟨fun a b => le_total (weight b) (weight a)⟩
    haveI : IsTrans ClassId fun a b => weight b ≤ weight a := ⟨fun _ _ _ hab hbc => hbc.trans hab⟩
    List.pairwise_insertionSort _ _

structure FuzzyDedupRes where
  heap : Heap
  eqClasses : List ClassId
  uniqueFraction : NodeId → Option ℚ

def Heap.sortEqClasses (S : ClassSort) (h : Heap) (eqClasses : List ClassId) : List ClassId :=
  S.sort (fun c => (h.eqClass c).weight) eqClasses

/-- `FuzzyDedup`, once the directory has been scanned and has a root. -/
def fuzzyDedup (E : Env) (S : ClassSort) (h : Heap) (root : NodeId) (sum2Node : Sum2Node) :
    Except Fault FuzzyDedupRes := do
  let (h, eqClasses) ← classify E h root sum2Node
  let eqClasses := h.sortEqClasses S eqClasses
  let (_, uniqueFraction) ← h.calculateUniqueness E h.numNodes root fun _ => none
  return ⟨h, eqClasses, uniqueFraction⟩

/-- The classes partition the tree, and every node has its fraction. -/
structure FuzzyDedupRes.Sound (E : Env) (root : NodeId) (res : FuzzyDedupRes) : Prop where
  tree : res.heap.layout.IsTree root
  partitioned : res.heap.Partitioned res.eqClasses
  nodup : res.eqClasses.Nodup
  known : ∀ c ∈ res.eqClasses, c < res.heap.numClasses
  fractions : ∀ n < res.heap.numNodes, res.heap.HasFraction E n (res.uniqueFraction n)

theorem Heap.Partitioned.evaluated {h : Heap} {eqClasses : List ClassId}
    (part : h.Partitioned eqClasses) {n : NodeId} (hn : n < h.numNodes) : h.IsEvaluated n := by
  obtain ⟨c, -, hc⟩ := part.classified n hn
  exact Heap.evaluated_of_eqClass hc

section
variable {E : Env} {S : ClassSort} {cksum : NodeId → Cksum} {h : Heap} {root : NodeId}
  {sum2Node : Sum2Node} {res : FuzzyDedupRes}

/-- A result comes of a classification that returned. -/
theorem fuzzyDedup_classified (run : fuzzyDedup E S h root sum2Node = .ok res) :
    ∃ eqClasses files, classify E h root sum2Node = .ok (res.heap, eqClasses) ∧
      res.eqClasses = res.heap.sortEqClasses S eqClasses ∧
      res.heap.calculateUniqueness E res.heap.numNodes root (fun _ => none) =
        .ok (files, res.uniqueFraction) := by
  obtain ⟨⟨h', eqClasses⟩, classified, run⟩ := of_bind_ok run
  obtain ⟨⟨files, fractions⟩, unique, run⟩ := of_bind_ok run
  cases run
  exact ⟨eqClasses, files, classified, rfl, unique⟩

/-- Nothing fails once the tree is classified. -/
theorem Heap.Classified.unique {h' : Heap} {eqClasses : List ClassId}
    (done : Heap.Classified E cksum h h' eqClasses) (fresh : h.Fresh root) :
    ∃ result, h'.calculateUniqueness E h'.numNodes root (fun _ => none) = .ok result ∧
      h'.Reached E root (fun _ => none) result := by
  have tree : h'.layout.IsTree root := done.moves.layout ▸ fresh.tree
  obtain ⟨height, falls, bound⟩ := tree.bounded_height
  exact Heap.calculateUniqueness_ok E tree
    (fun m hm => (done.partitioned fresh).evaluated hm) falls bound (bound root tree.root_dir.1)
    tree.root_dir.1 fun _ => none

theorem fuzzyDedup_sound (fresh : h.Fresh root) (holds : sum2Node.Holds h.layout cksum)
    (run : fuzzyDedup E S h root sum2Node = .ok res) :
    res.heap.layout = h.layout ∧ res.Sound E root := by
  obtain ⟨eqClasses, files, classified, sorted, unique⟩ := fuzzyDedup_classified run
  have done := Propagation.of_classify fresh holds classified
  obtain ⟨result, unique', reached⟩ := done.unique fresh
  obtain rfl := Except.ok.inj (unique.symm.trans unique')
  have tree : res.heap.layout.IsTree root := done.moves.layout ▸ fresh.tree
  have perm := S.perm (fun c => (res.heap.eqClass c).weight) eqClasses
  have part : res.heap.Partitioned res.eqClasses := by
    rw [sorted]
    exact (done.partitioned fresh).perm perm
  refine ⟨done.moves.layout, tree, part, ?_, fun c hcl => ?_,
    fun n hn => reached.inside n (tree.below_root hn)⟩
  · rw [sorted]
    exact perm.nodup_iff.mpr done.listed.nodup
  · have hc := done.moves.consistent fresh.tree fresh.consistent
    by_contra unknown
    exact part.nonempty c hcl (hc.unallocated c (Nat.le_of_not_lt unknown))

/-- `FuzzyDedup` has a result just when the classification returns. -/
theorem fuzzyDedup_ok_iff (fresh : h.Fresh root) (holds : sum2Node.Holds h.layout cksum)
    (sized : E.Sized h.layout) :
    (∃ res, fuzzyDedup E S h root sum2Node = .ok res) ↔
      Propagation.SumsFit E h root sum2Node := by
  constructor
  · rintro ⟨res, run⟩
    obtain ⟨eqClasses, files, classified, -⟩ := fuzzyDedup_classified run
    exact .of_classify fresh holds classified
  · intro fits
    obtain ⟨h', eqClasses, classified, done⟩ := fits.classify fresh holds sized
    obtain ⟨result, unique, -⟩ := done.unique fresh
    refine ⟨⟨h', h'.sortEqClasses S eqClasses, result.2⟩, ?_⟩
    rw [fuzzyDedup, classified, ok_bind]
    change (h'.calculateUniqueness E h'.numNodes root (fun _ => none) >>= _) = _
    rw [unique]
    rfl

theorem fuzzyDedup_exact (S : ClassSort) (exact : E.rounding = .exact) (fresh : h.Fresh root)
    (holds : sum2Node.Holds h.layout cksum) (sized : E.Sized h.layout) :
    ∃ res, fuzzyDedup E S h root sum2Node = .ok res :=
  (fuzzyDedup_ok_iff fresh holds sized).mpr
    (Propagation.sumsFit_of_unlimited (by rw [exact]; rfl) fresh holds sized)

end

end Dupa
