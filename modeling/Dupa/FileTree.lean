import Mathlib.Data.List.Dedup
import Mathlib.Logic.Function.Basic
import Dupa.Library.Checked
import Dupa.Library.Forest
import Dupa.Path
import Dupa.Rounding

/-! Nodes and equivalence classes on a heap, as `file_tree.cpp` computes on
them. Pointers are numbers. What leaves the behaviour undefined ends a computation
with a `Fault`: a failing `assert`, a null pointer followed, or a `double` converted
to a `uint64_t` that does not hold it. -/

namespace Dupa

abbrev NodeId := Nat
abbrev ClassId := Nat

inductive NodeType where
  | dir
  | file
  deriving DecidableEq, Repr

/-- The part of a `Node` that is fixed once the tree is built. `size` is only
meaningful for regular files; it is signed, as `off_t` is. -/
structure Entry where
  type : NodeType
  name : String
  size : Int
  parent : Option NodeId
  children : List NodeId
  deriving DecidableEq, Repr

structure Node extends Entry where
  eqClass : Option ClassId
  notEvaluatedChildren : Int
  deriving DecidableEq

@[ext]
structure EqClass where
  nodes : List NodeId
  weight : ℚ

/-- `evaluated` lists the nodes in the order `SetEqClass` evaluated them; no
code reads it. -/
structure Heap where
  numNodes : Nat
  node : NodeId → Node
  numClasses : Nat
  eqClass : ClassId → EqClass
  evaluated : List NodeId

inductive Fault where
  | emptyName
  | notReady
  | alreadyEvaluated
  | notEvaluated
  | noChildToEvaluate
  | alreadyInClass
  | hasParent
  | notADirectory
  | bothFiles
  | outOfRange
  | differenceAboveSum
  | distanceAboveOne
  | candidateIsSelf
  | noCandidate
  | parentReady
  | emptyClass
  | outOfFuel
  deriving DecidableEq, Repr

/-- The order in which a hash container of pointers is iterated after the
given insertions. It depends on addresses, so any order can come out. -/
structure HashOrder where
  visit : List Nat → List Nat
  nodup : ∀ keys, (visit keys).Nodup
  mem : ∀ keys key, key ∈ visit keys ↔ key ∈ keys

/-- The order of the last insertions. -/
def HashOrder.insertion : HashOrder where
  visit := List.dedup
  nodup := List.nodup_dedup
  mem := fun _ _ => List.mem_dedup

/-- The options that matter here, the arithmetic and the hash orders. -/
structure Env where
  useSize : Bool
  tolerableDiffPct : Int
  rounding : Rounding
  nodeOrder : HashOrder
  classOrder : HashOrder

/-- Files are counted, arithmetic is exact and hash sets keep their order. -/
def Env.counting (tolerableDiffPct : Int) : Env :=
  ⟨false, tolerableDiffPct, .exact, .insertion, .insertion⟩

/-- The same, but files count by their sizes. -/
def Env.sizing (tolerableDiffPct : Int) : Env :=
  ⟨true, tolerableDiffPct, .exact, .insertion, .insertion⟩

/-- Files count by their sizes, as `--use_size` has it, in the machine's arithmetic. -/
def Env.machine (tolerableDiffPct : Int) : Env :=
  ⟨true, tolerableDiffPct, .double, .insertion, .insertion⟩

open Checked

namespace Heap

def setNode (h : Heap) (n : NodeId) (node : Node) : Heap :=
  { h with node := Function.update h.node n node }

def setClass (h : Heap) (c : ClassId) (eqClass : EqClass) : Heap :=
  { h with eqClass := Function.update h.eqClass c eqClass }

/-- `std::make_unique<EqClass>()`: the heap with a fresh class, and the class. -/
def newClass (h : Heap) : Heap × ClassId :=
  ({ h.setClass h.numClasses ⟨[], 0⟩ with numClasses := h.numClasses + 1 }, h.numClasses)

/-- The constructor of `Node`. -/
def newNode (h : Heap) (type : NodeType) (name : String) (size : Int) : Heap × NodeId :=
  ({ h.setNode h.numNodes ⟨⟨type, name, size, none, []⟩, none, 0⟩ with
    numNodes := h.numNodes + 1 }, h.numNodes)

def IsReadyToEvaluate (h : Heap) (n : NodeId) : Prop := (h.node n).notEvaluatedChildren = 0

instance (h : Heap) (n : NodeId) : Decidable (h.IsReadyToEvaluate n) :=
  inferInstanceAs (Decidable (_ = _))

def IsEvaluated (h : Heap) (n : NodeId) : Prop := (h.node n).eqClass.isSome

instance (h : Heap) (n : NodeId) : Decidable (h.IsEvaluated n) :=
  inferInstanceAs (Decidable (_ = _))

def IsEmptyDir (h : Heap) (n : NodeId) : Prop :=
  (h.node n).type = .dir ∧ (h.node n).children = []

instance (h : Heap) (n : NodeId) : Decidable (h.IsEmptyDir n) :=
  inferInstanceAs (Decidable (_ ∧ _))

def IsSingle (h : Heap) (c : ClassId) : Prop := (h.eqClass c).nodes.length = 1

instance (h : Heap) (c : ClassId) : Decidable (h.IsSingle c) :=
  inferInstanceAs (Decidable (_ = _))

def getEqClass (h : Heap) (n : NodeId) : Except Fault ClassId :=
  match (h.node n).eqClass with
  | some c => .ok c
  | none => .error .notEvaluated

def addChild (h : Heap) (n child : NodeId) : Except Fault Heap := do
  ensure (¬ h.IsEvaluated n) .alreadyEvaluated
  ensure ((h.node child).parent = none) .hasParent
  ensure (¬ h.IsEvaluated child) .alreadyEvaluated
  ensure ((h.node n).type = .dir) .notADirectory
  let h := h.setNode child { h.node child with parent := some n }
  return h.setNode n { h.node n with
    children := (h.node n).children ++ [child]
    notEvaluatedChildren := (h.node n).notEvaluatedChildren + 1 }

def setEqClass (h : Heap) (n : NodeId) (c : ClassId) : Except Fault Heap := do
  ensure (h.IsReadyToEvaluate n) .notReady
  ensure (¬ h.IsEvaluated n) .alreadyEvaluated
  let h := { h.setNode n { h.node n with eqClass := some c } with
    evaluated := h.evaluated ++ [n] }
  match (h.node n).parent with
  | none => return h
  | some p =>
    ensure ((h.node p).notEvaluatedChildren ≠ 0) .noChildToEvaluate
    return h.setNode p { h.node p with
      notEvaluatedChildren := (h.node p).notEvaluatedChildren - 1 }

/-- The classes of the children, in their order, repetitions kept. -/
def childClasses (h : Heap) (n : NodeId) : Except Fault (List ClassId) :=
  (h.node n).children.mapM h.getEqClass

def getWeight (E : Env) (h : Heap) (n : NodeId) : Except Fault ℚ :=
  match (h.node n).eqClass with
  | some c => return (h.eqClass c).weight
  | none =>
    match (h.node n).type with
    | .file => return if E.useSize then E.rounding.rnd (h.node n).size else 1
    | .dir => do
      let classes ← h.childClasses n
      return (E.classOrder.visit classes).foldl
        (fun weight c => E.rounding.rnd (weight + (h.eqClass c).weight)) 0

/-- The parent that `equivalent`, in the class of `child`, contributes to the
possible equivalents of `n`. -/
def equivalentParent (h : Heap) (n child equivalent : NodeId) : Except Fault (Option NodeId) := do
  ensure (h.IsEvaluated equivalent) .notEvaluated
  match (h.node equivalent).parent with
  | none => return none
  | some p => return if equivalent ≠ child ∧ h.IsEvaluated p ∧ p ≠ n then some p else none

/-- All evaluated nodes that share a child class with this one. -/
def getPossibleEquivalents (E : Env) (h : Heap) (n : NodeId) : Except Fault (List NodeId) := do
  ensure (h.IsReadyToEvaluate n) .notReady
  let parents ← (h.node n).children.mapM fun child => do
    let c ← h.getEqClass child
    (h.eqClass c).nodes.mapM (h.equivalentParent n child)
  return E.nodeOrder.visit (parents.flatten.filterMap id)

/-- `sum += weight`. Converting a `double` that is too large is undefined; on x86-64
it gives 0. -/
def addWeight (E : Env) (sum : ℕ) (weight : ℚ) : Except Fault ℕ := do
  ensure (E.rounding.InRange (E.rounding.plus sum weight)) .outOfRange
  return E.rounding.add sum weight

/-- One class of `eq_classes1`: it always counts towards `sum`, and towards
`sym_diff` unless the other node has it too. -/
def addClass (E : Env) (h : Heap) (shared : ClassId → Bool) (sums : ℕ × ℕ) (c : ClassId) :
    Except Fault (ℕ × ℕ) := do
  let sum ← addWeight E sums.1 (h.eqClass c).weight
  if shared c then return (sum, sums.2)
  return (sum, ← addWeight E sums.2 (h.eqClass c).weight)

def nodeDistance (E : Env) (h : Heap) (n1 n2 : NodeId) : Except Fault ℚ := do
  ensure (h.IsReadyToEvaluate n1) .notReady
  ensure (h.IsReadyToEvaluate n2) .notReady
  ensure ((h.node n1).type ≠ .file ∨ (h.node n2).type ≠ .file) .bothFiles
  let classes1 ← h.childClasses n1
  let classes2 ← h.childClasses n2
  let eqClasses1 := E.classOrder.visit classes1
  let eqClassesOnly2 := E.classOrder.visit (classes2.filter (· ∉ classes1))
  let sums ← eqClasses1.foldlM (h.addClass E (· ∈ classes2)) (0, 0)
  let sums ← eqClassesOnly2.foldlM (h.addClass E fun _ => false) sums
  if sums.1 = 0 then return 0
  ensure (sums.2 ≤ sums.1) .differenceAboveSum
  return E.rounding.rnd (E.rounding.rnd sums.2 / E.rounding.rnd sums.1)

/-- `EqClass::AddNode`. The weight of the node is taken after it joins `nodes`
and before it is evaluated. -/
def addNode (E : Env) (h : Heap) (c : ClassId) (n : NodeId) : Except Fault Heap := do
  ensure (n ∉ (h.eqClass c).nodes) .alreadyInClass
  let nodes := (h.eqClass c).nodes ++ [n]
  let old := (h.eqClass c).weight
  let h := h.setClass c ⟨nodes, old⟩
  let added ← h.getWeight E n
  let rnd := E.rounding.rnd
  let h := h.setClass c ⟨nodes,
    rnd (rnd (rnd (old * rnd (nodes.length - 1 : ℕ)) + added) / rnd nodes.length)⟩
  h.setEqClass n c

/-- `BuildPath`, up at most so many parents. -/
def buildPathUp (h : Heap) : ℕ → NodeId → String
  | 0, n => (h.node n).name
  | fuel + 1, n =>
    match (h.node n).parent with
    | some p => Path.append (h.buildPathUp fuel p) (h.node n).name
    | none => (h.node n).name

def buildPath (h : Heap) (n : NodeId) : String := h.buildPathUp h.numNodes n

/-- `Traverse` calls its callback on these nodes in this order. -/
def traverse (h : Heap) (n : NodeId) : List NodeId :=
  Forest.postorder (fun m => (h.node m).children) h.numNodes n

end Heap

end Dupa
