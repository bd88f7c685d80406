import Dupa.FileTree
import Dupa.Path

/-! The classification of `fuzzy_dedup.cpp`: classes for files by checksum, one
class for all empty directories, and the propagation from there to the root. -/

namespace Dupa

open Checked

/-- `unordered_multimap<Cksum, Node *>` in the order it is iterated: elements
with equal keys are adjacent, keys and elements otherwise come in any order. -/
structure Sum2Node where
  groups : List (Cksum × List NodeId)
  keys : (groups.map Prod.fst).Nodup
  nonempty : ∀ group ∈ groups, group.2 ≠ []

namespace Heap

def addNodes (E : Env) (h : Heap) (c : ClassId) (nodes : List NodeId) : Except Fault Heap :=
  nodes.foldlM (fun h n => h.addNode E c n) h

/-- One range of equal keys gets a class of its own. -/
def classifyRange (E : Env) (s : Heap × List ClassId) (range : Cksum × List NodeId) :
    Except Fault (Heap × List ClassId) := do
  let (h, c) := s.1.newClass
  let h ← h.addNodes E c range.2
  return (h, s.2 ++ [c])

def classifyDuplicateFiles (E : Env) (h : Heap) (sum2Node : Sum2Node) :
    Except Fault (Heap × List ClassId) :=
  sum2Node.groups.foldlM (classifyRange E) (h, [])

def classifyEmptyDirs (E : Env) (h : Heap) (root : NodeId) : Except Fault (Heap × ClassId) := do
  let (h, c) := h.newClass
  let h ← (h.traverse root).foldlM
    (fun h n => if h.IsEmptyDir n then h.addNode E c n else return h) h
  return (h, c)

def getNodesReadyToEval (h : Heap) (root : NodeId) : List NodeId :=
  (h.traverse root).filter fun n => h.IsReadyToEvaluate n ∧ ¬ h.IsEvaluated n

/-- The loop of `GetClosestNode` over the candidates after the first. -/
def closerNode (E : Env) (h : Heap) (ref : NodeId) (best : NodeId × ℚ) :
    List NodeId → Except Fault (NodeId × ℚ)
  | [] => return best
  | candidate :: rest => do
    ensure (candidate ≠ ref) .candidateIsSelf
    ensure (h.IsEvaluated candidate) .notEvaluated
    let distance ← h.nodeDistance E ref candidate
    ensure (distance < 11 / 10) .distanceAboveOne
    h.closerNode E ref (if distance < best.2 then (candidate, distance) else best) rest

def getClosestNode (E : Env) (h : Heap) (ref : NodeId) :
    List NodeId → Except Fault (NodeId × ℚ)
  | [] => throw .noCandidate
  | first :: rest => do
    let distance ← h.nodeDistance E ref first
    h.closerNode E ref (first, distance) rest

/-- The class a ready node joins, or none if it gets a new one. -/
def classToJoin (E : Env) (h : Heap) (n : NodeId) : Except Fault (Option ClassId) := do
  let possibleEquivalents ← h.getPossibleEquivalents E n
  if possibleEquivalents = [] then return none
  let (minElem, dist) ← h.getClosestNode E n possibleEquivalents
  if dist < E.rounding.rnd (E.tolerableDiffPct / 100) then
    return some (← h.getEqClass minElem)
  return none

end Heap

/-- The heap, `eq_classes` and the queue `ready_to_eval`. -/
structure Propagation where
  heap : Heap
  eqClasses : List ClassId
  readyToEval : List NodeId

namespace Propagation

/-- The node takes its place: in the class it joins, or in a new one. -/
def place (E : Env) (s : Propagation) (n : NodeId) : Option ClassId → Except Fault Propagation
  | some c => return { s with heap := ← s.heap.addNode E c n }
  | none => do
    let (h, c) := s.heap.newClass
    return { s with heap := ← h.addNode E c n, eqClasses := s.eqClasses ++ [c] }

/-- Evaluating a node can make its parent ready. -/
def pushParent (s : Propagation) (n : NodeId) : Propagation :=
  match (s.heap.node n).parent with
  | none => s
  | some p =>
    if s.heap.IsReadyToEvaluate p then { s with readyToEval := s.readyToEval ++ [p] } else s

def parentNotReady (h : Heap) (n : NodeId) : Prop :=
  ∀ p ∈ (h.node n).parent, ¬ h.IsReadyToEvaluate p

instance (h : Heap) (n : NodeId) : Decidable (parentNotReady h n) :=
  inferInstanceAs (Decidable (∀ p ∈ (h.node n).parent, _))

/-- One turn of the loop, for a node just popped off the queue. -/
def evaluate (E : Env) (s : Propagation) (n : NodeId) : Except Fault Propagation := do
  ensure (s.heap.IsReadyToEvaluate n) .notReady
  ensure (¬ s.heap.IsEvaluated n) .alreadyEvaluated
  ensure (parentNotReady s.heap n) .parentReady
  let choice ← s.heap.classToJoin E n
  let s ← s.place E n choice
  return s.pushParent n

def loop (E : Env) : ℕ → Propagation → Except Fault Propagation
  | 0, _ => throw .outOfFuel
  | fuel + 1, s =>
    match s.readyToEval with
    | [] => return s
    | n :: rest => do loop E fuel (← evaluate E { s with readyToEval := rest } n)

end Propagation

def propagateEquivalence (E : Env) (h : Heap) (root : NodeId) (eqClasses : List ClassId) :
    Except Fault (Heap × List ClassId) := do
  let s ← Propagation.loop E (h.numNodes + 1) ⟨h, eqClasses, h.getNodesReadyToEval root⟩
  ensure (s.heap.IsEvaluated root) .notEvaluated
  return (s.heap, s.eqClasses)

/-- The classification `FuzzyDedup` runs on a scanned tree. -/
def classify (E : Env) (h : Heap) (root : NodeId) (sum2Node : Sum2Node) :
    Except Fault (Heap × List ClassId) := do
  let (h, eqClasses) ← h.classifyDuplicateFiles E sum2Node
  let (h, emptyDirs) ← h.classifyEmptyDirs E root
  let eqClasses := if (h.eqClass emptyDirs).nodes = [] then eqClasses else eqClasses ++ [emptyDirs]
  propagateEquivalence E h root eqClasses

namespace Heap

/-- The parent of `n` is in a class with other nodes. -/
def parentIsDup (h : Heap) (n : NodeId) : Except Fault Bool :=
  match (h.node n).parent with
  | none => return false
  | some p => do
    let c ← h.getEqClass p
    return ¬ h.IsSingle c

/-- Whether `GetInteresingEqClasses` keeps the class. -/
def isInteresting (h : Heap) (c : ClassId) : Except Fault Bool := do
  ensure ((h.eqClass c).nodes ≠ []) .emptyClass
  if h.IsSingle c then return false
  let parentsAreDups ← (h.eqClass c).nodes.mapM h.parentIsDup
  return ¬ parentsAreDups.all id

def getInteresingEqClasses (h : Heap) : List ClassId → Except Fault (List ClassId)
  | [] => return []
  | c :: rest => do
    let interesting ← h.isInteresting c
    let res ← h.getInteresingEqClasses rest
    return if interesting then c :: res else res

end Heap

end Dupa
