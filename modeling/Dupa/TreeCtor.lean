import Dupa.FileTree
import Dupa.Scanner

/-! The processor that builds the tree for `FuzzyDedup`. -/

namespace Dupa

open Checked

/-- The fields of `TreeCtorProcessor`, and the heap it allocates on. -/
structure TreeCtor where
  heap : Heap
  /-- In the order of insertion. -/
  sum2Node : List (Cksum × NodeId)
  root : Option NodeId

namespace TreeCtor

def start : TreeCtor where
  heap := ⟨0, fun _ => ⟨⟨.dir, "", 0, none, []⟩, none, 0⟩, 0, fun _ => ⟨[], 0⟩, []⟩
  sum2Node := []
  root := none

def newNode (t : TreeCtor) (type : NodeType) (name : String) (size : Int) :
    Except Fault (TreeCtor × NodeId) := do
  ensure (name ≠ "") .emptyName
  let (heap, node) := t.heap.newNode type name size
  return ({ t with heap := heap }, node)

def newChild (t : TreeCtor) (parent : NodeId) (type : NodeType) (name : String) (size : Int) :
    Except Fault (TreeCtor × NodeId) := do
  let (t, node) ← t.newNode type name size
  return ({ t with heap := ← t.heap.addChild parent node }, node)

def newFile (t : TreeCtor) (parent : NodeId) (name : String) (info : FileInfo) :
    Except Fault (TreeCtor × NodeId) := do
  let (t, node) ← t.newChild parent .file name info.size.toInt
  return ({ t with sum2Node := t.sum2Node ++ [(info.sum, node)] }, node)

def newRoot (t : TreeCtor) (path : Path) : Except Fault (TreeCtor × NodeId) := do
  let (t, node) ← t.newNode .dir path.native 0
  return ({ t with root := some node }, node)

/-- A fault ends the program: nothing happens after it. -/
def onTree (f : TreeCtor → Except Fault (TreeCtor × NodeId)) :
    StateM (Except Fault TreeCtor) NodeId := fun s =>
  match s.bind f with
  | .ok (t, node) => (node, .ok t)
  | .error fault => (0, .error fault)

def processor : ScanProcessor (StateM (Except Fault TreeCtor)) NodeId where
  file := fun name parent info => do
    let _ ← onTree fun t => t.newFile parent name info
  rootDir := fun path => onTree fun t => t.newRoot path
  dir := fun name parent => onTree fun t => t.newChild parent .dir name 0

/-! ## Checksums -/

variable {t t' : TreeCtor} {parent node : NodeId} {type : NodeType} {name : String} {size : Int}
  {info : FileInfo} {path : Path}

theorem newNode_sums (h : t.newNode type name size = .ok (t', node)) :
    t'.sum2Node = t.sum2Node := by
  obtain ⟨-, h⟩ := of_ensure_ok h
  cases h
  rfl

theorem newChild_sums (h : t.newChild parent type name size = .ok (t', node)) :
    t'.sum2Node = t.sum2Node := by
  obtain ⟨⟨t1, n⟩, made, h⟩ := of_bind_ok h
  obtain ⟨heap, -, h⟩ := of_bind_ok h
  cases h
  exact (newNode_sums made : t1.sum2Node = t.sum2Node)

theorem newFile_sums (h : t.newFile parent name info = .ok (t', node)) :
    t'.sum2Node = t.sum2Node ++ [(info.sum, node)] := by
  obtain ⟨⟨t1, n⟩, made, h⟩ := of_bind_ok h
  cases h
  rw [← newChild_sums made]

theorem newRoot_sums (h : t.newRoot path = .ok (t', node)) : t'.sum2Node = t.sum2Node := by
  obtain ⟨⟨t1, n⟩, made, h⟩ := of_bind_ok h
  cases h
  exact (newNode_sums made : t1.sum2Node = t.sum2Node)

theorem onTree_keeps {f : TreeCtor → Except Fault (TreeCtor × NodeId)}
    {holds : TreeCtor → Prop} (kept : ∀ t t' node, holds t → f t = .ok (t', node) → holds t')
    {s : Except Fault TreeCtor} (before : ∀ t, s = .ok t → holds t) :
    ∀ t, ((onTree f).run s).2 = .ok t → holds t := by
  intro t h
  change (onTree f s).2 = .ok t at h
  cases s with
  | error fault => cases h
  | ok t0 =>
    cases hf : f t0 with
    | error fault => simp [onTree, Except.bind, hf] at h
    | ok result =>
      simp only [onTree, Except.bind, hf, Except.ok.injEq] at h
      exact h ▸ kept t0 result.1 result.2 (before t0 rfl) hf

/-- All checksums of a tree come from the files its processor was told of. -/
theorem processor_keeps (good : Cksum → Prop) :
    Call.Keeps processor (fun info => good info.sum)
      fun s => ∀ t, s = .ok t → ∀ entry ∈ t.sum2Node, good entry.1 where
  file name parent info s told before := by
    refine onTree_keeps ?_ before
    intro t t' node ht h entry he
    rw [newFile_sums h, List.mem_append, List.mem_singleton] at he
    rcases he with he | rfl
    · exact ht entry he
    · exact told
  rootDir path s before := onTree_keeps (fun t t' node ht h => (newRoot_sums h).symm ▸ ht) before
  dir name parent s before :=
    onTree_keeps (fun t t' node ht h => (newChild_sums h).symm ▸ ht) before

end TreeCtor

/-! ## Sizes -/

theorem Heap.addChild_size {h h' : Heap} {n child : NodeId} (ok : h.addChild n child = .ok h')
    (m : NodeId) : (h'.node m).type = (h.node m).type ∧ (h'.node m).size = (h.node m).size := by
  obtain ⟨-, ok⟩ := of_ensure_ok ok
  obtain ⟨-, ok⟩ := of_ensure_ok ok
  obtain ⟨-, ok⟩ := of_ensure_ok ok
  obtain ⟨-, ok⟩ := of_ensure_ok ok
  cases ok
  by_cases hn : m = n <;> by_cases hc : m = child <;> simp_all [setNode, Function.update_apply]

namespace TreeCtor

variable {least : Int} {t t' : TreeCtor} {parent node : NodeId} {type : NodeType} {name : String}
  {size : Int}

/-- No file is smaller. -/
def AtLeast (least : Int) (t : TreeCtor) : Prop :=
  ∀ n, (t.heap.node n).type = .file → least ≤ (t.heap.node n).size

theorem newNode_atLeast (large : t.AtLeast least) (some : type = .file → least ≤ size)
    (h : t.newNode type name size = .ok (t', node)) : t'.AtLeast least := by
  obtain ⟨-, h⟩ := of_ensure_ok h
  cases h
  intro n file
  by_cases new : n = t.heap.numNodes
  · subst new
    simp only [Heap.setNode, Function.update_self] at file ⊢
    exact some file
  · simp only [Heap.setNode, Function.update_of_ne new] at file ⊢
    exact large n file

theorem newChild_atLeast (large : t.AtLeast least) (some : type = .file → least ≤ size)
    (h : t.newChild parent type name size = .ok (t', node)) : t'.AtLeast least := by
  obtain ⟨⟨t1, child⟩, made, h⟩ := of_bind_ok h
  obtain ⟨heap, added, h⟩ := of_bind_ok h
  cases h
  intro n file
  obtain ⟨sameType, sameSize⟩ := Heap.addChild_size added n
  rw [sameSize]
  exact newNode_atLeast large some made n (sameType ▸ file)

theorem newFile_atLeast {info : FileInfo} (large : t.AtLeast least)
    (some : least ≤ info.size.toInt) (h : t.newFile parent name info = .ok (t', node)) :
    t'.AtLeast least := by
  obtain ⟨⟨t1, child⟩, made, h⟩ := of_bind_ok h
  cases h
  exact (newChild_atLeast large (fun _ => some) made : t1.AtLeast least)

theorem newRoot_atLeast {path : Path} (large : t.AtLeast least)
    (h : t.newRoot path = .ok (t', node)) : t'.AtLeast least := by
  obtain ⟨⟨t1, child⟩, made, h⟩ := of_bind_ok h
  cases h
  exact (newNode_atLeast large (fun file => by cases file) made : t1.AtLeast least)

/-- The files of a tree are as large as its processor was told. -/
theorem processor_atLeast (least : Int) : Call.Keeps processor (fun info => least ≤ info.size.toInt)
    fun s => ∀ t, s = .ok t → t.AtLeast least where
  file _ _ _ _ some := onTree_keeps fun _ _ _ large => newFile_atLeast large some
  rootDir _ _ := onTree_keeps fun _ _ _ large => newRoot_atLeast large
  dir _ _ _ := onTree_keeps fun _ _ _ large => newChild_atLeast large fun file => by cases file

end TreeCtor

end Dupa
