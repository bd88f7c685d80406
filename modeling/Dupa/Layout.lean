import Mathlib.Data.Finset.Range
import Dupa.FileTree

/-! The tree itself, apart from the things computed on it: what the layout of a
heap must be for its nodes to form one finite tree rooted at a directory. -/

namespace Dupa

/-- The part of a heap that evaluating nodes leaves alone. -/
structure Layout where
  size : Nat
  entry : NodeId → Entry

def Heap.layout (h : Heap) : Layout := ⟨h.numNodes, fun n => (h.node n).toEntry⟩

namespace Layout

def children (L : Layout) (n : NodeId) : List NodeId := (L.entry n).children

def IsFile (L : Layout) (n : NodeId) : Prop := n < L.size ∧ (L.entry n).type = .file

instance (L : Layout) (n : NodeId) : Decidable (L.IsFile n) :=
  inferInstanceAs (Decidable (_ ∧ _))

def IsDir (L : Layout) (n : NodeId) : Prop := n < L.size ∧ (L.entry n).type = .dir

instance (L : Layout) (n : NodeId) : Decidable (L.IsDir n) :=
  inferInstanceAs (Decidable (_ ∧ _))

/-- Parents and child lists describe the same edges. -/
structure Linked (L : Layout) : Prop where
  parent_iff : ∀ p c, c ∈ L.children p ↔ (L.entry c).parent = some p
  nodup : ∀ p, (L.children p).Nodup

/-- The nodes below `size` are one tree, and nothing else has edges. -/
structure IsTree (L : Layout) (root : NodeId) : Prop extends Linked L where
  root_dir : L.IsDir root
  orphan : ∀ n, n < L.size → ((L.entry n).parent = none ↔ n = root)
  inside : ∀ p, ∀ c ∈ L.children p, p < L.size ∧ c < L.size
  inner : ∀ p, ∀ c ∈ L.children p, (L.entry p).type = .dir
  acyclic : ∃ height : NodeId → ℕ, ∀ p, ∀ c ∈ L.children p, height c < height p

variable {L : Layout} {root : NodeId}

theorem IsTree.forest (tree : L.IsTree root) : Forest.IsForest L.children where
  unique := fun {p q c} hp hq => by
    rw [tree.parent_iff] at hp hq
    exact Option.some.inj (hp.symm.trans hq)
  nodup := tree.nodup
  acyclic := tree.acyclic

/-- A height below the number of nodes, so that the number is fuel enough. -/
theorem IsTree.bounded_height (tree : L.IsTree root) :
    ∃ height : NodeId → ℕ, (∀ p, ∀ c ∈ L.children p, height c < height p) ∧
      ∀ n, n < L.size → height n < L.size := by
  obtain ⟨height, falls, bound⟩ := tree.forest.bounded_height (Finset.range L.size)
    (fun p c hc => Finset.mem_range.mpr (tree.inside p c hc).2)
  refine ⟨height, falls, fun n hn => ?_⟩
  simpa using bound n (Finset.mem_range.mpr hn)

theorem IsTree.below_root (tree : L.IsTree root) {n : NodeId} (hn : n < L.size) :
    Forest.Below L.children root n := by
  obtain ⟨height, falls, bound⟩ := tree.bounded_height
  generalize hd : L.size - height n = gap
  induction gap using Nat.strongRecOn generalizing n with
  | ind gap ih =>
    cases hp : (L.entry n).parent with
    | none =>
      rw [(tree.orphan n hn).mp hp]
      exact Forest.below_refl root
    | some p =>
      have hc := (tree.parent_iff p n).mpr hp
      have := falls p n hc
      have := bound p (tree.inside p n hc).1
      exact Forest.below_child (ih _ (by omega) (tree.inside p n hc).1 rfl) hc

theorem IsTree.below_lt (tree : L.IsTree root) {a b : NodeId} (ha : a < L.size)
    (h : Forest.Below L.children a b) : b < L.size := by
  induction h with
  | refl => exact ha
  | tail _ hc _ => exact (tree.inside _ _ hc).2

theorem IsTree.file_leaf (tree : L.IsTree root) {n : NodeId} (hn : L.IsFile n) :
    L.children n = [] := by
  apply List.eq_nil_iff_forall_not_mem.mpr
  intro c hc
  have := tree.inner n c hc
  simp [hn.2] at this

end Layout

/-- Where files count by their sizes, none is negative. -/
def Env.Sized (E : Env) (L : Layout) : Prop :=
  E.useSize = true → ∀ n, L.IsFile n → 0 ≤ (L.entry n).size

theorem Env.counting_sized (tolerableDiffPct : Int) (L : Layout) :
    (Env.counting tolerableDiffPct).Sized L :=
  fun counts => by cases counts

namespace Heap

variable {h : Heap} {root : NodeId}

theorem mem_traverse (tree : h.layout.IsTree root) (n : NodeId) :
    n ∈ h.traverse root ↔ n < h.numNodes := by
  obtain ⟨height, falls, bound⟩ := tree.bounded_height
  have enough := bound root tree.root_dir.1
  constructor
  · intro hn
    exact tree.below_lt tree.root_dir.1 ((Forest.mem_postorder falls enough n).mp hn)
  · intro hn
    exact (Forest.mem_postorder falls enough n).mpr (tree.below_root hn)

theorem traverse_nodup (tree : h.layout.IsTree root) : (h.traverse root).Nodup := by
  obtain ⟨height, falls, bound⟩ := tree.bounded_height
  exact Forest.postorder_nodup tree.forest falls (bound root tree.root_dir.1)

end Heap

end Dupa
