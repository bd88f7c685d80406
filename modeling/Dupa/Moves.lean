import Mathlib.Logic.Relation
import Dupa.Choice

/-!
# Moves of the classification

A classification changes the heap by moves: a class is allocated, a leaf (a
file or an empty directory) is put in the class of its kind, or a ready
non-empty directory joins the class of its nearest equivalent or founds one.
Whatever every move keeps holds at the end of every classification; here that
the heap stays consistent (`Move.consistent`) and sorted by kind
(`Move.sorted`).
-/

namespace Dupa

/-- What decides the class of a node before any distance is taken. -/
inductive Kind where
  | file (cksum : Cksum)
  | emptyDir
  | dir
  deriving DecidableEq

def Layout.kind (L : Layout) (cksum : NodeId → Cksum) (n : NodeId) : Kind :=
  match (L.entry n).type with
  | .file => .file (cksum n)
  | .dir => if L.children n = [] then .emptyDir else .dir

namespace Heap

/-- `AddNode` puts `n` in the class `c` that a turn of the loop chose for it. -/
inductive Settled (E : Env) (h : Heap) (n : NodeId) : ClassId → Heap → Prop where
  | joined {e c h'} : h.Joins E n e c → Placed E h c n h' → Settled E h n c h'
  | founded {h'} : h.StaysApart E n → Placed E h.newClass.1 h.numClasses n h' →
      Settled E h n h.numClasses h'

inductive Move (E : Env) (cksum : NodeId → Cksum) (h : Heap) : Heap → Prop where
  | newClass : Move E cksum h h.newClass.1
  | leaf {n c h'} (inside : n < h.numNodes) (leaf : h.layout.kind cksum n ≠ .dir)
      (fresh : ¬ h.IsEvaluated n) (known : c < h.numClasses)
      (alike : ∀ m, (h.node m).eqClass = some c → h.layout.kind cksum m = h.layout.kind cksum n)
      (all : ∀ m, h.IsEvaluated m → h.layout.kind cksum m = h.layout.kind cksum n →
        (h.node m).eqClass = some c)
      (placed : Placed E h c n h') : Move E cksum h h'
  | dir {n c h'} (dir : h.layout.kind cksum n = .dir) (fresh : ¬ h.IsEvaluated n)
      (ready : h.ChildrenEvaluated n)
      (leaves : ∀ m, m < h.numNodes → h.layout.kind cksum m ≠ .dir → h.IsEvaluated m)
      (settled : Settled E h n c h') : Move E cksum h h'

/-- Classes hold nodes of one kind, and all evaluated nodes of a kind other than
a non-empty directory are together. -/
structure Sorted (cksum : NodeId → Cksum) (h : Heap) : Prop where
  alike : ∀ {a b c}, (h.node a).eqClass = some c → (h.node b).eqClass = some c →
    h.layout.kind cksum a = h.layout.kind cksum b
  together : ∀ {a b}, h.IsEvaluated a → h.IsEvaluated b →
    h.layout.kind cksum a = h.layout.kind cksum b → h.layout.kind cksum a ≠ .dir →
    (h.node a).eqClass = (h.node b).eqClass

variable {E : Env} {cksum : NodeId → Cksum} {h h' : Heap} {n c : Nat}

theorem kind_eq_dir_iff : h.layout.kind cksum n = .dir ↔
    (h.node n).type = .dir ∧ (h.node n).children ≠ [] := by
  unfold Layout.kind
  change (match (h.node n).type with
    | .file => _
    | .dir => if (h.node n).children = [] then _ else _) = _ ↔ _
  cases (h.node n).type with
  | file => simp
  | dir => split <;> simp_all

theorem kind_file (cksum : NodeId → Cksum) {L : Layout} (hn : L.IsFile n) :
    L.kind cksum n = .file (cksum n) := by
  simp [Layout.kind, hn.2]

theorem type_of_kind {L : Layout} {k : Cksum} (hn : L.kind cksum n = .file k) :
    (L.entry n).type = .file := by
  unfold Layout.kind at hn
  cases ht : (L.entry n).type with
  | file => rfl
  | dir =>
    rw [ht] at hn
    dsimp only at hn
    split at hn <;> cases hn

theorem kind_eq_emptyDir_iff : h.layout.kind cksum n = .emptyDir ↔ h.IsEmptyDir n := by
  unfold Layout.kind
  change (match (h.node n).type with
    | .file => _
    | .dir => if (h.node n).children = [] then _ else _) = _ ↔ (h.node n).type = _ ∧ _
  cases (h.node n).type with
  | file => simp
  | dir => split <;> simp_all

theorem leaf_iff : h.layout.kind cksum n ≠ .dir ↔ (h.node n).type = .file ∨ h.IsEmptyDir n := by
  rw [Ne, kind_eq_dir_iff, IsEmptyDir]
  cases (h.node n).type with
  | file => simp
  | dir => simp

/-- A leaf has no children to wait for. -/
theorem childrenEvaluated_of_leaf {root : NodeId} (tree : h.layout.IsTree root)
    (leaf : h.layout.kind cksum n ≠ .dir) : h.ChildrenEvaluated n := by
  intro x hx
  exact absurd (kind_eq_dir_iff.mpr ⟨tree.inner n x hx, List.ne_nil_of_mem hx⟩) leaf

theorem Equivalent.nonemptyDir {root p : NodeId} (tree : h.layout.IsTree root)
    (hp : h.Equivalent n p) : (h.node p).type = .dir ∧ (h.node p).children ≠ [] := by
  obtain ⟨_, _, _, _, q, _, _, hq, _⟩ := hp
  have child := (tree.parent_iff p q).mpr hq
  exact ⟨tree.inner p q child, List.ne_nil_of_mem child⟩

theorem Equivalent.kind {root p : NodeId} (tree : h.layout.IsTree root) (hp : h.Equivalent n p) :
    h.layout.kind cksum p = .dir :=
  kind_eq_dir_iff.mpr (hp.nonemptyDir tree)

theorem Consistent.known (hc : h.Consistent) (hn : (h.node n).eqClass = some c) : c < h.numClasses := by
  by_contra hge
  have := (hc.member n c).mp hn
  rw [hc.unallocated c (by omega)] at this
  cases this

/-! ## What a settled node changes -/

namespace Settled

variable (settled : Settled E h n c h')
include settled

theorem layout : h'.layout = h.layout := by
  cases settled with
  | joined _ placed => exact placed.layout
  | founded _ placed => exact placed.layout

theorem eqClass (m : NodeId) :
    (h'.node m).eqClass = if m = n then some c else (h.node m).eqClass := by
  cases settled with
  | joined _ placed => exact placed.eqClass m
  | founded _ placed => exact placed.eqClass m

theorem isEvaluated_iff (m : NodeId) : h'.IsEvaluated m ↔ m = n ∨ h.IsEvaluated m := by
  cases settled with
  | joined _ placed => exact placed.isEvaluated_iff m
  | founded _ placed => exact placed.isEvaluated_iff m

theorem evaluated : h'.evaluated = h.evaluated ++ [n] := by
  cases settled with
  | joined _ placed => exact placed.evaluated
  | founded _ placed => exact placed.evaluated

theorem nonneg (hw : ∀ d, 0 ≤ (h.eqClass d).weight) (dir : (h.node n).type = .dir) (d : ClassId) :
    0 ≤ (h'.eqClass d).weight := by
  cases settled with
  | joined _ placed => exact placed.nonneg hw (ownWeight_dir_nonneg hw dir) d
  | founded _ placed =>
    have hw' := newClass_nonneg hw
    exact placed.nonneg hw' (ownWeight_dir_nonneg hw' dir) d

theorem consistent (hc : h.Consistent) (fresh : ¬ h.IsEvaluated n) (ready : h.ChildrenEvaluated n) :
    h'.Consistent := by
  cases settled with
  | joined joins placed => exact placed.consistent hc fresh ready (hc.known joins.eqClass)
  | founded _ placed => exact placed.consistent hc.newClass fresh ready (Nat.lt_succ_self _)

end Settled

/-- Pointing `n` to `c` keeps the heap sorted if `c` has only nodes of its kind,
and all of them unless it is a non-empty directory. -/
theorem Sorted.point (hs : h.Sorted cksum) (layout : h'.layout = h.layout)
    (eqClass : ∀ m, (h'.node m).eqClass = if m = n then some c else (h.node m).eqClass)
    (alike : ∀ m, (h.node m).eqClass = some c → h.layout.kind cksum m = h.layout.kind cksum n)
    (all : h.layout.kind cksum n ≠ .dir → ∀ m, h.IsEvaluated m →
      h.layout.kind cksum m = h.layout.kind cksum n → (h.node m).eqClass = some c) :
    h'.Sorted cksum := by
  constructor
  · intro a b d ha hb
    rw [layout]
    rw [eqClass] at ha hb
    split at ha <;> split at hb
    · subst a; subst b; rfl
    · subst a
      cases ha
      exact (alike b hb).symm
    · subst b
      cases hb
      exact alike a ha
    · exact hs.alike ha hb
  · intro a b ha hb hk hd
    rw [layout] at hk hd
    simp only [isEvaluated_iff, eqClass] at ha hb ⊢
    by_cases han : a = n <;> by_cases hbn : b = n
    · simp [han, hbn]
    · subst a
      rw [if_neg hbn] at hb
      simp only [hbn, ite_true, ite_false]
      exact (all hd b (isEvaluated_iff.mpr hb) hk.symm).symm
    · subst b
      rw [if_neg han] at ha
      simp only [han, ite_true, ite_false]
      exact all (hk ▸ hd) a (isEvaluated_iff.mpr ha) hk
    · rw [if_neg han] at ha
      rw [if_neg hbn] at hb
      simp only [han, hbn, ite_false]
      exact hs.together (isEvaluated_iff.mpr ha) (isEvaluated_iff.mpr hb) hk hd

/-! ## What every move keeps -/

namespace Move

variable {root : NodeId} (move : Move E cksum h h')
include move

theorem layout : h'.layout = h.layout := by
  cases move with
  | newClass => rfl
  | leaf _ _ _ _ _ _ placed => exact placed.layout
  | dir _ _ _ _ settled => exact settled.layout

theorem consistent (tree : h.layout.IsTree root) (hc : h.Consistent) : h'.Consistent := by
  cases move with
  | newClass => exact hc.newClass
  | leaf _ leaf fresh known _ _ placed =>
    exact placed.consistent hc fresh (childrenEvaluated_of_leaf tree leaf) known
  | dir _ fresh ready _ settled => exact settled.consistent hc fresh ready

/-- Without negative sizes there are no negative weights. -/
theorem nonneg (sized : E.Sized h.layout) (hw : ∀ c, 0 ≤ (h.eqClass c).weight) (c : ClassId) :
    0 ≤ (h'.eqClass c).weight := by
  cases move with
  | newClass => exact newClass_nonneg hw c
  | leaf inside _ _ _ _ _ placed => exact placed.nonneg hw (ownWeight_nonneg sized hw inside) c
  | dir dir _ _ _ settled => exact settled.nonneg hw (kind_eq_dir_iff.mp dir).1 c

theorem sorted (tree : h.layout.IsTree root) (hc : h.Consistent) (hs : h.Sorted cksum) :
    h'.Sorted cksum := by
  cases move with
  | newClass => exact ⟨hs.alike, hs.together⟩
  | leaf _ _ _ _ alike all placed =>
    exact hs.point placed.layout placed.eqClass alike fun _ => all
  | @dir n c h' dir fresh _ _ settled =>
    refine hs.point settled.layout settled.eqClass ?_ fun leaf => absurd dir leaf
    intro m hm
    cases settled with
    | joined joins _ => rw [dir, hs.alike hm joins.eqClass, joins.equivalent.kind tree]
    | founded _ _ => exact absurd (hc.known hm) (Nat.lt_irrefl _)

end Move

/-! ## What every run of moves keeps -/

abbrev Moves (E : Env) (cksum : NodeId → Cksum) : Heap → Heap → Prop :=
  Relation.ReflTransGen (Move E cksum)

namespace Moves

variable {root : NodeId} (moves : Moves E cksum h h')
include moves

theorem layout : h'.layout = h.layout := by
  induction moves with
  | refl => rfl
  | tail _ move ih => rw [move.layout, ih]

theorem nonneg (sized : E.Sized h.layout) (hw : ∀ c, 0 ≤ (h.eqClass c).weight) (c : ClassId) :
    0 ≤ (h'.eqClass c).weight := by
  induction moves generalizing c with
  | refl => exact hw c
  | tail moves move ih => exact move.nonneg (layout moves ▸ sized) ih c

theorem consistent (tree : h.layout.IsTree root) (hc : h.Consistent) : h'.Consistent := by
  induction moves with
  | refl => exact hc
  | tail moves move ih => exact move.consistent (layout moves ▸ tree) ih

/-- What every move of a consistent heap keeps holds after every run. -/
theorem invariant {I : Heap → Prop} (tree : h.layout.IsTree root) (hc : h.Consistent) (start : I h)
    (step : ∀ {a b}, a.layout = h.layout → a.Consistent → I a → Move E cksum a b → I b) : I h' := by
  induction moves with
  | refl => exact start
  | tail moves move ih => exact step (layout moves) (consistent moves tree hc) ih move

theorem sorted (tree : h.layout.IsTree root) (hc : h.Consistent) (hs : h.Sorted cksum) :
    h'.Sorted cksum := by
  apply moves.invariant tree hc hs
  intro a b same ha sorted move
  exact move.sorted (same ▸ tree) ha sorted

end Moves

end Heap

end Dupa
