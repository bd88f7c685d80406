import Dupa.Layout
import Dupa.FuzzyDedup

/-! What a classification starts from: a tree that has just been built, and the
checksums of its files. -/

namespace Dupa

/-- A tree as `AddChild` leaves it, with nothing evaluated and no class yet. -/
structure Heap.Fresh (h : Heap) (root : NodeId) : Prop where
  tree : h.layout.IsTree root
  waits : ∀ n, (h.node n).notEvaluatedChildren = (h.node n).children.length
  unevaluated : ∀ n, (h.node n).eqClass = none
  noClass : ∀ c, h.eqClass c = ⟨[], 0⟩
  evaluated : h.evaluated = []

/-- Exactly the files of the tree, each under its checksum. -/
structure Sum2Node.Holds (s : Sum2Node) (L : Layout) (cksum : NodeId → Cksum) : Prop where
  mem : ∀ k n, (∃ group ∈ s.groups, group.1 = k ∧ n ∈ group.2) ↔ L.IsFile n ∧ cksum n = k
  nodup : ∀ group ∈ s.groups, group.2.Nodup

/-! ## Trees given by a list of entries -/

def Heap.entryAt (entries : List Entry) (n : NodeId) : Entry :=
  entries.getD n ⟨.dir, "", 0, none, []⟩

/-- The fresh heap of a list of nodes. -/
def Heap.ofEntries (entries : List Entry) : Heap where
  numNodes := entries.length
  node := fun n => ⟨entryAt entries n, none, (entryAt entries n).children.length⟩
  numClasses := 0
  eqClass := fun _ => ⟨[], 0⟩
  evaluated := []

/-- The nodes form a tree below node 0 in which parents come first. -/
def IsTopDown (entries : List Entry) : Prop :=
  0 < entries.length ∧ ∀ n < entries.length,
    (Heap.entryAt entries n).children.Nodup ∧
    (∀ c ∈ (Heap.entryAt entries n).children, n < c ∧ c < entries.length ∧
      (Heap.entryAt entries c).parent = some n ∧ (Heap.entryAt entries n).type = .dir) ∧
    ((Heap.entryAt entries n).parent = none → n = 0 ∧ (Heap.entryAt entries n).type = .dir) ∧
    ∀ p ∈ (Heap.entryAt entries n).parent, n ≠ 0 ∧ p < n ∧ n ∈ (Heap.entryAt entries p).children

instance (entries : List Entry) : Decidable (IsTopDown entries) :=
  inferInstanceAs (Decidable (_ ∧ ∀ n < _, _))

theorem Heap.entryAt_of_le {entries : List Entry} {n : NodeId} (h : entries.length ≤ n) :
    entryAt entries n = ⟨.dir, "", 0, none, []⟩ := by
  simp [entryAt, List.getD, h]

theorem IsTopDown.isTree {entries : List Entry} (topDown : IsTopDown entries) :
    (Heap.ofEntries entries).layout.IsTree 0 := by
  obtain ⟨nonempty, each⟩ := topDown
  have edge (p c : NodeId) (hc : c ∈ (Heap.entryAt entries p).children) :
      p < entries.length ∧ p < c ∧ c < entries.length ∧
        (Heap.entryAt entries c).parent = some p ∧ (Heap.entryAt entries p).type = .dir := by
    by_cases hp : p < entries.length
    · exact ⟨hp, (each p hp).2.1 c hc⟩
    · rw [Heap.entryAt_of_le (not_lt.mp hp)] at hc
      cases hc
  have orphan (n : NodeId) (hn : n < entries.length) :
      (Heap.entryAt entries n).parent = none ↔ n = 0 := by
    cases hp : (Heap.entryAt entries n).parent with
    | none => simpa using ((each n hn).2.2.1 hp).1
    | some p => simpa using ((each n hn).2.2.2 p hp).1
  refine ⟨⟨?_, ?_⟩, ?_, orphan, ?_, ?_, fun n => entries.length - n, ?_⟩
  · intro p c
    refine ⟨fun hc => (edge p c hc).2.2.2.1, fun hp => ?_⟩
    by_cases hc : c < entries.length
    · exact ((each c hc).2.2.2 p hp).2.2
    · change (Heap.entryAt entries c).parent = _ at hp
      rw [Heap.entryAt_of_le (not_lt.mp hc)] at hp
      cases hp
  · intro p
    change (Heap.entryAt entries p).children.Nodup
    by_cases hp : p < entries.length
    · exact (each p hp).1
    · rw [Heap.entryAt_of_le (not_lt.mp hp)]
      exact List.nodup_nil
  · exact ⟨nonempty, ((each 0 nonempty).2.2.1 ((orphan 0 nonempty).mpr rfl)).2⟩
  · exact fun p c hc => ⟨(edge p c hc).1, (edge p c hc).2.2.1⟩
  · exact fun p c hc => (edge p c hc).2.2.2.2
  · intro p c hc
    obtain ⟨hp, hlt, -⟩ := edge p c hc
    exact Nat.sub_lt_sub_left hp hlt

theorem Heap.ofEntries_fresh {entries : List Entry} (topDown : IsTopDown entries) :
    (ofEntries entries).Fresh 0 :=
  ⟨topDown.isTree, fun _ => rfl, fun _ => rfl, fun _ => rfl, rfl⟩

/-- Files are as large as they are listed. -/
theorem Heap.ofEntries_atLeast {entries : List Entry} {least : Int}
    (sizes : ∀ e ∈ entries, e.type = .file → least ≤ e.size) {n : NodeId}
    (file : (ofEntries entries).layout.IsFile n) :
    least ≤ ((ofEntries entries).layout.entry n).size := by
  obtain ⟨inside, type⟩ := file
  change n < entries.length at inside
  change (entryAt entries n).type = .file at type
  change least ≤ (entryAt entries n).size
  have here : entryAt entries n = entries[n] := by simp [entryAt, List.getD, inside]
  rw [here] at type ⊢
  exact sizes entries[n] (List.getElem_mem inside) type

theorem Heap.ofEntries_sized (E : Env) {entries : List Entry}
    (sizes : ∀ e ∈ entries, e.type = .file → 0 ≤ e.size) : E.Sized (ofEntries entries).layout :=
  fun _ _ file => ofEntries_atLeast sizes file

theorem Sum2Node.holds_of_groups {s : Sum2Node} {L : Layout} {cksum : NodeId → Cksum}
    (nodup : ∀ group ∈ s.groups, group.2.Nodup)
    (sound : ∀ group ∈ s.groups, ∀ n ∈ group.2, L.IsFile n ∧ cksum n = group.1)
    (complete : ∀ n < L.size, (L.entry n).type = .file →
      ∃ group ∈ s.groups, group.1 = cksum n ∧ n ∈ group.2) : s.Holds L cksum where
  nodup := nodup
  mem := by
    intro k n
    constructor
    · rintro ⟨group, hg, rfl, hn⟩
      exact sound group hg n hn
    · rintro ⟨hfile, rfl⟩
      exact complete n hfile.1 hfile.2

/-! ## A small tree

The root has two directories with one file each, of the same content, and an
empty directory. -/

def twins : List Entry :=
  [⟨.dir, "r", 0, none, [1, 2, 3]⟩, ⟨.dir, "a", 0, some 0, [4]⟩, ⟨.dir, "b", 0, some 0, [5]⟩,
    ⟨.dir, "e", 0, some 0, []⟩, ⟨.file, "x", 5, some 1, []⟩, ⟨.file, "y", 5, some 2, []⟩]

def twinSums : Sum2Node := ⟨[(7, [4, 5])], by decide, by decide⟩

theorem twins_fresh : (Heap.ofEntries twins).Fresh 0 := Heap.ofEntries_fresh (by decide)

theorem twins_holds : twinSums.Holds (Heap.ofEntries twins).layout fun _ => 7 :=
  Sum2Node.holds_of_groups (by decide) (by decide) (by decide)

/-! ## Directories that get near

Directory `b` holds `x`, directory `e` holds `x` and `y`, and `d` holds `b`, `x`
and `y`. The class of `b` and `e` weighs 5.5, which is near enough for `d`. -/

def nested : List Entry :=
  [⟨.dir, "r", 0, none, [1, 2]⟩,
    ⟨.dir, "e", 0, some 0, [4, 5]⟩, ⟨.dir, "d", 0, some 0, [3, 6, 7]⟩, ⟨.dir, "b", 0, some 2, [8]⟩,
    ⟨.file, "x", 4, some 1, []⟩, ⟨.file, "y", 3, some 1, []⟩,
    ⟨.file, "x", 4, some 2, []⟩, ⟨.file, "y", 3, some 2, []⟩, ⟨.file, "x", 4, some 3, []⟩]

def nestedSums : Sum2Node := ⟨[(1, [4, 6, 8]), (2, [5, 7])], by decide, by decide⟩

def nestedCksum (n : NodeId) : Cksum := if n = 5 ∨ n = 7 then 2 else 1

theorem nested_fresh : (Heap.ofEntries nested).Fresh 0 := Heap.ofEntries_fresh (by decide)

theorem nested_holds : nestedSums.Holds (Heap.ofEntries nested).layout nestedCksum :=
  Sum2Node.holds_of_groups (by decide) (by decide) (by decide)

end Dupa
