import Dupa.Classified

/-!
# The classes that are reported

A class of duplicates is dropped from the report when the parents of all its members
have duplicates themselves. Their classes may be dropped for the same reason, but
not for ever: the chain of parents ends at the root (`duplicates_reported`).
-/

namespace Dupa

open Checked

namespace Heap

/-- `eqClasses` lists the classes of a partition of all nodes. -/
structure Partitioned (h : Heap) (eqClasses : List ClassId) : Prop where
  classified : ∀ n < h.numNodes, ∃ c ∈ eqClasses, (h.node n).eqClass = some c
  member : ∀ c ∈ eqClasses, ∀ n,
    n ∈ (h.eqClass c).nodes ↔ n < h.numNodes ∧ (h.node n).eqClass = some c
  nodes_nodup : ∀ c ∈ eqClasses, (h.eqClass c).nodes.Nodup
  nonempty : ∀ c ∈ eqClasses, (h.eqClass c).nodes ≠ []

/-- The node is the root or its parent has no duplicate. -/
def OnTop (h : Heap) (root n : NodeId) : Prop :=
  n = root ∨ ∃ p c, (h.node n).parent = some p ∧ (h.node p).eqClass = some c ∧ h.IsSingle c

/-- The class has several members, and one of them is on top. -/
def Interesting (h : Heap) (root : NodeId) (c : ClassId) : Prop :=
  2 ≤ (h.eqClass c).nodes.length ∧ ∃ n ∈ (h.eqClass c).nodes, h.OnTop root n

variable {E : Env} {cksum : NodeId → Cksum} {h : Heap} {root n : NodeId} {c : ClassId}
  {eqClasses : List ClassId}

theorem parentIsDup_ok (tree : h.layout.IsTree root) (part : h.Partitioned eqClasses)
    (hn : n < h.numNodes) : ∃ dup, h.parentIsDup n = .ok dup ∧ (dup = false ↔ h.OnTop root n) := by
  unfold parentIsDup OnTop
  cases hp : (h.node n).parent with
  | none =>
    have top : n = root := (tree.orphan n hn).mp hp
    exact ⟨false, rfl, by simp [top]⟩
  | some p =>
    have below : n ≠ root := fun top => by
      have := (tree.orphan n hn).mpr top
      rw [show (h.layout.entry n).parent = some p from hp] at this
      cases this
    obtain ⟨d, -, hd⟩ := part.classified p (tree.inside p n ((tree.parent_iff p n).mpr hp)).1
    refine ⟨¬ h.IsSingle d, ?_, ?_⟩
    · simp only [getEqClass_ok hd, ok_bind]
      rfl
    · simp [below, hd]

theorem isInteresting_ok (tree : h.layout.IsTree root) (part : h.Partitioned eqClasses)
    (hc : c ∈ eqClasses) :
    ∃ b, h.isInteresting c = .ok b ∧ (b = true ↔ h.Interesting root c) := by
  have nonempty := part.nonempty c hc
  have positive := List.length_pos_of_ne_nil nonempty
  unfold isInteresting Interesting
  rw [ensure_bind nonempty]
  by_cases single : h.IsSingle c
  · refine ⟨false, by rw [if_pos single]; rfl, ?_⟩
    have : (h.eqClass c).nodes.length = 1 := single
    simp [this]
  · have several : 2 ≤ (h.eqClass c).nodes.length := by
      have : (h.eqClass c).nodes.length ≠ 1 := single
      omega
    have each : ∀ n ∈ (h.eqClass c).nodes, ∃ dup, h.parentIsDup n = .ok dup ∧
        (dup = false ↔ h.OnTop root n) :=
      fun n hn => parentIsDup_ok tree part ((part.member c hc n).mp hn).1
    choose! dup returned top using each
    refine ⟨_, by rw [if_neg single, mapM_ok returned]; rfl, ?_⟩
    rw [decide_eq_true_eq, List.all_map, List.all_eq_true]
    simp only [several, true_and, Function.comp_apply, id_eq, not_forall, exists_prop,
      Bool.not_eq_true]
    exact exists_congr fun n => and_congr_right fun hn => top n hn

theorem getInteresingEqClasses_ok (tree : h.layout.IsTree root) (part : h.Partitioned eqClasses)
    {some : List ClassId} (sub : some ⊆ eqClasses) :
    ∃ res, h.getInteresingEqClasses some = .ok res ∧
      ∀ c, c ∈ res ↔ c ∈ some ∧ h.Interesting root c := by
  induction some with
  | nil => exact ⟨[], rfl, by simp⟩
  | cons c rest ih =>
    obtain ⟨b, hb, interesting⟩ := isInteresting_ok tree part (sub List.mem_cons_self)
    obtain ⟨res, hres, mem⟩ := ih fun d hd => sub (List.mem_cons_of_mem c hd)
    refine ⟨if b then c :: res else res, ?_, fun d => ?_⟩
    · rw [getInteresingEqClasses, hb, ok_bind, hres]
      rfl
    · cases b with
      | true =>
        have here := interesting.mp rfl
        simp only [if_true, List.mem_cons, mem]
        constructor
        · rintro (rfl | ⟨hd, hi⟩)
          · exact ⟨Or.inl rfl, here⟩
          · exact ⟨Or.inr hd, hi⟩
        · rintro ⟨rfl | hd, hi⟩
          · exact Or.inl rfl
          · exact Or.inr ⟨hd, hi⟩
      | false =>
        have dull : ¬h.Interesting root c := fun hi => by simpa using interesting.mpr hi
        simp only [Bool.false_eq_true, if_false, List.mem_cons, mem]
        constructor
        · rintro ⟨hd, hi⟩
          exact ⟨Or.inr hd, hi⟩
        · rintro ⟨rfl | hd, hi⟩
          · exact absurd hi dull
          · exact ⟨hd, hi⟩

/-- Up from a node that has duplicates there is one in an interesting class, by
induction on the way down from the root. -/
theorem Partitioned.interesting_above (tree : h.layout.IsTree root)
    (part : h.Partitioned eqClasses) (below : Forest.Below h.layout.children root n)
    (hn : (h.node n).eqClass = some c) (several : 2 ≤ (h.eqClass c).nodes.length) :
    ∃ a d, Forest.Below h.layout.children a n ∧ (h.node a).eqClass = some d ∧
      h.Interesting root d := by
  have member : ∀ {n c}, Forest.Below h.layout.children root n → (h.node n).eqClass = some c →
      n ∈ (h.eqClass c).nodes := by
    intro n c below hn
    have inside := tree.below_lt tree.root_dir.1 below
    obtain ⟨d, hd, hnd⟩ := part.classified n inside
    obtain rfl := Option.some.inj (hnd.symm.trans hn)
    exact (part.member d hd n).mpr ⟨inside, hnd⟩
  induction below generalizing c with
  | refl => exact ⟨root, c, .refl, hn, several, root, member .refl hn, Or.inl rfl⟩
  | @tail p n below child ih =>
    obtain ⟨d, -, hd⟩ := part.classified p (tree.inside p n child).1
    by_cases single : h.IsSingle d
    · exact ⟨n, c, .refl, hn, several, n, member (below.tail child) hn,
        Or.inr ⟨p, d, (tree.parent_iff p n).mp child, hd, single⟩⟩
    · -- The parent has duplicates as well, so one of its ancestors is on top.
      have positive := List.length_pos_of_mem (member below hd)
      have many : 2 ≤ (h.eqClass d).nodes.length := by
        have : (h.eqClass d).nodes.length ≠ 1 := single
        omega
      obtain ⟨a, e, up, ha, interesting⟩ := ih hd many
      exact ⟨a, e, up.tail child, ha, interesting⟩

/-- A classification partitions the nodes. -/
theorem Classified.partitioned {h' : Heap} (done : Classified E cksum h h' eqClasses)
    (fresh : h.Fresh root) : h'.Partitioned eqClasses := by
  have hc := done.moves.consistent fresh.tree fresh.consistent
  have size : h'.numNodes = h.numNodes := numNodes_of_layout done.moves.layout
  refine ⟨fun n hn => ?_, fun c _ n => ?_, fun c _ => hc.nodes_nodup c,
    fun c hc' => (done.listed.mem c).mp hc'⟩
  · obtain ⟨c, hcl, -, hnc⟩ := done.own hc (size ▸ hn)
    exact ⟨c, hcl, hnc⟩
  · rw [← hc.member, size]
    exact (and_iff_right_of_imp fun hn => (done.evaluated n).mp (evaluated_of_eqClass hn)).symm

end Heap

/-- Every node with duplicates is reported, or one of its ancestors is, whatever the
partition; and what is reported has duplicates on top. -/
theorem duplicates_reported {h : Heap} {root : NodeId} {eqClasses : List ClassId}
    (tree : h.layout.IsTree root) (part : h.Partitioned eqClasses) :
    ∃ res, h.getInteresingEqClasses eqClasses = .ok res ∧
      (∀ n < h.numNodes, ∀ c, (h.node n).eqClass = some c → 2 ≤ (h.eqClass c).nodes.length →
        ∃ a d, Forest.Below h.layout.children a n ∧ (h.node a).eqClass = some d ∧ d ∈ res) ∧
      ∀ c ∈ res, c ∈ eqClasses ∧ h.Interesting root c := by
  obtain ⟨res, returned, mem⟩ := Heap.getInteresingEqClasses_ok tree part (List.Subset.refl _)
  refine ⟨res, returned, fun n hn c hc several => ?_, fun c hc => (mem c).mp hc⟩
  obtain ⟨a, d, up, ha, interesting⟩ :=
    part.interesting_above tree (tree.below_root hn) hc several
  have inside : a < h.numNodes := by
    rcases Forest.below_iff.mp up with rfl | ⟨x, hx, -⟩
    · exact hn
    · exact (tree.inside a x hx).1
  obtain ⟨e, he, hae⟩ := part.classified a inside
  obtain rfl := Option.some.inj (ha.symm.trans hae)
  exact ⟨a, d, up, ha, (mem d).mpr ⟨he, interesting⟩⟩

theorem duplicates_reported_twins :
    ∃ h' eqClasses res, classify (.counting 10) (.ofEntries twins) 0 twinSums = .ok (h', eqClasses) ∧
      h'.getInteresingEqClasses eqClasses = .ok res ∧
      ∀ c ∈ res, c ∈ eqClasses ∧ h'.Interesting 0 c := by
  obtain ⟨h', eqClasses, run, done⟩ := Propagation.classify_exact rfl twins_fresh twins_holds
    (Env.counting_sized 10 _)
  obtain ⟨res, returned, -, reported⟩ :=
    duplicates_reported (done.moves.layout ▸ twins_fresh.tree) (done.partitioned twins_fresh)
  exact ⟨h', eqClasses, res, run, returned, reported⟩

end Dupa
