import Dupa.Content

/-!
# No tolerance

A distance is never below zero, so with a tolerance of zero no directory joins
another, not even its copy (`identical_apart_iff`).
-/

namespace Dupa

namespace Heap

variable {E : Env} {cksum : NodeId → Cksum} {root : NodeId} {h h' : Heap} {a b n c : Nat}

/-- Non-empty directories are alone in their classes. -/
def Alone (cksum : NodeId → Cksum) (h : Heap) : Prop :=
  ∀ a b, h.SameClass a b → h.layout.kind cksum a = .dir → a = b

theorem distance_nonneg : 0 ≤ h.distance E a b := by
  unfold distance
  split
  · exact le_refl 0
  · exact E.rounding.rnd_nonneg (div_nonneg (E.rounding.rnd_nonneg (Nat.cast_nonneg _))
      (E.rounding.rnd_nonneg (Nat.cast_nonneg _)))

theorem tolerance_nonpos (never : E.tolerableDiffPct ≤ 0) : E.tolerance ≤ 0 := by
  rw [← E.rounding.zero]
  apply E.rounding.mono
  have : (E.tolerableDiffPct : ℚ) ≤ 0 := by exact_mod_cast never
  linarith

/-- Without tolerance nothing is joined. -/
theorem Move.alone (never : E.tolerableDiffPct ≤ 0) (hc : h.Consistent) (alone : h.Alone cksum)
    (move : Move E cksum h h') : h'.Alone cksum := by
  have point : ∀ {n c}, (∀ m, (h'.node m).eqClass = if m = n then some c else (h.node m).eqClass) →
      h'.layout = h.layout →
      (∀ m, (h.node m).eqClass = some c → h.layout.kind cksum m = .dir ∨
        h.layout.kind cksum n = .dir → m = n) → h'.Alone cksum := by
    rintro n c eqClass layout single a b ⟨d, ha, hb⟩ dir
    rw [layout] at dir
    rw [eqClass] at ha hb
    split at ha <;> split at hb
    · subst a; subst b; rfl
    · subst a
      obtain rfl := Option.some.inj ha
      exact (single b hb (Or.inr dir)).symm
    · subst b
      obtain rfl := Option.some.inj hb
      exact single a ha (Or.inl dir)
    · exact alone a b ⟨d, ha, hb⟩ dir
  cases move with
  | newClass => exact alone
  | leaf _ leaf _ _ alike _ placed =>
    apply point placed.eqClass placed.layout
    intro m hm dir
    rw [alike m hm, or_self] at dir
    exact absurd dir leaf
  | dir _ _ _ _ settled =>
    apply point settled.eqClass settled.layout
    intro m hm _
    cases settled with
    | joined joins _ =>
      exact absurd (lt_of_lt_of_le joins.near (tolerance_nonpos never)) (not_lt.mpr distance_nonneg)
    | founded _ _ => exact absurd (hc.known hm) (Nat.lt_irrefl _)

theorem Moves.alone (never : E.tolerableDiffPct ≤ 0) (fresh : h.Fresh root)
    (moves : Moves E cksum h h') : h'.Alone cksum := by
  have start : h.Alone cksum := by
    rintro a b ⟨c, ha, -⟩
    simp [fresh.unevaluated] at ha
  apply moves.invariant fresh.tree fresh.consistent start
  intro a b _ ha alone move
  exact move.alone never ha alone

end Heap

/-- With a tolerance of zero a classification returns just when its sums fit. Two
file-bearing directories are then together just when they are content-identical if and
only if they are no two copies. -/
theorem identical_apart_iff (E : Env) (cksum : NodeId → Cksum) {h : Heap} {root : NodeId}
    {sum2Node : Sum2Node} (fresh : h.Fresh root) (holds : sum2Node.Holds h.layout cksum)
    (sized : E.Sized h.layout) (zero : E.tolerableDiffPct = 0) :
    ((∃ result, classify E h root sum2Node = .ok result) ↔
      Propagation.SumsFit E h root sum2Node) ∧
    ∀ h' eqClasses, classify E h root sum2Node = .ok (h', eqClasses) →
      ∀ a b, a < h.numNodes → b < h.numNodes → h.layout.BearingDir a → h.layout.BearingDir b →
        ((h'.SameClass a b ↔ h.layout.ContentIdentical cksum a b) ↔
          (h.layout.ContentIdentical cksum a b → a = b)) := by
  refine ⟨Propagation.classify_ok_iff fresh holds sized, fun h' eqClasses run a b ha _ hda _ => ?_⟩
  have done := Propagation.of_classify fresh holds run
  have alone := Heap.Moves.alone (le_of_eq zero) fresh done.moves
  have single : h'.SameClass a b → a = b := fun same =>
    alone a b same (done.moves.layout ▸ Heap.kind_of_bearingDir hda)
  constructor
  · intro exact identical
    exact single (exact.mpr identical)
  · intro once
    constructor
    · intro same
      rw [single same]
      exact Layout.ContentIdentical.refl b
    · intro identical
      obtain ⟨c, hc⟩ := Heap.isEvaluated_iff.mp ((done.evaluated a).mpr ha)
      exact ⟨c, hc, once identical ▸ hc⟩

theorem identical_apart_iff_twins :
    ∃ h' eqClasses, classify (.counting 0) (.ofEntries twins) 0 twinSums = .ok (h', eqClasses) ∧
      ∀ a b, a < 6 → b < 6 → (Heap.ofEntries twins).layout.BearingDir a →
        (Heap.ofEntries twins).layout.BearingDir b →
        ((h'.SameClass a b ↔ (Heap.ofEntries twins).layout.ContentIdentical (fun _ => 7) a b) ↔
          ((Heap.ofEntries twins).layout.ContentIdentical (fun _ => 7) a b → a = b)) := by
  have sized := Env.counting_sized 0 (Heap.ofEntries twins).layout
  obtain ⟨h', eqClasses, run, -⟩ :=
    Propagation.classify_exact (E := .counting 0) rfl twins_fresh twins_holds sized
  obtain ⟨-, apart⟩ := identical_apart_iff (.counting 0) _ twins_fresh twins_holds sized rfl
  exact ⟨h', eqClasses, run, apart h' eqClasses run⟩

theorem twins_identical :
    (Heap.ofEntries twins).layout.ContentIdentical (fun _ => 7) 1 2 := by
  apply Layout.contentIdentical_of_files (by decide) (by decide)
  intro k
  exact ⟨fun ⟨_, _, _, hk⟩ => ⟨5, by decide, rfl, hk⟩, fun ⟨_, _, _, hk⟩ => ⟨4, by decide, rfl, hk⟩⟩

theorem twins_bearing {n x : NodeId} (hx : x ∈ (Heap.ofEntries twins).layout.children n)
    (dir : (Heap.entryAt twins n).type = .dir) (file : (Heap.entryAt twins x).type = .file) :
    (Heap.ofEntries twins).layout.BearingDir n :=
  ⟨dir, x, Forest.below_child (Forest.below_refl n) hx, file⟩

/-- Two copies stay apart. -/
theorem identical_apart :
    ¬∀ (E : Env) (cksum : NodeId → Cksum) (h : Heap) (root : NodeId) (sum2Node : Sum2Node),
      h.Fresh root → sum2Node.Holds h.layout cksum → E.Weighs h.layout →
      E.tolerableDiffPct = 0 →
      ∀ h' eqClasses, classify E h root sum2Node = .ok (h', eqClasses) →
        ∀ a b, a < h.numNodes → b < h.numNodes → h.layout.BearingDir a → h.layout.BearingDir b →
          (h'.SameClass a b ↔ h.layout.ContentIdentical cksum a b) := by
  intro claim
  obtain ⟨h', eqClasses, run, done⟩ := Propagation.classify_exact (E := .counting 0) rfl twins_fresh
    twins_holds (Env.counting_sized 0 _)
  have exact := claim _ _ _ _ _ twins_fresh twins_holds ⟨rfl, Or.inl rfl, by decide⟩ rfl h'
    eqClasses run 1 2 (by decide) (by decide)
    (twins_bearing (x := 4) (by decide) rfl rfl) (twins_bearing (x := 5) (by decide) rfl rfl)
  have alone := Heap.Moves.alone (by decide) twins_fresh done.moves
  have kind : h'.layout.kind (fun _ => 7) 1 = .dir := by
    rw [done.moves.layout]
    rfl
  exact absurd (alone 1 2 (exact.mpr twins_identical) kind) (by decide)

end Dupa
