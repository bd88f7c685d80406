import Dupa.Moves

/-!
# The propagation loop

`Sound` says what the queue holds between two turns: exactly the nodes that are
ready and not evaluated. A turn makes one move and keeps it (`Turn.sound`), and the
loop stops with every node evaluated. It fails no check as long as the sums of
`NodeDistance` fit in every turn (`evaluate_ok`, `loop_ok`).
-/

namespace Dupa

open Checked Heap

namespace Propagation

/-- The state in which `PropagateEquivalence` enters its loop. -/
def start (E : Env) (h : Heap) (root : NodeId) (sum2Node : Sum2Node) :
    Except Fault Propagation := do
  let (h, eqClasses) ← h.classifyDuplicateFiles E sum2Node
  let (h, emptyDirs) ← h.classifyEmptyDirs E root
  let eqClasses := if (h.eqClass emptyDirs).nodes = [] then eqClasses else eqClasses ++ [emptyDirs]
  return ⟨h, eqClasses, h.getNodesReadyToEval root⟩

/-- The turn of the loop for `n`. -/
inductive Turn (E : Env) (s : Propagation) (n : NodeId) (s' : Propagation) : Prop where
  | pop {rest} (front : s.readyToEval = n :: rest)
      (turn : evaluate E { s with readyToEval := rest } n = .ok s') : Turn E s n s'

abbrev Turns (E : Env) : Propagation → Propagation → Prop :=
  Relation.ReflTransGen fun s s' => ∃ n, Turn E s n s'

def Reached (E : Env) (h : Heap) (root : NodeId) (sum2Node : Sum2Node) (s : Propagation) : Prop :=
  ∃ s0, start E h root sum2Node = .ok s0 ∧ Turns E s0 s

variable {E : Env} {cksum : NodeId → Cksum} {root : NodeId}

structure Sound (cksum : NodeId → Cksum) (root : NodeId) (s : Propagation) : Prop where
  tree : s.heap.layout.IsTree root
  consistent : s.heap.Consistent
  inside : ∀ n, s.heap.IsEvaluated n → n < s.heap.numNodes
  leaves : ∀ n, n < s.heap.numNodes → s.heap.layout.kind cksum n ≠ .dir → s.heap.IsEvaluated n
  queue_nodup : s.readyToEval.Nodup
  queue : ∀ n, n ∈ s.readyToEval ↔
    n < s.heap.numNodes ∧ ¬ s.heap.IsEvaluated n ∧ s.heap.ChildrenEvaluated n
  listed : ∀ c, c ∈ s.eqClasses ↔ (s.heap.eqClass c).nodes ≠ []
  eqClasses_nodup : s.eqClasses.Nodup

/-- What placing `n` does to the lists of a propagation. -/
structure Placing (E : Env) (s : Propagation) (n : NodeId) (s' : Propagation) : Prop where
  settled : ∃ c, Settled E s.heap n c s'.heap
  queue : s'.readyToEval = s.readyToEval
  listed : ∀ c, c ∈ s'.eqClasses ↔ (s'.heap.eqClass c).nodes ≠ []
  eqClasses_nodup : s'.eqClasses.Nodup

theorem place_ok {s : Propagation} {n : NodeId} {choice : Option ClassId}
    (hc : s.heap.Consistent) (fresh : ¬ s.heap.IsEvaluated n) (ready : s.heap.ChildrenEvaluated n)
    (listed : ∀ c, c ∈ s.eqClasses ↔ (s.heap.eqClass c).nodes ≠ []) (nodup : s.eqClasses.Nodup)
    (chosen : s.heap.Chosen E n choice) :
    ∃ s', place E s n choice = .ok s' ∧ Placing E s n s' := by
  cases choice with
  | some c =>
    obtain ⟨e, joins⟩ := chosen
    obtain ⟨h', hadd, placed⟩ := addNode_placed E c hc fresh ready
    refine ⟨{ s with heap := h' }, by simp only [place, hadd]; rfl, ⟨c, .joined joins placed⟩, rfl,
      fun d => ?_, nodup⟩
    change d ∈ s.eqClasses ↔ (h'.eqClass d).nodes ≠ []
    rw [listed, placed.nodes]
    by_cases hd : d = c
    · subst hd
      have := List.ne_nil_of_mem ((hc.member e d).mp joins.eqClass)
      simp [this]
    · simp [hd]
  | none =>
    obtain ⟨h', hadd, placed⟩ := addNode_placed E s.heap.numClasses hc.newClass fresh ready
    refine ⟨{ s with heap := h', eqClasses := s.eqClasses ++ [s.heap.numClasses] }, ?_,
      ⟨_, .founded chosen placed⟩, rfl, fun d => ?_, ?_⟩
    · simp only [place]
      change (s.heap.newClass.1.addNode E s.heap.numClasses n >>= _) = _
      rw [hadd]
      rfl
    · change d ∈ s.eqClasses ++ [s.heap.numClasses] ↔ (h'.eqClass d).nodes ≠ []
      rw [List.mem_append, List.mem_singleton, listed, placed.nodes, newClass_nodes hc]
      by_cases hd : d = s.heap.numClasses
      · subst hd; simp
      · simp [hd, newClass_nodes hc]
    · apply List.Nodup.append nodup (List.nodup_singleton _)
      simp [listed, hc.unallocated]

theorem pushParent_heap (s : Propagation) (n : NodeId) : (s.pushParent n).heap = s.heap := by
  unfold pushParent
  split
  · rfl
  · split <;> rfl

theorem pushParent_eqClasses (s : Propagation) (n : NodeId) :
    (s.pushParent n).eqClasses = s.eqClasses := by
  unfold pushParent
  split
  · rfl
  · split <;> rfl

theorem mem_pushParent {s : Propagation} {n m : NodeId} :
    m ∈ (s.pushParent n).readyToEval ↔
      m ∈ s.readyToEval ∨ (s.heap.node n).parent = some m ∧ s.heap.IsReadyToEvaluate m := by
  unfold pushParent
  cases (s.heap.node n).parent with
  | none => simp
  | some p =>
    by_cases hp : s.heap.IsReadyToEvaluate p
    · simp only [hp, ite_true, List.mem_append, List.mem_singleton, Option.some.injEq]
      exact or_congr_right ⟨fun he => ⟨he.symm, he ▸ hp⟩, fun he => he.1.symm⟩
    · simp only [hp, ite_false, Option.some.injEq]
      exact ⟨Or.inl, fun hm => hm.elim id fun he => absurd (he.1 ▸ he.2) hp⟩

theorem pushParent_nodup {s : Propagation} {n : NodeId} (hs : s.readyToEval.Nodup)
    (hp : ∀ p, (s.heap.node n).parent = some p → p ∉ s.readyToEval) :
    (s.pushParent n).readyToEval.Nodup := by
  unfold pushParent
  cases hpar : (s.heap.node n).parent with
  | none => exact hs
  | some p =>
    dsimp only
    split
    · exact List.Nodup.append hs (List.nodup_singleton p) (by simpa using hp p hpar)
    · exact hs

/-- Settling `n` makes ready exactly its parent, if `n` was the last child it
waited for. -/
theorem ready_after {h h' : Heap} {n m : NodeId} {c : ClassId} (hc : h.Consistent)
    (hc' : h'.Consistent) (settled : Settled E h n c h') :
    h'.ChildrenEvaluated m ↔ h.ChildrenEvaluated m ∨
      (h'.node n).parent = some m ∧ h'.IsReadyToEvaluate m := by
  have children := children_of_layout settled.layout m
  constructor
  · intro hm
    by_cases hold : h.ChildrenEvaluated m
    · exact Or.inl hold
    · right
      obtain ⟨x, hx, hxe⟩ : ∃ x ∈ (h.node m).children, ¬ h.IsEvaluated x := by
        simpa [ChildrenEvaluated] using hold
      have hxn : x = n := ((settled.isEvaluated_iff x).mp (hm x (children ▸ hx))).resolve_right hxe
      subst hxn
      rw [parent_of_layout settled.layout]
      exact ⟨(hc.parent_iff m x).mp hx, hc'.ready_iff.mpr hm⟩
  · rintro (hm | ⟨_, hm⟩)
    · intro x hx
      exact (settled.isEvaluated_iff x).mpr (Or.inr (hm x (children ▸ hx)))
    · exact hc'.ready_iff.mp hm

/-- Once the front `n` is placed, the rest of the queue and its parent, if that became
ready, are what is ready. -/
theorem Sound.queue_after {s t : Propagation} (sound : s.Sound cksum root) {n m : NodeId}
    {rest : List NodeId} (front : s.readyToEval = n :: rest) {c : ClassId}
    (settled : Settled E s.heap n c t.heap) (hqueue : t.readyToEval = rest) :
    m ∈ (t.pushParent n).readyToEval ↔
      m < t.heap.numNodes ∧ ¬ t.heap.IsEvaluated m ∧ t.heap.ChildrenEvaluated m := by
  have hc := sound.consistent
  obtain ⟨-, fresh, ready⟩ := (sound.queue n).mp (front ▸ List.mem_cons_self)
  obtain ⟨hnrest, -⟩ := List.nodup_cons.mp (front ▸ sound.queue_nodup)
  rw [mem_pushParent, hqueue, numNodes_of_layout settled.layout, settled.isEvaluated_iff,
    ready_after hc (settled.consistent hc fresh ready) settled,
    parent_of_layout settled.layout]
  constructor
  · rintro (hm | ⟨hp, hr⟩)
    · obtain ⟨hlt, hev, hch⟩ := (sound.queue m).mp (front ▸ List.mem_cons_of_mem n hm)
      have hmn : m ≠ n := fun he => hnrest (he ▸ hm)
      exact ⟨hlt, by simp [hmn, hev], Or.inl hch⟩
    · have child := (hc.parent_iff m n).mpr hp
      have hmn := (hc.waiting fresh ready hp).1
      have hev : ¬ s.heap.IsEvaluated m := fun he => fresh (hc.children_evaluated he n child)
      exact ⟨(sound.tree.inside m n child).1, by simp [hmn, hev], Or.inr ⟨hp, hr⟩⟩
  · rintro ⟨hlt, hev, hch | hch⟩
    · simp only [not_or] at hev
      have hmem := (sound.queue m).mpr ⟨hlt, hev.2, hch⟩
      rw [front] at hmem
      exact Or.inl ((List.mem_cons.mp hmem).resolve_left hev.1)
    · exact Or.inr hch

theorem Sound.pushParent {s t : Propagation} (sound : s.Sound cksum root) {n : NodeId}
    {rest : List NodeId} (front : s.readyToEval = n :: rest)
    (placing : Placing E { s with readyToEval := rest } n t) : (t.pushParent n).Sound cksum root := by
  have hc := sound.consistent
  obtain ⟨hn, fresh, ready⟩ := (sound.queue n).mp (front ▸ List.mem_cons_self)
  obtain ⟨-, hrest⟩ := List.nodup_cons.mp (front ▸ sound.queue_nodup)
  obtain ⟨⟨c, settled⟩, hqueue, listed, nodup⟩ := placing
  have numNodes : t.heap.numNodes = s.heap.numNodes := numNodes_of_layout settled.layout
  constructor
  case tree =>
    rw [pushParent_heap, settled.layout]
    exact sound.tree
  case consistent =>
    rw [pushParent_heap]
    exact settled.consistent hc fresh ready
  case inside =>
    rw [pushParent_heap, numNodes]
    intro m hm
    rcases (settled.isEvaluated_iff m).mp hm with rfl | hm
    · exact hn
    · exact sound.inside m hm
  case leaves =>
    rw [pushParent_heap, numNodes, settled.layout]
    intro m hm leaf
    exact (settled.isEvaluated_iff m).mpr (Or.inr (sound.leaves m hm leaf))
  case queue_nodup =>
    apply pushParent_nodup (hqueue ▸ hrest)
    intro p hp hmem
    rw [hqueue] at hmem
    have hmem : p ∈ s.readyToEval := front ▸ List.mem_cons_of_mem n hmem
    exact (hc.waiting fresh ready (parent_of_layout settled.layout n ▸ hp)).2
      (hc.ready_iff.mpr ((sound.queue p).mp hmem).2.2)
  case queue =>
    intro m
    rw [sound.queue_after front settled hqueue, pushParent_heap]
  case listed =>
    rw [pushParent_heap, pushParent_eqClasses]
    exact listed
  case eqClasses_nodup =>
    rw [pushParent_eqClasses]
    exact nodup

/-- The node at the front of the queue waits for no child, and no leaf is left. -/
theorem Sound.front {s : Propagation} (sound : s.Sound cksum root) {n : NodeId} {rest : List NodeId}
    (front : s.readyToEval = n :: rest) :
    ¬ s.heap.IsEvaluated n ∧ s.heap.ChildrenEvaluated n ∧ s.heap.layout.kind cksum n = .dir := by
  obtain ⟨hn, fresh, ready⟩ := (sound.queue n).mp (front ▸ List.mem_cons_self)
  refine ⟨fresh, ready, ?_⟩
  by_contra leaf
  exact fresh (sound.leaves n hn leaf)

section
variable {s s' : Propagation} {n : NodeId}

/-- A turn is a choice and what comes of it. -/
theorem Turn.chose (turn : Turn E s n s') :
    ∃ rest choice t, s.readyToEval = n :: rest ∧ s.heap.classToJoin E n = .ok choice ∧
      place E { s with readyToEval := rest } n choice = .ok t ∧ s' = t.pushParent n := by
  obtain ⟨front, turn⟩ := turn
  obtain ⟨-, turn⟩ := of_ensure_ok turn
  obtain ⟨-, turn⟩ := of_ensure_ok turn
  obtain ⟨-, turn⟩ := of_ensure_ok turn
  obtain ⟨choice, chosen, turn⟩ := of_bind_ok turn
  obtain ⟨t, placed, turn⟩ := of_bind_ok turn
  cases turn
  exact ⟨_, choice, t, front, chosen, placed, rfl⟩

/-- Every distance that was taken fits. -/
theorem Turn.fits (turn : Turn E s n s') (sound : s.Sound cksum root) : s.heap.AllFit E n := by
  obtain ⟨rest, choice, t, front, chosen, -, -⟩ := turn.chose
  exact (of_classToJoin sound.consistent (sound.front front).2.1 chosen).2

/-- One turn of the loop: the node at the front is evaluated by a move, and the
queue again holds what is ready. -/
theorem Turn.sound (turn : Turn E s n s') (sound : s.Sound cksum root) :
    Move E cksum s.heap s'.heap ∧ s'.heap.evaluated = s.heap.evaluated ++ [n] ∧
      s'.Sound cksum root := by
  obtain ⟨rest, choice, t, front, chosen, hplace, rfl⟩ := turn.chose
  obtain ⟨fresh, ready, dir⟩ := sound.front front
  obtain ⟨chosen, -⟩ := of_classToJoin sound.consistent ready chosen
  obtain ⟨t', hplace', placing⟩ := place_ok (s := { s with readyToEval := rest }) sound.consistent
    fresh ready sound.listed sound.eqClasses_nodup chosen
  obtain rfl := Except.ok.inj (hplace.symm.trans hplace')
  obtain ⟨c, settled⟩ := placing.settled
  refine ⟨?_, ?_, sound.pushParent front placing⟩
  · rw [pushParent_heap]
    exact .dir dir fresh ready sound.leaves settled
  · rw [pushParent_heap, settled.evaluated]

theorem Turns.sound (turns : Turns E s s') (sound : s.Sound cksum root) :
    Moves E cksum s.heap s'.heap ∧ s'.Sound cksum root := by
  induction turns with
  | refl => exact ⟨.refl, sound⟩
  | tail _ turn ih =>
    obtain ⟨n, turn⟩ := turn
    obtain ⟨move, -, sound'⟩ := turn.sound ih.2
    exact ⟨ih.1.tail move, sound'⟩

/-- A turn fails no check if what it compares fits. -/
theorem evaluate_ok (sound : s.Sound cksum root) (hw : ∀ c, 0 ≤ (s.heap.eqClass c).weight)
    {rest : List NodeId} (front : s.readyToEval = n :: rest) (fits : s.heap.AllFit E n) :
    ∃ s', evaluate E { s with readyToEval := rest } n = .ok s' := by
  have hc := sound.consistent
  obtain ⟨fresh, ready, dir⟩ := sound.front front
  have parentWaits : parentNotReady s.heap n := fun p hp => (hc.waiting fresh ready hp).2
  obtain ⟨choice, chosen⟩ := classToJoin_ok hc hw ready (kind_eq_dir_iff.mp dir).1 fits
  obtain ⟨t, hplace, -⟩ := place_ok (s := { s with readyToEval := rest }) hc fresh ready sound.listed
    sound.eqClasses_nodup (of_classToJoin hc ready chosen).1
  refine ⟨t.pushParent n, ?_⟩
  unfold evaluate
  rw [ensure_bind (hc.ready_iff.mpr ready), ensure_bind fresh, ensure_bind parentWaits, chosen,
    ok_bind, hplace]
  rfl

end

/-- While a node is not evaluated, a lowest such node is in the queue. -/
theorem Sound.all_evaluated {s : Propagation} (sound : s.Sound cksum root)
    (empty : s.readyToEval = []) {n : NodeId} (hn : n < s.heap.numNodes) : s.heap.IsEvaluated n := by
  induction n using sound.tree.forest.induction with
  | step n ih =>
    by_contra hev
    have ready : s.heap.ChildrenEvaluated n := fun x hx => ih x hx (sound.tree.inside n x hx).2
    have := (sound.queue n).mpr ⟨hn, hev, ready⟩
    simp [empty] at this

theorem Sound.log_le {s : Propagation} (sound : s.Sound cksum root) :
    s.heap.evaluated.length ≤ s.heap.numNodes := by
  have sub : s.heap.evaluated ⊆ List.range s.heap.numNodes := fun n hn =>
    List.mem_range.mpr (sound.inside n ((sound.consistent.logged n).mp hn))
  simpa using (sound.consistent.log_nodup.subperm sub).length_le

/-- A loop that returns has made turns until the queue was empty. -/
theorem loop_turns {fuel : ℕ} {s s' : Propagation} (h : loop E fuel s = .ok s') :
    Turns E s s' ∧ s'.readyToEval = [] := by
  induction fuel generalizing s with
  | zero => cases h
  | succ fuel ih =>
    unfold loop at h
    cases front : s.readyToEval with
    | nil =>
      rw [front] at h
      cases h
      exact ⟨.refl, front⟩
    | cons n rest =>
      rw [front] at h
      obtain ⟨t, turn, h⟩ := of_bind_ok h
      obtain ⟨turns, empty⟩ := ih h
      exact ⟨.head ⟨n, front, turn⟩ turns, empty⟩

/-- The loop makes one turn for every node still to evaluate. -/
theorem loop_ok {fuel : ℕ} {s : Propagation} (sound : s.Sound cksum root)
    (sized : E.Sized s.heap.layout) (hw : ∀ c, 0 ≤ (s.heap.eqClass c).weight)
    (fits : ∀ t n rest, Turns E s t → t.readyToEval = n :: rest → t.heap.AllFit E n)
    (enough : s.heap.numNodes < fuel + s.heap.evaluated.length) : ∃ s', loop E fuel s = .ok s' := by
  induction fuel generalizing s with
  | zero =>
    have := sound.log_le
    omega
  | succ fuel ih =>
    unfold loop
    cases front : s.readyToEval with
    | nil => exact ⟨s, rfl⟩
    | cons n rest =>
      obtain ⟨t, evaluated⟩ := evaluate_ok sound hw front (fits s n rest .refl front)
      have turn : Turn E s n t := .pop front evaluated
      obtain ⟨move, hlog, sound'⟩ := turn.sound sound
      have numNodes : t.heap.numNodes = s.heap.numNodes := numNodes_of_layout move.layout
      dsimp only
      rw [evaluated]
      apply ih sound' (move.layout ▸ sized) (move.nonneg sized hw)
      · exact fun u m rest turns => fits u m rest (.head ⟨n, turn⟩ turns)
      · rw [hlog, numNodes, List.length_append, List.length_singleton]
        omega

/-- All turns that can be made from a state are those the loop makes from there. -/
theorem loop_of_turns {fuel : ℕ} {s t s' : Propagation} (turns : Turns E s t)
    (h : loop E fuel s = .ok s') : ∃ fuel', loop E fuel' t = .ok s' := by
  induction turns using Relation.ReflTransGen.head_induction_on generalizing fuel with
  | refl => exact ⟨fuel, h⟩
  | head turn _ ih =>
    obtain ⟨n, front, turn⟩ := turn
    cases fuel with
    | zero => cases h
    | succ fuel =>
      unfold loop at h
      rw [front] at h
      dsimp only at h
      rw [turn] at h
      exact ih h

end Propagation

end Dupa
