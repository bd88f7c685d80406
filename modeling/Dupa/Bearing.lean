import Dupa.Classified

/-!
# Classes that weigh something

When every file weighs at least one and no tolerance is above the whole, a class
weighs at least one if its members bear a file and nothing otherwise, whatever
joined it (`Weighted`, kept by `Move.weighted`). A node that bears a file is then
nearer than the whole only to nodes it shares the class of a file-bearing child with
(`Weighted.shares`). The arithmetic may round.
-/

namespace Dupa

/-- The node is a file or has one below it. -/
def Layout.Bears (L : Layout) (n : NodeId) : Prop :=
  ∃ m, Forest.Below L.children n m ∧ (L.entry m).type = .file

/-- Numbers of nodes are exact, files weigh at least one and no tolerance is above the
whole. -/
structure Env.Counts (E : Env) (L : Layout) : Prop where
  rounding : E.rounding.Counts L.size
  files : E.useSize = false ∨ ∀ n, L.IsFile n → 1 ≤ (L.entry n).size
  atMostWhole : E.tolerableDiffPct ≤ 100

theorem Env.Counts.tolerance_le_one {E : Env} {L : Layout} (counts : E.Counts L) :
    E.tolerance ≤ 1 := by
  apply E.rounding.rnd_le_one
  rw [div_le_one (by norm_num)]
  exact_mod_cast counts.atMostWhole

theorem Env.Counts.sized {E : Env} {L : Layout} (counts : E.Counts L) : E.Sized L := by
  intro sizing n file
  have := (counts.files.resolve_left (by simp [sizing])) n file
  omega

namespace Heap

/-- The classes of the file-bearing children of `n`. -/
def bearing (h : Heap) (n : NodeId) : Set ClassId :=
  {c | ∃ x ∈ (h.node n).children, h.layout.Bears x ∧ (h.node x).eqClass = some c}

structure Weighted (h : Heap) : Prop where
  nonneg : ∀ c, 0 ≤ (h.eqClass c).weight
  bears : ∀ {n c}, (h.node n).eqClass = some c → h.layout.Bears n → 1 ≤ (h.eqClass c).weight
  weightless : ∀ {n c}, (h.node n).eqClass = some c → ¬ h.layout.Bears n → (h.eqClass c).weight = 0

variable {E : Env} {cksum : NodeId → Cksum} {root : NodeId} {h h' : Heap} {n m x c : Nat}

theorem bears_file (file : (h.node n).type = .file) : h.layout.Bears n :=
  ⟨n, Forest.below_refl n, file⟩

theorem bears_dir (dir : (h.node n).type = .dir) :
    h.layout.Bears n ↔ ∃ x ∈ (h.node n).children, h.layout.Bears x := by
  constructor
  · rintro ⟨m, below, file⟩
    rcases Forest.below_iff.mp below with rfl | ⟨x, hx, below⟩
    · exact absurd (dir.symm.trans file) (by simp)
    · exact ⟨x, hx, m, below, file⟩
  · rintro ⟨x, hx, m, below, file⟩
    exact ⟨m, Forest.below_of_child hx below, file⟩

theorem not_bears_emptyDir (he : h.IsEmptyDir n) : ¬ h.layout.Bears n := by
  rw [bears_dir he.1]
  simp [he.2]

theorem bears_of_kind {k : Kind} (leaf : k ≠ .dir) (hn : h.layout.kind cksum n = k) :
    h.layout.Bears n ↔ k ≠ .emptyDir := by
  cases k with
  | file s => simp [bears_file (h := h) (type_of_kind hn)]
  | emptyDir => simp [not_bears_emptyDir (kind_eq_emptyDir_iff.mp hn)]
  | dir => exact absurd rfl leaf

theorem bearing_nonempty (dir : (h.node n).type = .dir) (bears : h.layout.Bears n)
    (ready : h.ChildrenEvaluated n) : (h.bearing n).Nonempty := by
  obtain ⟨x, hx, bears⟩ := (bears_dir dir).mp bears
  obtain ⟨c, hc⟩ := isEvaluated_iff.mp (ready x hx)
  exact ⟨c, x, hx, bears, hc⟩

theorem bears_of_mem_bearing (dir : (h.node n).type = .dir) (hc : c ∈ h.bearing n) :
    h.layout.Bears n := by
  obtain ⟨x, hx, bears, -⟩ := hc
  exact (bears_dir dir).mpr ⟨x, hx, bears⟩

/-- An evaluated node with the class of a file-bearing child of `n` among those of its
children is an equivalent of `n`. -/
theorem equivalent_of_bearing (hc : h.Consistent) (fresh : ¬ h.IsEvaluated n)
    (hm : h.IsEvaluated m) (same : (h.bearing n ∩ h.bearing m).Nonempty) : h.Equivalent n m := by
  obtain ⟨d, ⟨x, hx, -, hxd⟩, ⟨y, hy, -, hyd⟩⟩ := same
  have hne : m ≠ n := fun hmn => fresh (hmn ▸ hm)
  have parent : (h.node y).parent = some m := (hc.parent_iff m y).mp hy
  refine ⟨x, hx, d, hxd, y, hyd, ?_, parent, hm, hne⟩
  rintro rfl
  have : (h.node y).parent = some n := (hc.parent_iff n y).mp hx
  exact hne (Option.some.inj (parent.symm.trans this))

namespace Weighted

variable (hw : h.Weighted)
include hw

theorem same_bears {a b : NodeId} (ha : (h.node a).eqClass = some c)
    (hb : (h.node b).eqClass = some c) : h.layout.Bears a ↔ h.layout.Bears b := by
  by_cases bears : h.layout.Bears a <;> by_cases bears' : h.layout.Bears b
  · simp [bears, bears']
  · have := hw.bears ha bears
    have := hw.weightless hb bears'
    linarith
  · have := hw.bears hb bears'
    have := hw.weightless ha bears
    linarith
  · simp [bears, bears']

theorem mem_bearing_of_heavy (hc : c ∈ h.classList n) (heavy : (h.eqClass c).weight ≠ 0) :
    c ∈ h.bearing n := by
  obtain ⟨x, hx, hxc⟩ := mem_classList.mp hc
  refine ⟨x, hx, ?_, hxc⟩
  by_contra bears
  exact heavy (hw.weightless hxc bears)

theorem one_le_of_mem_bearing (hc : c ∈ h.bearing n) : 1 ≤ (h.eqClass c).weight := by
  obtain ⟨x, -, bears, hxc⟩ := hc
  exact hw.bears hxc bears

end Weighted

theorem mem_classList_of_bearing (hc : c ∈ h.bearing n) : c ∈ h.classList n := by
  obtain ⟨x, hx, -, hxc⟩ := hc
  exact mem_classList.mpr ⟨x, hx, hxc⟩

/-! ## Distances -/

/-- As long as what is shared weighs nothing, both sums of `NodeDistance` stay equal. -/
theorem foldl_lockstep (hw : ∀ c, 0 ≤ (h.eqClass c).weight) (shared : ClassId → Bool)
    (l : List ClassId)
    (light : ∀ c ∈ l, shared c = true → (h.eqClass c).weight = 0) {s : ℕ × ℕ} (same : s.1 = s.2)
    (fixed : E.rounding.Fixed s.1) :
    let s' := l.foldl (h.sumClass E shared) s
    s'.1 = s'.2 ∧ E.rounding.Fixed s'.1 ∧
      (1 ≤ s.1 ∨ (∃ c ∈ l, 1 ≤ (h.eqClass c).weight) → 1 ≤ s'.1) := by
  induction l generalizing s with
  | nil => simpa using ⟨same, fixed⟩
  | cons c l ih =>
    have step : (h.sumClass E shared s c).1 = (h.sumClass E shared s c).2 := by
      unfold sumClass
      cases hs : shared c with
      | false => simp [same]
      | true => simp [light c List.mem_cons_self hs, ← same, fixed.add_weightless]
    have stays : E.rounding.Fixed (h.sumClass E shared s c).1 := Rounding.fixed_add (hw c)
    have grows : s.1 ≤ (h.sumClass E shared s c).1 := fixed.le_add (hw c)
    obtain ⟨equal, fixed', positive⟩ :=
      ih (fun d hd => light d (List.mem_cons_of_mem c hd)) step stays
    refine ⟨equal, fixed', fun some => positive ?_⟩
    rcases some with whole | ⟨d, hd, heavy⟩
    · exact Or.inl (Nat.le_trans whole grows)
    · rcases List.mem_cons.mp hd with rfl | hd
      · exact Or.inl (Rounding.one_le_add heavy)
      · exact Or.inr ⟨d, hd, heavy⟩

/-- Nodes that share nothing that weighs anything are at distance one. -/
theorem distance_eq_one (hw : ∀ c, 0 ≤ (h.eqClass c).weight)
    (light : ∀ c ∈ h.classList n, c ∈ h.classList m → (h.eqClass c).weight = 0)
    (heavy : ∃ c, (c ∈ h.classList n ∨ c ∈ h.classList m) ∧ 1 ≤ (h.eqClass c).weight) :
    h.distance E n m = 1 := by
  obtain ⟨same, fixed, first⟩ := foldl_lockstep hw (· ∈ h.classList m)
    (E.classOrder.visit (h.classList n))
    (fun c hc shared => light c ((E.classOrder.mem _ c).mp hc) (by simpa using shared))
    rfl E.rounding.fixed_zero (s := (0, 0))
  obtain ⟨same', -, second⟩ := foldl_lockstep hw (fun _ => false)
    (E.classOrder.visit ((h.classList m).filter (· ∉ h.classList n)))
    (fun c _ shared => by cases shared) same fixed
  have positive : 1 ≤ (h.sums E n m).1 := by
    apply second
    obtain ⟨c, hc, heavy⟩ := heavy
    by_cases hn : c ∈ h.classList n
    · exact Or.inl (first (Or.inr ⟨c, (E.classOrder.mem _ c).mpr hn, heavy⟩))
    · have hm : c ∈ (h.classList m).filter (· ∉ h.classList n) := by
        simp [hc.resolve_left hn, hn]
      exact Or.inr ⟨c, (E.classOrder.mem _ c).mpr hm, heavy⟩
  have whole : E.rounding.rnd (h.sums E n m).1 ≠ 0 := by
    have : (1 : ℚ) ≤ E.rounding.rnd (h.sums E n m).1 := by
      rw [← E.rounding.one]
      exact E.rounding.mono (by exact_mod_cast positive)
    linarith
  unfold distance
  rw [if_neg (by omega), ← show (h.sums E n m).1 = (h.sums E n m).2 from same', div_self whole,
    E.rounding.one]

/-- Nodes one of which bears a file share the class of a file-bearing child when they
are nearer than the whole. -/
theorem Weighted.shares (hw : h.Weighted)
    (some : (h.bearing n).Nonempty ∨ (h.bearing m).Nonempty) (near : h.distance E n m < 1) :
    (h.bearing n ∩ h.bearing m).Nonempty := by
  by_contra apart
  have light : ∀ c ∈ h.classList n, c ∈ h.classList m → (h.eqClass c).weight = 0 := by
    intro c hn hm
    by_contra heavy
    exact apart ⟨c, hw.mem_bearing_of_heavy hn heavy, hw.mem_bearing_of_heavy hm heavy⟩
  have heavy : ∃ c, (c ∈ h.classList n ∨ c ∈ h.classList m) ∧ 1 ≤ (h.eqClass c).weight := by
    rcases some with ⟨c, hc⟩ | ⟨c, hc⟩
    · exact ⟨c, Or.inl (mem_classList_of_bearing hc), hw.one_le_of_mem_bearing hc⟩
    · exact ⟨c, Or.inr (mem_classList_of_bearing hc), hw.one_le_of_mem_bearing hc⟩
  have := distance_eq_one (E := E) hw.nonneg light heavy
  linarith

/-- A node joins the class of a node that bears a file just when it bears one
itself, and then the two share the class of a child that does. -/
theorem Joins.bears {e : NodeId} (counts : E.Counts h.layout) (hc : h.Consistent)
    (hw : h.Weighted) (dir : (h.node n).type = .dir) (edir : (h.node e).type = .dir)
    (ready : h.ChildrenEvaluated n) (joins : h.Joins E n e c) :
    h.layout.Bears n ↔ h.layout.Bears e := by
  have near : h.distance E n e < 1 := lt_of_lt_of_le joins.near counts.tolerance_le_one
  have eready := hc.children_evaluated joins.equivalent.candidate.2
  constructor
  · intro bears
    obtain ⟨d, -, hd⟩ := hw.shares (Or.inl (bearing_nonempty dir bears ready)) near
    exact bears_of_mem_bearing edir hd
  · intro bears
    obtain ⟨d, hd, -⟩ := hw.shares (Or.inr (bearing_nonempty edir bears eready)) near
    exact bears_of_mem_bearing dir hd

/-! ## Weights -/

/-- What a directory weighs does not shrink while its classes are added up. -/
theorem one_le_foldl (hw : ∀ c, 0 ≤ (h.eqClass c).weight) (l : List ClassId) {start : ℚ}
    (nonneg : 0 ≤ start) (heavy : 1 ≤ start ∨ ∃ c ∈ l, 1 ≤ (h.eqClass c).weight) :
    1 ≤ l.foldl (fun weight c => E.rounding.rnd (weight + (h.eqClass c).weight)) start := by
  induction l generalizing start with
  | nil => simpa using heavy
  | cons c l ih =>
    have := hw c
    apply ih (E.rounding.rnd_nonneg (by linarith))
    rcases heavy with whole | ⟨d, hd, heavy⟩
    · left
      rw [← E.rounding.one]
      exact E.rounding.mono (by linarith)
    · rcases List.mem_cons.mp hd with rfl | hd
      · left
        rw [← E.rounding.one]
        exact E.rounding.mono (by linarith)
      · exact Or.inr ⟨d, hd, heavy⟩

theorem ownWeight_bears (counts : E.Counts h.layout) (hw : h.Weighted)
    (inside : n < h.numNodes) (bears : h.layout.Bears n) (ready : h.ChildrenEvaluated n) :
    1 ≤ h.ownWeight E n := by
  unfold ownWeight
  cases type : (h.node n).type with
  | file =>
    dsimp only
    split
    · rename_i sizing
      have size : 1 ≤ (h.node n).size :=
        (counts.files.resolve_left (by simp [sizing])) n ⟨inside, type⟩
      rw [← E.rounding.one]
      exact E.rounding.mono (by exact_mod_cast size)
    · exact le_refl 1
  | dir =>
    obtain ⟨c, hcn⟩ := bearing_nonempty type bears ready
    apply one_le_foldl hw.nonneg _ (le_refl 0)
    exact Or.inr ⟨c, (E.classOrder.mem _ c).mpr (mem_classList_of_bearing hcn),
      hw.one_le_of_mem_bearing hcn⟩

theorem ownWeight_weightless (hw : h.Weighted) (bears : ¬ h.layout.Bears n) :
    h.ownWeight E n = 0 := by
  unfold ownWeight
  cases type : (h.node n).type with
  | file => exact absurd (bears_file type) bears
  | dir =>
    have light : ∀ c ∈ E.classOrder.visit (h.classList n), (h.eqClass c).weight = 0 := by
      intro c hc
      by_contra heavy
      exact bears (bears_of_mem_bearing type
        (hw.mem_bearing_of_heavy ((E.classOrder.mem _ c).mp hc) heavy))
    dsimp only
    generalize E.classOrder.visit (h.classList n) = l at light
    induction l with
    | nil => rfl
    | cons c l ih =>
      rw [List.foldl_cons, light c List.mem_cons_self, add_zero, E.rounding.zero]
      exact ih fun d hd => light d (List.mem_cons_of_mem c hd)

theorem one_le_newMean {R : Rounding} {count : ℕ} (counts : R.Counts (count + 1)) {old added : ℚ}
    (ho : (count : ℚ) ≤ old * count) (ha : 1 ≤ added) : 1 ≤ newMean R count old added := by
  have members : R.rnd count = count := counts count (Nat.le_succ count)
  have all : R.rnd (count + 1 : ℕ) = (count + 1 : ℕ) := counts _ (Nat.le_refl _)
  have before : (count : ℚ) ≤ R.rnd (old * R.rnd count) := by
    rw [members, ← members]
    exact R.mono (by rwa [members])
  have after : ((count + 1 : ℕ) : ℚ) ≤ R.rnd (R.rnd (old * R.rnd count) + added) := by
    rw [← all]
    apply R.mono
    push_cast
    linarith
  unfold newMean
  rw [← R.one]
  apply R.mono
  rw [all, le_div_iff₀ (by positivity), one_mul]
  exact after

theorem newMean_weightless {R : Rounding} {count : ℕ} (counts : R.Counts (count + 1)) {old : ℚ}
    (ho : old * count = 0) : newMean R count old 0 = 0 := by
  have members : R.rnd count = count := counts count (Nat.le_succ count)
  simp [newMean, members, ho, R.zero]

/-! ## What every move keeps -/

/-- A class that all bear a file, or none, stays one. -/
theorem Placed.weighted (counts : E.Counts h.layout)
    (room : E.rounding.Counts ((h.eqClass c).nodes.length + 1)) (hc : h.Consistent)
    (hw : h.Weighted) (placed : Placed E h c n h') (ready : h.ChildrenEvaluated n)
    (inside : n < h.numNodes)
    (alike : ∀ m, (h.node m).eqClass = some c → (h.layout.Bears m ↔ h.layout.Bears n)) :
    h'.Weighted := by
  have first : ∀ x ∈ (h.eqClass c).nodes, (h.node x).eqClass = some c := fun x hx =>
    (hc.member x c).mpr hx
  have member : ∀ m, (h'.node m).eqClass = some c → (h.layout.Bears m ↔ h.layout.Bears n) := by
    intro m hm
    rw [placed.eqClass] at hm
    split at hm
    · subst m; rfl
    · exact alike m hm
  have other : ∀ {m d}, d ≠ c → (h'.node m).eqClass = some d → (h.node m).eqClass = some d := by
    intro m d hd hm
    rw [placed.eqClass] at hm
    split at hm
    · exact absurd (Option.some.inj hm).symm hd
    · exact hm
  constructor
  · exact placed.nonneg hw.nonneg (ownWeight_nonneg counts.sized hw.nonneg inside)
  · intro m d hm bears
    rw [placed.layout] at bears
    rw [placed.weight]
    by_cases hd : d = c
    · subst hd
      rw [if_pos rfl]
      apply one_le_newMean room
      · cases hn : (h.eqClass d).nodes with
        | nil => simp
        | cons x rest =>
          have hx := first x (by simp [hn])
          have := hw.bears hx ((alike x hx).mpr ((member m hm).mp bears))
          exact le_mul_of_one_le_left (Nat.cast_nonneg _) this
      · exact ownWeight_bears counts hw inside ((member m hm).mp bears) ready
    · rw [if_neg hd]
      exact hw.bears (other hd hm) bears
  · intro m d hm bears
    rw [placed.layout] at bears
    rw [placed.weight]
    by_cases hd : d = c
    · subst hd
      have bears : ¬ h.layout.Bears n := fun hb => bears ((member m hm).mpr hb)
      rw [if_pos rfl, ownWeight_weightless hw bears]
      apply newMean_weightless room
      cases hn : (h.eqClass d).nodes with
      | nil => simp
      | cons x rest =>
        have hx := first x (by simp [hn])
        rw [hw.weightless hx fun hb => bears ((alike x hx).mp hb), zero_mul]
    · rw [if_neg hd]
      exact hw.weightless (other hd hm) bears

theorem Weighted.newClass (hc : h.Consistent) (hw : h.Weighted) : h.newClass.1.Weighted := by
  have weight : ∀ {n c}, (h.node n).eqClass = some c →
      (h.newClass.1.eqClass c).weight = (h.eqClass c).weight := fun hn => by
    rw [newClass_weight, if_neg (Nat.ne_of_lt (hc.known hn))]
  exact ⟨newClass_nonneg hw.nonneg, fun hn bears => weight hn ▸ hw.bears hn bears,
    fun hn bears => weight hn ▸ hw.weightless hn bears⟩

theorem Move.weighted (counts : E.Counts h.layout)
    (room : ∀ n c, n < h.numNodes → ¬ h.IsEvaluated n →
      E.rounding.Counts ((h.eqClass c).nodes.length + 1))
    (tree : h.layout.IsTree root) (hc : h.Consistent) (hw : h.Weighted)
    (move : Move E cksum h h') : h'.Weighted := by
  cases move with
  | newClass => exact hw.newClass hc
  | @leaf n c h' inside leaf fresh known alike all placed =>
    have ready := childrenEvaluated_of_leaf tree leaf
    apply placed.weighted counts (room n c inside fresh) hc hw ready inside
    intro m hm
    rw [bears_of_kind leaf (alike m hm), bears_of_kind leaf rfl]
  | @dir n c h' dir fresh ready leaves settled =>
    obtain ⟨type, nonempty⟩ := kind_eq_dir_iff.mp dir
    obtain ⟨x, hx⟩ := List.exists_mem_of_ne_nil _ nonempty
    have inside := (tree.inside n x hx).1
    cases settled with
    | joined joins placed =>
      apply placed.weighted counts (room n c inside fresh) hc hw ready inside
      intro m hm
      rw [hw.same_bears hm joins.eqClass]
      exact (joins.bears counts hc hw type (joins.equivalent.nonemptyDir tree).1 ready).symm
    | founded _ placed =>
      have room' : E.rounding.Counts ((h.newClass.1.eqClass h.numClasses).nodes.length + 1) := by
        rw [newClass_nodes hc]
        exact room n _ inside fresh
      apply placed.weighted (h := h.newClass.1) counts room' hc.newClass (hw.newClass hc) ready inside
      intro m hm
      exact absurd (hc.known hm) (Nat.lt_irrefl _)

theorem Fresh.weighted (fresh : h.Fresh root) : h.Weighted where
  nonneg := fresh.nonneg
  bears := fun hn => by simp [fresh.unevaluated] at hn
  weightless := fun hn => by simp [fresh.unevaluated] at hn

/-! ## Runs -/

/-- Only nodes of the tree are evaluated. -/
def Inside (h : Heap) : Prop := ∀ n, h.IsEvaluated n → n < h.numNodes

theorem Fresh.inside (fresh : h.Fresh root) : h.Inside := fun n hn => by
  simp [isEvaluated_iff, fresh.unevaluated] at hn

theorem Move.inside (tree : h.layout.IsTree root) (hi : h.Inside) (move : Move E cksum h h') :
    h'.Inside := by
  have grows : ∀ {n}, n < h.numNodes → h'.layout = h.layout →
      (∀ m, h'.IsEvaluated m ↔ m = n ∨ h.IsEvaluated m) → h'.Inside := by
    intro n inside layout evaluated m hm
    rw [numNodes_of_layout layout]
    rcases (evaluated m).mp hm with rfl | hm
    · exact inside
    · exact hi m hm
  cases move with
  | newClass => exact hi
  | leaf inside leaf fresh known alike all placed =>
    exact grows inside placed.layout placed.isEvaluated_iff
  | @dir n c h' dir fresh ready leaves settled =>
    obtain ⟨x, hx⟩ := List.exists_mem_of_ne_nil _ (kind_eq_dir_iff.mp dir).2
    exact grows (tree.inside n x hx).1 settled.layout settled.isEvaluated_iff

/-- A class that a node can still join has fewer members than there are nodes. -/
theorem Consistent.members_lt (hc : h.Consistent) (hi : h.Inside) (inside : n < h.numNodes)
    (fresh : ¬ h.IsEvaluated n) : (h.eqClass c).nodes.length + 1 ≤ h.numNodes := by
  have evaluated : ∀ x ∈ (h.eqClass c).nodes, h.IsEvaluated x := fun _ =>
    hc.evaluated_of_mem
  have nodup : (n :: (h.eqClass c).nodes).Nodup :=
    List.nodup_cons.mpr ⟨fun hn => fresh (evaluated n hn), hc.nodes_nodup c⟩
  have within : (n :: (h.eqClass c).nodes) ⊆ List.range h.numNodes := by
    intro x hx
    rw [List.mem_range]
    rcases List.mem_cons.mp hx with rfl | hx
    · exact inside
    · exact hi x (evaluated x hx)
  simpa using (List.subperm_of_subset nodup within).length_le

theorem Moves.weighted (moves : Moves E cksum h h') (counts : E.Counts h.layout)
    (fresh : h.Fresh root) : h'.Inside ∧ h'.Weighted := by
  apply moves.invariant fresh.tree fresh.consistent ⟨fresh.inside, fresh.weighted⟩
  rintro a b layout hc ⟨hi, hw⟩ move
  have tree : a.layout.IsTree root := layout ▸ fresh.tree
  have counted : ∀ n c, n < a.numNodes → ¬ a.IsEvaluated n →
      E.rounding.Counts ((a.eqClass c).nodes.length + 1) := by
    intro n c inside unevaluated
    apply counts.rounding.mono
    rw [← layout]
    exact hc.members_lt hi inside unevaluated
  exact ⟨move.inside tree hi, move.weighted (layout ▸ counts) counted tree hc hw⟩

end Heap

end Dupa
