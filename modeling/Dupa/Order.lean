import Dupa.Alone
import Dupa.Copies

/-!
# The order of things

Two classifications of one tree may list the children of its directories and
iterate its hash containers in different orders, and a tree where this changes
the classes exists (`order_matters`). It takes directories that are similar but
no copies: files, empty directories and copies end up in the same classes
whatever the order, and if one run puts nothing but copies together then every
run makes the same classes (`classes_agree`).
-/

namespace Dupa

/-- The same tree, with the children of its directories in any order. -/
structure Layout.Reordered (L L' : Layout) : Prop where
  size : L.size = L'.size
  type : ∀ n, (L.entry n).type = (L'.entry n).type
  name : ∀ n, (L.entry n).name = (L'.entry n).name
  bytes : ∀ n, (L.entry n).size = (L'.entry n).size
  parent : ∀ n, (L.entry n).parent = (L'.entry n).parent
  children : ∀ n, (L.children n).Perm (L'.children n)

/-- Only the hash orders may differ. -/
structure Env.SameOptions (E E' : Env) : Prop where
  useSize : E.useSize = E'.useSize
  tolerableDiffPct : E.tolerableDiffPct = E'.tolerableDiffPct
  rounding : E.rounding = E'.rounding

namespace Layout.Reordered

variable {L L' : Layout} {cksum : NodeId → Cksum} {a b n : NodeId} (same : L.Reordered L')
include same

theorem symm : L'.Reordered L :=
  ⟨same.size.symm, fun n => (same.type n).symm, fun n => (same.name n).symm,
    fun n => (same.bytes n).symm, fun n => (same.parent n).symm, fun n => (same.children n).symm⟩

theorem mem : a ∈ L.children n ↔ a ∈ L'.children n := (same.children n).mem_iff

theorem bears : L.Bears n ↔ L'.Bears n := by
  unfold Bears Forest.Below
  simp only [same.mem, same.type]

theorem bearingDir : L.BearingDir n ↔ L'.BearingDir n := by
  rw [BearingDir, BearingDir, same.type, same.bears]

theorem hasFile (k : Cksum) : L.HasFile cksum n k ↔ L'.HasFile cksum n k := by
  unfold HasFile
  simp only [same.mem, same.type]

theorem matching {R : NodeId → NodeId → Prop} (h : L.Matches cksum R) : L'.Matches cksum R where
  files := fun hab k => by
    rw [← same.hasFile, ← same.hasFile]
    exact h.files hab k
  forth := fun hab x hx hd => by
    simp only [← same.mem, ← same.bearingDir] at hx hd ⊢
    exact h.forth hab x hx hd
  back := fun hab y hy hd => by
    simp only [← same.mem, ← same.bearingDir] at hy hd ⊢
    exact h.back hab y hy hd

theorem contentIdentical : L.ContentIdentical cksum a b ↔ L'.ContentIdentical cksum a b :=
  exists_congr fun _ => and_congr_left fun _ => ⟨same.matching, same.symm.matching⟩

theorem kind : L.kind cksum n = L'.kind cksum n := by
  have empty : L.children n = [] ↔ L'.children n = [] := by
    constructor
    · intro h
      exact List.nil_perm.mp (h ▸ same.children n)
    · intro h
      exact List.perm_nil.mp (h ▸ same.children n)
  unfold Layout.kind
  rw [same.type]
  simp only [empty]

theorem isFile : L.IsFile n ↔ L'.IsFile n := by
  rw [IsFile, IsFile, same.size, same.type]

theorem sized {E E' : Env} (options : E.SameOptions E') (sized : E.Sized L) : E'.Sized L' := by
  intro counts n file
  rw [← same.bytes]
  exact sized (options.useSize.trans counts) n (same.isFile.mpr file)

theorem weighs {E E' : Env} (options : E.SameOptions E') (weighs : E.Weighs L) : E'.Weighs L' where
  exact := options.rounding ▸ weighs.exact
  files := by
    rcases weighs.files with counting | sizes
    · exact Or.inl (options.useSize ▸ counting)
    · exact Or.inr fun n hn => same.bytes n ▸ sizes n (same.isFile.mpr hn)
  atMostWhole := options.tolerableDiffPct ▸ weighs.atMostWhole

end Layout.Reordered

namespace Heap

variable {E : Env} {cksum : NodeId → Cksum} {root : NodeId} {h h' : Heap} {a b n c : Nat}

/-! ## Pure heaps -/

theorem sameClass_iff_eq (ha : h.IsEvaluated a) :
    h.SameClass a b ↔ (h.node a).eqClass = (h.node b).eqClass := by
  obtain ⟨c, hc⟩ := isEvaluated_iff.mp ha
  simp [SameClass, hc, eq_comm]

/-- In a pure heap the classes of file-bearing nodes are known from the tree. -/
theorem Pure.sameClass_iff (pure : h.Pure cksum) (steady : h.Steady E cksum root) (tight : h.Tight)
    (ha : h.IsEvaluated a) (hb : h.IsEvaluated b) (bears : h.layout.Bears a)
    (bears' : h.layout.Bears b) :
    h.SameClass a b ↔ h.layout.kind cksum a = h.layout.kind cksum b ∧
      (h.layout.kind cksum a = .dir → h.layout.ContentIdentical cksum a b) := by
  constructor
  · intro same
    obtain ⟨c, hac, hbc⟩ := id same
    have alike := steady.sorted.alike hac hbc
    refine ⟨alike, fun dir => pure a b same ⟨(kind_eq_dir_iff.mp dir).1, bears⟩
      ⟨(kind_eq_dir_iff.mp (alike ▸ dir)).1, bears'⟩⟩
  · rintro ⟨alike, identical⟩
    by_cases dir : h.layout.kind cksum a = .dir
    · exact tight.sameClass steady ha hb ⟨(kind_eq_dir_iff.mp dir).1, bears⟩
        ⟨(kind_eq_dir_iff.mp (alike ▸ dir)).1, bears'⟩ (identical dir)
    · exact (sameClass_iff_eq ha).mpr (steady.sorted.together ha hb alike dir)

/-! ## A pure run shadows every other -/

/-- `H` is a finished pure classification of the tree that `h` is still at, in
another order and so far pure as well. -/
structure Follows (E E' : Env) (cksum : NodeId → Cksum) (root : NodeId) (h H : Heap) : Prop where
  steady : h.Steady E cksum root
  regular : h.Regular E cksum
  pure : h.Pure cksum
  steady' : H.Steady E' cksum root
  regular' : H.Regular E' cksum
  pure' : H.Pure cksum
  all : ∀ n < H.numNodes, H.IsEvaluated n
  same : h.layout.Reordered H.layout
  options : E.SameOptions E'

open Classical in
/-- The class in `H` of the file-bearing members of `c`. -/
noncomputable def translate (h H : Heap) (c : ClassId) : ClassId :=
  if hc : ∃ n, h.layout.Bears n ∧ (h.node n).eqClass = some c then
    ((H.node hc.choose).eqClass).getD 0
  else 0

section
variable {E' : Env} {H : Heap} (follows : Follows E E' cksum root h H)
include follows

theorem Follows.evaluated (ha : h.IsEvaluated a) : H.IsEvaluated a := by
  have size : h.numNodes = H.numNodes := follows.same.size
  exact follows.all a (size ▸ follows.regular.inside a ha)

theorem Follows.sameClass_iff (ha : h.IsEvaluated a) (hb : h.IsEvaluated b)
    (bears : h.layout.Bears a) (bears' : h.layout.Bears b) :
    h.SameClass a b ↔ H.SameClass a b := by
  rw [follows.pure.sameClass_iff follows.steady follows.regular.tight ha hb bears bears',
    follows.pure'.sameClass_iff follows.steady' follows.regular'.tight (follows.evaluated ha)
      (follows.evaluated hb) (follows.same.bears.mp bears) (follows.same.bears.mp bears'),
    follows.same.kind, follows.same.kind, follows.same.contentIdentical]

theorem Follows.translate_eq (bears : h.layout.Bears a) (ha : (h.node a).eqClass = some c) :
    (H.node a).eqClass = some (translate h H c) := by
  have found : ∃ n, h.layout.Bears n ∧ (h.node n).eqClass = some c := ⟨a, bears, ha⟩
  obtain ⟨bears', hb⟩ := found.choose_spec
  have same : h.SameClass a found.choose := ⟨c, ha, hb⟩
  obtain ⟨d, had, hbd⟩ := (follows.sameClass_iff (Heap.evaluated_of_eqClass ha)
    (Heap.evaluated_of_eqClass hb) bears bears').mp same
  rw [had, translate, dif_pos found, hbd]
  rfl

theorem Follows.translate_inj {d : ClassId} (bears : h.layout.Bears a) (bears' : h.layout.Bears b)
    (ha : (h.node a).eqClass = some c) (hb : (h.node b).eqClass = some d)
    (same : translate h H c = translate h H d) : c = d := by
  have hab : H.SameClass a b :=
    ⟨translate h H c, follows.translate_eq bears ha, same ▸ follows.translate_eq bears' hb⟩
  obtain ⟨e, hae, hbe⟩ := (follows.sameClass_iff (Heap.evaluated_of_eqClass ha)
    (Heap.evaluated_of_eqClass hb) bears bears').mpr hab
  rw [ha] at hae
  rw [hb] at hbe
  exact Option.some.inj (hae.trans hbe.symm)

/-- The file-bearing child classes correspond. -/
theorem Follows.bearing (ready : h.ChildrenEvaluated n) (j : ClassId) :
    j ∈ H.bearing n ↔ ∃ c ∈ h.bearing n, translate h H c = j := by
  constructor
  · rintro ⟨x, hx, bears, hxj⟩
    replace hx := follows.same.mem.mpr hx
    replace bears := follows.same.bears.mpr bears
    obtain ⟨c, hxc⟩ := isEvaluated_iff.mp (ready x hx)
    refine ⟨c, ⟨x, hx, bears, hxc⟩, ?_⟩
    exact Option.some.inj ((follows.translate_eq bears hxc).symm.trans hxj)
  · rintro ⟨c, ⟨x, hx, bears, hxc⟩, rfl⟩
    exact ⟨x, follows.same.mem.mp hx, follows.same.bears.mp bears, follows.translate_eq bears hxc⟩

/-- All files of one checksum are in the class, in both heaps. -/
theorem Follows.file_nodes (leaves : ∀ m < h.numNodes, h.layout.kind cksum m ≠ .dir → h.IsEvaluated m)
    (file : (h.node a).type = .file) (ha : (h.node a).eqClass = some c) :
    (h.eqClass c).nodes.Perm (H.eqClass (translate h H c)).nodes := by
  have hc := follows.steady.consistent
  have hC := follows.steady'.consistent
  have hA := follows.translate_eq (bears_file file) ha
  have kind : h.layout.kind cksum a = .file (cksum a) :=
    kind_file cksum ⟨follows.regular.inside a (Heap.evaluated_of_eqClass ha), file⟩
  have leaf : h.layout.kind cksum a ≠ .dir := by simp [kind]
  apply (List.perm_ext_iff_of_nodup (hc.nodes_nodup _) (hC.nodes_nodup _)).mpr
  intro b
  rw [← hc.member, ← hC.member]
  constructor
  · intro hb
    have alike := follows.steady.sorted.alike ha hb
    exact follows.translate_eq (bears_file (type_of_kind (alike ▸ kind))) hb
  · intro hb
    have alike := follows.steady'.sorted.alike hA hb
    rw [← follows.same.kind, ← follows.same.kind] at alike
    have inside : b < h.numNodes := by
      have size : h.numNodes = H.numNodes := follows.same.size
      exact size ▸ follows.regular'.inside b (Heap.evaluated_of_eqClass hb)
    rw [← follows.steady.sorted.together (Heap.evaluated_of_eqClass ha)
      (leaves b inside (alike ▸ leaf)) alike leaf, ha]

/-- Corresponding classes weigh the same, by induction on the tree. -/
theorem Follows.weight (leaves : ∀ m < h.numNodes, h.layout.kind cksum m ≠ .dir → h.IsEvaluated m)
    (bears : h.layout.Bears a) (ha : (h.node a).eqClass = some c) :
    (H.eqClass (translate h H c)).weight = (h.eqClass c).weight := by
  induction a using follows.steady.tree.forest.induction generalizing c with
  | step a ih =>
    have hA := follows.translate_eq bears ha
    cases type : (h.node a).type with
    | file =>
      have perm := follows.file_nodes leaves type ha
      have files : ∀ b ∈ (h.eqClass c).nodes, (h.node b).type = .file := by
        intro b hb
        have alike := follows.steady.sorted.alike ha ((follows.steady.consistent.member b c).mpr hb)
        rw [kind_file cksum ⟨follows.regular.inside a (Heap.evaluated_of_eqClass ha), type⟩]
          at alike
        exact type_of_kind alike.symm
      have mean := follows.regular.averaged c files
      have mean' := follows.regular'.averaged (translate h H c) fun b hb =>
        (follows.same.type b).symm.trans (files b (perm.mem_iff.mpr hb))
      have sizes : ∀ b, ((H.node b).size : ℚ) = (h.node b).size := fun b => by
        exact_mod_cast (follows.same.bytes b).symm
      simp only [sizes, ← follows.options.useSize] at mean'
      rw [← (perm.map _).sum_eq, ← mean, ← perm.length_eq] at mean'
      have member := (follows.steady.consistent.member a c).mp ha
      have count : ((h.eqClass c).nodes.length : ℚ) ≠ 0 := by
        exact_mod_cast Nat.ne_of_gt (List.length_pos_of_mem member)
      exact mul_right_cancel₀ count mean'
    | dir =>
      have hw := follows.steady.weighted
      have hw' := follows.steady'.weighted
      have ready := follows.steady.consistent.children_evaluated (Heap.evaluated_of_eqClass ha)
      have bearingDir : h.layout.BearingDir a := ⟨type, bears⟩
      rw [follows.regular'.even follows.pure' _ a hA (follows.same.bearingDir.mp bearingDir),
        follows.regular.even follows.pure c a ha bearingDir, hw.sum_bearing, hw'.sum_bearing]
      have image : (H.childSet a).filter (fun j => 0 < H.floorWeight j) =
          ((h.childSet a).filter fun d => 0 < h.floorWeight d).image (translate h H) := by
        ext j
        simp only [Finset.mem_filter, Finset.mem_image, ← hw.mem_bearing, ← hw'.mem_bearing]
        exact follows.bearing ready j
      rw [image, Finset.sum_image]
      · apply Finset.sum_congr rfl
        intro d hd
        rw [Finset.mem_filter, ← hw.mem_bearing] at hd
        obtain ⟨x, hx, xbears, hxd⟩ := hd
        exact ih x hx xbears hxd
      · intro d hd e he same
        rw [Finset.mem_coe, Finset.mem_filter, ← hw.mem_bearing] at hd he
        obtain ⟨x, -, xbears, hxd⟩ := hd
        obtain ⟨y, -, ybears, hye⟩ := he
        exact follows.translate_inj xbears ybears hxd hye same

theorem Follows.distance (leaves : ∀ m < h.numNodes, h.layout.kind cksum m ≠ .dir → h.IsEvaluated m)
    (ha : h.ChildrenEvaluated a) (hb : h.ChildrenEvaluated b) :
    H.distance E' a b = h.distance E a b := by
  have hw := follows.steady.weighted
  have hw' := follows.steady'.weighted
  have items : ∀ {x}, h.ChildrenEvaluated x → ∀ j, j ∈ H.childSet x ∧ 0 < H.floorWeight j ↔
      ∃ k ∈ h.childSet x, 0 < h.floorWeight k ∧ translate h H k = j := by
    intro x ready j
    rw [← hw'.mem_bearing, follows.bearing ready]
    simp only [hw.mem_bearing, and_assoc]
  have member : ∀ k ∈ h.childSet a ∪ h.childSet b, 0 < h.floorWeight k →
      ∃ x, h.layout.Bears x ∧ (h.node x).eqClass = some k := by
    intro k hk heavy
    rcases Finset.mem_union.mp hk with hk | hk
    · obtain ⟨x, -, bears, hx⟩ := hw.mem_bearing.mpr ⟨hk, heavy⟩
      exact ⟨x, bears, hx⟩
    · obtain ⟨x, -, bears, hx⟩ := hw.mem_bearing.mpr ⟨hk, heavy⟩
      exact ⟨x, bears, hx⟩
  rw [distance_exact follows.steady'.weighs.exact hw'.nonneg,
    distance_exact follows.steady.weighs.exact hw.nonneg]
  refine Jaccard.dist_congr (translate h H) ?_ ?_ (items ha) (items hb)
  · intro k hk l hl heavy heavy' same
    obtain ⟨x, xbears, hx⟩ := member k hk heavy
    obtain ⟨y, ybears, hy⟩ := member l hl heavy'
    exact follows.translate_inj xbears ybears hx hy same
  · intro k hk heavy
    obtain ⟨x, xbears, hx⟩ := member k hk heavy
    rw [floorWeight, follows.weight leaves xbears hx, floorWeight]

/-- The other run stays pure: what it would join without being a copy, the
finished one has out of tolerance. -/
theorem Follows.move (move : Move E cksum h h') : h'.Pure cksum := by
  have ⟨tree, weighs, hc, hs, hw⟩ := follows.steady
  have tolerance : E'.tolerance = E.tolerance := by
    rw [Env.tolerance_exact follows.steady'.weighs.exact, Env.tolerance_exact weighs.exact,
      follows.options.tolerableDiffPct]
  rcases move.cases_added follows.steady with rfl | ⟨n, c, added, reason⟩
  · exact follows.pure
  -- What the new node joins is a copy of it, and so are all the members.
  have joined : ∀ b, (h.node b).eqClass = some c → h.layout.BearingDir n → h.layout.BearingDir b →
      h.layout.ContentIdentical cksum n b := by
    intro b hb hn hdb
    cases reason with
    | leaf leaf _ => exact absurd (kind_of_bearingDir hn) leaf
    | founded _ _ _ empty =>
      have := (hc.member b c).mp hb
      simp [empty] at this
    | @joined e _ leaves joins =>
      have eeval := joins.equivalent.candidate.2
      have he := follows.steady.bearingDir hdb ⟨c, hb, joins.eqClass⟩
      refine Layout.ContentIdentical.trans ?_ (follows.pure e b ⟨c, joins.eqClass, hb⟩ he hdb)
      by_contra different
      rw [follows.same.contentIdentical] at different
      have size : h.numNodes = H.numNodes := follows.same.size
      have inside : n < H.numNodes := size ▸ added.inside
      have out := follows.regular'.apart follows.pure' n e (follows.all n inside)
        (follows.evaluated eeval) (follows.same.bearingDir.mp hn) (follows.same.bearingDir.mp he)
        different
      rw [follows.distance leaves added.ready (hc.children_evaluated eeval), tolerance] at out
      have := joins.near
      linarith
  rintro a b ⟨d, ha, hb⟩ hda hdb
  rw [added.layout] at hda hdb ⊢
  rw [added.eqClass] at ha hb
  split at ha <;> split at hb
  · subst a; subst b; exact Layout.ContentIdentical.refl _
  · subst a
    obtain rfl := Option.some.inj ha
    exact joined b hb hda hdb
  · subst b
    obtain rfl := Option.some.inj hb
    exact (joined a ha hdb hda).symm
  · exact follows.pure a b ⟨d, ha, hb⟩ hda hdb

end

/-! ## Every order -/

/-- A pure classification of a tree makes every other one of it pure. -/
theorem pure_everywhere {E' : Env} {h₀ h₀' H : Heap} (options : E.SameOptions E')
    (positive : 1 ≤ E.tolerableDiffPct) (fresh : h₀.Fresh root) (fresh' : h₀'.Fresh root)
    (same : h₀.layout.Reordered h₀'.layout) (weighs : E.Weighs h₀.layout)
    (moves : Moves E cksum h₀ h) (moves' : Moves E' cksum h₀' H)
    (all : ∀ n < H.numNodes, H.IsEvaluated n) (pure : H.Pure cksum) :
    Follows E E' cksum root h H := by
  have positive' : 1 ≤ E'.tolerableDiffPct := options.tolerableDiffPct ▸ positive
  obtain ⟨steady', regular'⟩ := Moves.keep (fresh'.steady (same.weighs options weighs))
    (fun steady regular move => move.regular positive' steady regular) fresh'.regular moves'
  have layout' := Moves.layout moves'
  have start : h₀.layout = h₀.layout ∧ h₀.Regular E cksum ∧ h₀.Pure cksum := by
    refine ⟨rfl, fresh.regular, ?_⟩
    rintro a b ⟨c, ha, -⟩
    simp [fresh.unevaluated] at ha
  have step : ∀ {a b : Heap}, a.Steady E cksum root →
      a.layout = h₀.layout ∧ a.Regular E cksum ∧ a.Pure cksum → Move E cksum a b →
      b.layout = h₀.layout ∧ b.Regular E cksum ∧ b.Pure cksum := by
    rintro a b steady ⟨layout, regular, pure'⟩ move
    have follows : Follows E E' cksum root a H :=
      ⟨steady, regular, pure', steady', regular', pure, all, layout' ▸ layout ▸ same, options⟩
    exact ⟨move.layout.trans layout, move.regular positive steady regular, follows.move move⟩
  obtain ⟨steady, layout, regular, pure'⟩ := Moves.keep (fresh.steady weighs) step start moves
  exact ⟨steady, regular, pure', steady', regular', pure, all, layout' ▸ layout ▸ same, options⟩

end Heap

open Heap in
/-- What two classifications of one tree in different orders agree on. -/
theorem classes_agree (E E' : Env) (cksum : NodeId → Cksum) {h h' : Heap} {root : NodeId}
    {sums sums' : Sum2Node} (options : E.SameOptions E') (same : h.layout.Reordered h'.layout)
    (fresh : h.Fresh root) (fresh' : h'.Fresh root) (holds : sums.Holds h.layout cksum)
    (holds' : sums'.Holds h'.layout cksum) :
    (E.rounding = .exact → E.Sized h.layout → ∃ result result',
      classify E h root sums = .ok result ∧ classify E' h' root sums' = .ok result') ∧
    ∀ g eqClasses g' eqClasses', classify E h root sums = .ok (g, eqClasses) →
      classify E' h' root sums' = .ok (g', eqClasses') →
      (∀ a b, a < h.numNodes → b < h.numNodes → h.layout.kind cksum a ≠ .dir →
        (g.SameClass a b ↔ g'.SameClass a b)) ∧
      (E.tolerableDiffPct ≤ 0 → ∀ a b, a < h.numNodes → b < h.numNodes →
        (g.SameClass a b ↔ g'.SameClass a b)) ∧
      (E.Weighs h.layout → 1 ≤ E.tolerableDiffPct → g'.Pure cksum →
        ∀ a b, a < h.numNodes → b < h.numNodes → h.layout.Bears a → h.layout.Bears b →
          (g.SameClass a b ↔ g'.SameClass a b)) := by
  refine ⟨fun exact sized => ?_, fun g eqClasses g' eqClasses' run run' => ?_⟩
  · obtain ⟨g, eqClasses, run, -⟩ := Propagation.classify_exact exact fresh holds sized
    obtain ⟨g', eqClasses', run', -⟩ := Propagation.classify_exact (options.rounding ▸ exact) fresh'
      holds' (same.sized options sized)
    exact ⟨_, _, run, run'⟩
  have done := Propagation.of_classify fresh holds run
  have done' := Propagation.of_classify fresh' holds' run'
  have size : h.numNodes = h'.numNodes := same.size
  have evaluated : ∀ {a}, a < h.numNodes → g.IsEvaluated a := fun ha => (done.evaluated _).mpr ha
  have evaluated' : ∀ {a}, a < h.numNodes → g'.IsEvaluated a := fun ha =>
    (done'.evaluated _).mpr (size ▸ ha)
  have sorted := done.moves.sorted fresh.tree fresh.consistent fresh.sorted
  have sorted' := done'.moves.sorted fresh'.tree fresh'.consistent fresh'.sorted
  have leaf : ∀ a b, a < h.numNodes → b < h.numNodes → h.layout.kind cksum a ≠ .dir →
      (g.SameClass a b ↔ g'.SameClass a b) := by
    intro a b ha hb leaf
    rw [sameClass_iff_eq (evaluated ha), sameClass_iff_eq (evaluated' ha)]
    have kind : h.layout.kind cksum a = h'.layout.kind cksum a := same.kind
    constructor
    · intro hab
      refine done'.together sorted' (size ▸ ha) (size ▸ hb) ?_ (kind ▸ leaf)
      rw [← same.kind, ← same.kind]
      exact done.alike sorted ha hab
    · intro hab
      refine done.together sorted ha hb ?_ leaf
      rw [same.kind, same.kind]
      exact done'.alike sorted' (size ▸ ha) hab
  refine ⟨leaf, fun never a b ha hb => ?_, fun weighs positive pure a b ha hb bears bears' => ?_⟩
  · by_cases dir : h.layout.kind cksum a = .dir
    · have alone := done.moves.alone never fresh
      have alone' := done'.moves.alone (options.tolerableDiffPct ▸ never) fresh'
      have self : ∀ {H : Heap}, H.IsEvaluated a → H.SameClass a a := fun he => by
        obtain ⟨c, hc⟩ := isEvaluated_iff.mp he
        exact ⟨c, hc, hc⟩
      constructor
      · intro hab
        obtain rfl := alone a b hab (done.moves.layout ▸ dir)
        exact self (evaluated' ha)
      · intro hab
        rw [same.kind] at dir
        obtain rfl := alone' a b hab (done'.moves.layout ▸ dir)
        exact self (evaluated ha)
    · exact leaf a b ha hb dir
  · have size' : g'.numNodes = h'.numNodes := numNodes_of_layout done'.moves.layout
    have follows := pure_everywhere options positive fresh fresh' same weighs done.moves done'.moves
      (fun n hn => (done'.evaluated n).mpr (size' ▸ hn)) pure
    exact follows.sameClass_iff (evaluated ha) (evaluated hb) (done.moves.layout ▸ bears)
      (done.moves.layout ▸ bears')

/-! ## Two trees -/

/-- The lists give the same nodes but for the order of their children. -/
def IsReordering (entries entries' : List Entry) : Prop :=
  entries.length = entries'.length ∧ ∀ n < entries.length,
    { Heap.entryAt entries n with children := [] } =
      { Heap.entryAt entries' n with children := [] } ∧
    (Heap.entryAt entries n).children.Perm (Heap.entryAt entries' n).children

instance (entries entries' : List Entry) : Decidable (IsReordering entries entries') :=
  inferInstanceAs (Decidable (_ ∧ ∀ n < _, _))

theorem IsReordering.reordered {entries entries' : List Entry} (h : IsReordering entries entries') :
    (Heap.ofEntries entries).layout.Reordered (Heap.ofEntries entries').layout := by
  obtain ⟨length, each⟩ := h
  have all (n : NodeId) : { Heap.entryAt entries n with children := [] } =
      { Heap.entryAt entries' n with children := [] } ∧
      (Heap.entryAt entries n).children.Perm (Heap.entryAt entries' n).children := by
    by_cases hn : n < entries.length
    · exact each n hn
    · rw [Heap.entryAt_of_le (not_lt.mp hn), Heap.entryAt_of_le (length ▸ not_lt.mp hn)]
      exact ⟨rfl, .refl _⟩
  have entry (n : NodeId) := Entry.mk.inj (all n).1
  exact ⟨length, fun n => (entry n).1, fun n => (entry n).2.1, fun n => (entry n).2.2.1,
    fun n => (entry n).2.2.2.1, fun n => (all n).2⟩

/-- The small tree with the children of its root the other way round. -/
def twinsBack : List Entry := ⟨.dir, "r", 0, none, [3, 2, 1]⟩ :: twins.tail

theorem twinsBack_fresh : (Heap.ofEntries twinsBack).Fresh 0 := Heap.ofEntries_fresh (by decide)

theorem twinsBack_holds : twinSums.Holds (Heap.ofEntries twinsBack).layout fun _ => 7 :=
  Sum2Node.holds_of_groups (by decide) (by decide) (by decide)

/-- The two directories with one file each are copies. -/
theorem twinsBack_identical {a b : NodeId} (ha : a = 1 ∨ a = 2) (hb : b = 1 ∨ b = 2) :
    (Heap.ofEntries twinsBack).layout.ContentIdentical (fun _ => 7) a b := by
  have file : ∀ {n}, n = 1 ∨ n = 2 → ∀ k,
      (Heap.ofEntries twinsBack).layout.HasFile (fun _ => 7) n k ↔ 7 = k := by
    rintro n (rfl | rfl) k
    · exact ⟨fun ⟨_, _, _, hk⟩ => hk, fun hk => ⟨4, by decide, rfl, hk⟩⟩
    · exact ⟨fun ⟨_, _, _, hk⟩ => hk, fun hk => ⟨5, by decide, rfl, hk⟩⟩
  have files : ∀ {n}, n = 1 ∨ n = 2 → ∀ x ∈ (Heap.ofEntries twinsBack).layout.children n,
      ((Heap.ofEntries twinsBack).layout.entry x).type = .file := by
    rintro n (rfl | rfl) <;> decide
  exact Layout.contentIdentical_of_files (files ha) (files hb) fun k => by rw [file ha, file hb]

/-- Which of the six nodes share a class. -/
theorem twinsBack_classes :
    (List.range 6).map (classAfter (classify (.counting 10) (.ofEntries twinsBack) 0 twinSums)) =
      [some 3, some 2, some 2, some 1, some 0, some 0] := by
  decide +kernel

theorem classes_agree_twins :
    ∃ g eqClasses g' eqClasses', classify (.counting 10) (.ofEntries twins) 0 twinSums =
        .ok (g, eqClasses) ∧
      classify (.counting 10) (.ofEntries twinsBack) 0 twinSums = .ok (g', eqClasses') ∧
      g'.SameClass 1 2 ∧ g.SameClass 1 2 := by
  obtain ⟨returns, agree⟩ :=
    classes_agree (.counting 10) (.counting 10) (fun _ => 7) ⟨rfl, rfl, rfl⟩
      (IsReordering.reordered (by decide : IsReordering twins twinsBack)) twins_fresh
      twinsBack_fresh twins_holds twinsBack_holds
  obtain ⟨⟨g, eqClasses⟩, ⟨g', eqClasses'⟩, run, run'⟩ := returns rfl (Env.counting_sized 10 _)
  obtain ⟨-, -, copies⟩ := agree g eqClasses g' eqClasses' run run'
  have done := Propagation.of_classify twinsBack_fresh twinsBack_holds run'
  have classes := twinsBack_classes
  rw [run'] at classes
  obtain ⟨h0, h1, h2, h3, h4, h5, -⟩ : (g'.node 0).eqClass = some 3 ∧ (g'.node 1).eqClass = some 2 ∧
      (g'.node 2).eqClass = some 2 ∧ (g'.node 3).eqClass = some 1 ∧ (g'.node 4).eqClass = some 0 ∧
      (g'.node 5).eqClass = some 0 ∧ True := by
    simpa [List.range, List.range.loop, classAfter] using classes
  have layout := done.moves.layout
  have pure : g'.Pure fun _ => 7 := by
    rintro a b ⟨c, ha, hb⟩ ⟨dira, -⟩ ⟨dirb, -⟩
    rw [layout] at dira dirb ⊢
    have dir : ∀ {n d}, (g'.node n).eqClass = some d → (Heap.entryAt twinsBack n).type = .dir →
        n ∈ [0, 1, 2, 3] := by
      intro n d hn
      have table : ∀ n < 6, (Heap.entryAt twinsBack n).type = .dir → n ∈ [0, 1, 2, 3] := by decide
      exact table n ((done.evaluated n).mp (Heap.evaluated_of_eqClass hn))
    have alike : ∀ a ∈ [0, 1, 2, 3], ∀ b ∈ [0, 1, 2, 3], (g'.node a).eqClass = (g'.node b).eqClass →
        a = b ∨ (a = 1 ∨ a = 2) ∧ (b = 1 ∨ b = 2) := by
      simp [h0, h1, h2, h3]
    rcases alike a (dir ha dira) b (dir hb dirb) (ha.trans hb.symm) with rfl | ⟨ha, hb⟩
    · exact .refl a
    · exact twinsBack_identical ha hb
  have bears : ∀ {n x}, x ∈ (Heap.ofEntries twins).layout.children n →
      (Heap.entryAt twins x).type = .file → (Heap.ofEntries twins).layout.Bears n :=
    fun hx file => ⟨_, Forest.below_child (Forest.below_refl _) hx, file⟩
  have together : g'.SameClass 1 2 := ⟨2, h1, h2⟩
  refine ⟨g, eqClasses, g', eqClasses', run, run', together, ?_⟩
  exact (copies ⟨rfl, Or.inl rfl, by decide⟩ (by decide) pure 1 2 (by decide) (by decide)
    (bears (x := 4) (by decide) rfl) (bears (x := 5) (by decide) rfl)).mpr together

/-- Directory 2 has the files 1, 2 and 3, directory 1 the first two of them and
directory 3 the last two. -/
def similar (children : List NodeId) : List Entry :=
  [⟨.dir, "r", 0, none, children⟩, ⟨.dir, "a", 0, some 0, [4, 5]⟩,
    ⟨.dir, "b", 0, some 0, [6, 7, 8]⟩, ⟨.dir, "c", 0, some 0, [9, 10]⟩,
    ⟨.file, "x", 1, some 1, []⟩, ⟨.file, "y", 1, some 1, []⟩,
    ⟨.file, "x", 1, some 2, []⟩, ⟨.file, "y", 1, some 2, []⟩, ⟨.file, "z", 1, some 2, []⟩,
    ⟨.file, "y", 1, some 3, []⟩, ⟨.file, "z", 1, some 3, []⟩]

def similarSums : Sum2Node := ⟨[(1, [4, 6]), (2, [5, 7, 9]), (3, [8, 10])], by decide, by decide⟩

def similarCksum (n : NodeId) : Cksum :=
  if n = 4 ∨ n = 6 then 1 else if n = 8 ∨ n = 10 then 3 else 2

/-- With the outer directories first they stay apart, with the inner one first
all three come together. -/
theorem similar_classes :
    (classAfter (classify (.counting 50) (.ofEntries (similar [1, 3, 2])) 0 similarSums) 1 = some 4 ∧
      classAfter (classify (.counting 50) (.ofEntries (similar [1, 3, 2])) 0 similarSums) 3 =
        some 5) ∧
    classAfter (classify (.counting 50) (.ofEntries (similar [2, 1, 3])) 0 similarSums) 1 = some 4 ∧
      classAfter (classify (.counting 50) (.ofEntries (similar [2, 1, 3])) 0 similarSums) 3 =
        some 4 := by
  decide +kernel

theorem order_matters :
    ¬ ∀ (E E' : Env) (cksum : NodeId → Cksum) (h h' : Heap) (root : NodeId) (sums sums' : Sum2Node),
      E.SameOptions E' → h.layout.Reordered h'.layout → h.Fresh root → h'.Fresh root →
      sums.Holds h.layout cksum → sums'.Holds h'.layout cksum →
      ∀ g eqClasses g' eqClasses', classify E h root sums = .ok (g, eqClasses) →
        classify E' h' root sums' = .ok (g', eqClasses') →
        ∀ a b, a < h.numNodes → b < h.numNodes → (g.SameClass a b ↔ g'.SameClass a b) := by
  intro claim
  have fresh : (Heap.ofEntries (similar [1, 3, 2])).Fresh 0 := Heap.ofEntries_fresh (by decide)
  have fresh' : (Heap.ofEntries (similar [2, 1, 3])).Fresh 0 := Heap.ofEntries_fresh (by decide)
  have holds : similarSums.Holds (Heap.ofEntries (similar [1, 3, 2])).layout similarCksum :=
    Sum2Node.holds_of_groups (by decide) (by decide) (by decide)
  have holds' : similarSums.Holds (Heap.ofEntries (similar [2, 1, 3])).layout similarCksum :=
    Sum2Node.holds_of_groups (by decide) (by decide) (by decide)
  obtain ⟨g, _, run, -⟩ := Propagation.classify_exact (E := .counting 50) rfl fresh holds
    (Env.counting_sized 50 _)
  obtain ⟨g', _, run', -⟩ := Propagation.classify_exact (E := .counting 50) rfl fresh' holds'
    (Env.counting_sized 50 _)
  obtain ⟨⟨apart, apart'⟩, close, close'⟩ := similar_classes
  simp only [run, run', classAfter] at apart apart' close close'
  have together : g'.SameClass 1 3 := ⟨4, close, close'⟩
  obtain ⟨c, h1, h3⟩ := (claim _ _ _ _ _ _ _ _ ⟨rfl, rfl, rfl⟩
    (IsReordering.reordered (by decide)) fresh fresh' holds holds' _ _ _ _ run run' 1 3
    (by decide) (by decide)).mpr together
  rw [apart] at h1
  rw [apart'] at h3
  exact absurd (h1.trans h3.symm) (by decide)

end Dupa
