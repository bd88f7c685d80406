import Dupa.Weights

/-!
# Directories of the same content

`ContentIdentical` ignores names, repeated copies and file-less directories. In
exact arithmetic, file-bearing directories whose children have the same
file-bearing classes share a class throughout every run (`Tight`), and by
induction on the height so do content-identical ones
(`content_identical_together`).
-/

namespace Dupa

namespace Layout

/-- A subdirectory with a file somewhere below it. -/
def BearingDir (L : Layout) (n : NodeId) : Prop := (L.entry n).type = .dir ∧ L.Bears n

/-- Some file directly in `n` has the checksum `k`. -/
def HasFile (L : Layout) (cksum : NodeId → Cksum) (n : NodeId) (k : Cksum) : Prop :=
  ∃ x ∈ L.children n, (L.entry x).type = .file ∧ cksum x = k

/-- A relation that matches files by checksum and file-bearing subdirectories by
itself. -/
structure Matches (L : Layout) (cksum : NodeId → Cksum) (R : NodeId → NodeId → Prop) : Prop where
  files : ∀ {a b}, R a b → ∀ k, L.HasFile cksum a k ↔ L.HasFile cksum b k
  forth : ∀ {a b}, R a b → ∀ x ∈ L.children a, L.BearingDir x →
    ∃ y ∈ L.children b, L.BearingDir y ∧ R x y
  back : ∀ {a b}, R a b → ∀ y ∈ L.children b, L.BearingDir y →
    ∃ x ∈ L.children a, L.BearingDir x ∧ R x y

def ContentIdentical (L : Layout) (cksum : NodeId → Cksum) (a b : NodeId) : Prop :=
  ∃ R, L.Matches cksum R ∧ R a b

variable {L : Layout} {cksum : NodeId → Cksum} {a b c : NodeId}

/-- Being content-identical matches by itself. -/
theorem contentIdentical_matches : L.Matches cksum (L.ContentIdentical cksum) where
  files := fun ⟨_, matching, hab⟩ => matching.files hab
  forth := fun ⟨R, matching, hab⟩ x hx hd => by
    obtain ⟨y, hy, hyd, hxy⟩ := matching.forth hab x hx hd
    exact ⟨y, hy, hyd, R, matching, hxy⟩
  back := fun ⟨R, matching, hab⟩ y hy hd => by
    obtain ⟨x, hx, hxd, hxy⟩ := matching.back hab y hy hd
    exact ⟨x, hx, hxd, R, matching, hxy⟩

theorem ContentIdentical.refl (a : NodeId) : L.ContentIdentical cksum a a :=
  ⟨Eq, ⟨by rintro _ _ rfl k; rfl, by rintro _ _ rfl x hx hd; exact ⟨x, hx, hd, rfl⟩,
    by rintro _ _ rfl x hx hd; exact ⟨x, hx, hd, rfl⟩⟩, rfl⟩

theorem ContentIdentical.symm (h : L.ContentIdentical cksum a b) : L.ContentIdentical cksum b a := by
  obtain ⟨R, matching, hab⟩ := h
  exact ⟨fun x y => R y x, ⟨fun h k => (matching.files h k).symm, matching.back, matching.forth⟩, hab⟩

theorem ContentIdentical.trans (h : L.ContentIdentical cksum a b)
    (h' : L.ContentIdentical cksum b c) : L.ContentIdentical cksum a c := by
  refine ⟨fun x z => ∃ y, L.ContentIdentical cksum x y ∧ L.ContentIdentical cksum y z,
    ⟨?_, ?_, ?_⟩, b, h, h'⟩
  · rintro x z ⟨y, hxy, hyz⟩ k
    exact (contentIdentical_matches.files hxy k).trans (contentIdentical_matches.files hyz k)
  · rintro x z ⟨y, hxy, hyz⟩ u hu hd
    obtain ⟨v, hv, hvd, huv⟩ := contentIdentical_matches.forth hxy u hu hd
    obtain ⟨w, hw, hwd, hvw⟩ := contentIdentical_matches.forth hyz v hv hvd
    exact ⟨w, hw, hwd, v, huv, hvw⟩
  · rintro x z ⟨y, hxy, hyz⟩ w hw hd
    obtain ⟨v, hv, hvd, hvw⟩ := contentIdentical_matches.back hyz w hw hd
    obtain ⟨u, hu, hud, huv⟩ := contentIdentical_matches.back hxy v hv hvd
    exact ⟨u, hu, hud, v, huv, hvw⟩

/-- Directories of files only are copies if they have files of the same checksums. -/
theorem contentIdentical_of_files (ha : ∀ x ∈ L.children a, (L.entry x).type = .file)
    (hb : ∀ x ∈ L.children b, (L.entry x).type = .file)
    (same : ∀ k, L.HasFile cksum a k ↔ L.HasFile cksum b k) : L.ContentIdentical cksum a b := by
  have flat : ∀ {n}, (∀ x ∈ L.children n, (L.entry x).type = .file) →
      ∀ x ∈ L.children n, ¬L.BearingDir x := by
    intro n files x hx dir
    exact absurd ((files x hx).symm.trans dir.1) (by simp)
  refine ⟨fun x y => x = a ∧ y = b, ⟨?_, ?_, ?_⟩, rfl, rfl⟩
  · rintro _ _ ⟨rfl, rfl⟩ k
    exact same k
  · rintro _ _ ⟨rfl, rfl⟩ x hx dir
    exact absurd dir (flat ha x hx)
  · rintro _ _ ⟨rfl, rfl⟩ y hy dir
    exact absurd dir (flat hb y hy)

end Layout

namespace Heap

def SameClass (h : Heap) (a b : NodeId) : Prop :=
  ∃ c, (h.node a).eqClass = some c ∧ (h.node b).eqClass = some c

/-- Evaluated file-bearing directories share a class as soon as their children
have the same file-bearing classes. -/
def Tight (h : Heap) : Prop :=
  ∀ a b, h.IsEvaluated a → h.IsEvaluated b → h.layout.BearingDir a → h.layout.BearingDir b →
    h.bearing a = h.bearing b → h.SameClass a b

variable {E : Env} {cksum : NodeId → Cksum} {root : NodeId} {h h' : Heap} {a b n c : Nat}

theorem kind_of_bearingDir (hn : h.layout.BearingDir n) : h.layout.kind cksum n = .dir := by
  obtain ⟨x, hx, -⟩ := (bears_dir hn.1).mp hn.2
  exact kind_eq_dir_iff.mpr ⟨hn.1, List.ne_nil_of_mem hx⟩

theorem SameClass.symm (hab : h.SameClass a b) : h.SameClass b a := by
  obtain ⟨c, ha, hb⟩ := hab
  exact ⟨c, hb, ha⟩

theorem Added.sameClass (added : Added E h n c h') (same : h.SameClass a b) : h'.SameClass a b := by
  obtain ⟨d, ha, hb⟩ := same
  exact ⟨d, (added.eqClass_of_evaluated (Heap.evaluated_of_eqClass ha)).trans ha,
    (added.eqClass_of_evaluated (Heap.evaluated_of_eqClass hb)).trans hb⟩

/-- A new node that is together with every old one of its file-bearing child
classes keeps the heap tight. -/
theorem Added.tight (hc : h.Consistent) (tight : h.Tight) (added : Added E h n c h')
    (join : h.layout.BearingDir n → ∀ b, h.IsEvaluated b → h.layout.BearingDir b →
      h.bearing n = h.bearing b → (h.node b).eqClass = some c) : h'.Tight := by
  have new : (h'.node n).eqClass = some c := by rw [added.eqClass, if_pos rfl]
  have old {m : NodeId} (hm : h.IsEvaluated m) : h.ChildrenEvaluated m := hc.children_evaluated hm
  intro a b ha hb hda hdb same
  rw [added.layout] at hda hdb
  rcases added.isEvaluated_iff.mp ha with rfl | ha <;> rcases added.isEvaluated_iff.mp hb with rfl | hb
  · exact ⟨c, new, new⟩
  · rw [added.bearing added.ready, added.bearing (old hb)] at same
    exact ⟨c, new, (added.eqClass_of_evaluated hb).trans (join hda b hb hdb same)⟩
  · rw [added.bearing added.ready, added.bearing (old ha)] at same
    exact ⟨c, (added.eqClass_of_evaluated ha).trans (join hdb a ha hda same.symm), new⟩
  · rw [added.bearing (old ha), added.bearing (old hb)] at same
    exact added.sameClass (tight a b ha hb hda hdb same)

theorem tolerance_pos (weighs : E.Weighs h.layout) (positive : 1 ≤ E.tolerableDiffPct) :
    0 < E.tolerance := by
  rw [Env.tolerance_exact weighs.exact]
  have : (1 : ℚ) ≤ E.tolerableDiffPct := by exact_mod_cast positive
  positivity

theorem Move.tight (positive : 1 ≤ E.tolerableDiffPct) (steady : h.Steady E cksum root)
    (tight : h.Tight) (move : Move E cksum h h') : h'.Tight := by
  have ⟨tree, weighs, hc, hs, hw⟩ := steady
  rcases move.cases_added steady with rfl | ⟨n, c, added, reason⟩
  · exact tight
  apply added.tight hc tight
  intro bearingDir b hb hdb same
  have ready := bearing_nonempty bearingDir.1 bearingDir.2 added.ready
  have equivalent : h.Equivalent n b := by
    apply equivalent_of_bearing hc added.fresh hb
    rwa [← same, Set.inter_self]
  have zero : h.distance E n b = 0 := (hw.distance_eq_zero_iff weighs).mpr same
  cases reason with
  | leaf leaf _ => exact absurd (kind_of_bearingDir bearingDir) leaf
  | @joined e _ _ joins =>
    -- The nearest equivalent is at distance zero as well, so it is together with `b`.
    have nearest := joins.nearest b equivalent
    have nonneg : 0 ≤ h.distance E n e := by
      rw [distance_exact weighs.exact hw.nonneg]
      exact Jaccard.dist_nonneg
    have same' := (hw.distance_eq_zero_iff weighs).mp (le_antisymm (zero ▸ nearest) nonneg)
    have edir := (joins.equivalent.nonemptyDir tree).1
    have ebears := (joins.bears weighs.counts hc hw bearingDir.1 edir added.ready).mp bearingDir.2
    obtain ⟨d, hbd, hed⟩ := tight b e hb joins.equivalent.candidate.2 hdb ⟨edir, ebears⟩
      (same.symm.trans same')
    rw [joins.eqClass] at hed
    rw [hbd, hed]
  | founded _ _ apart _ =>
    have := apart b equivalent
    have := tolerance_pos weighs positive
    linarith

theorem Fresh.tight (fresh : h.Fresh root) : h.Tight :=
  fun a _ ha => absurd ha (fresh.not_evaluated a)

/-- In a tight heap the children of content-identical directories have the same
file-bearing classes, by induction on the tree. -/
theorem Tight.bearing_eq (steady : h.Steady E cksum root) (tight : h.Tight)
    (ha : h.ChildrenEvaluated a) (hb : h.ChildrenEvaluated b)
    (identical : h.layout.ContentIdentical cksum a b) : h.bearing a = h.bearing b := by
  have ⟨tree, _, hc, hs, _⟩ := steady
  induction a using tree.forest.induction generalizing b with
  | step a ih =>
    have half : ∀ {a' b'}, a' = a ∨ b' = a →
        h.ChildrenEvaluated a' → h.ChildrenEvaluated b' → h.layout.ContentIdentical cksum a' b' →
        h.bearing a' ⊆ h.bearing b' := by
      rintro a' b' low ha' hb' identical c ⟨x, hx, bears, hxc⟩
      have hxe := ha' x hx
      cases type : (h.node x).type with
      | file =>
        obtain ⟨y, hy, file, same⟩ :=
          (Layout.contentIdentical_matches.files identical (cksum x)).mp ⟨x, hx, type, rfl⟩
        have kx := kind_file cksum (L := h.layout) ⟨(tree.inside a' x hx).2, type⟩
        have ky := kind_file cksum (L := h.layout) ⟨(tree.inside b' y hy).2, file⟩
        refine ⟨y, hy, bears_file file, ?_⟩
        rw [← hs.together hxe (hb' y hy) (by rw [kx, ky, same]) (by simp [kx]), hxc]
      | dir =>
        obtain ⟨y, hy, hyd, hxy⟩ := Layout.contentIdentical_matches.forth identical x hx ⟨type, bears⟩
        have hye := hb' y hy
        have same : h.bearing x = h.bearing y := by
          have hxr := hc.children_evaluated hxe
          have hyr := hc.children_evaluated hye
          rcases low with rfl | rfl
          · exact ih x hx hxr hyr hxy
          · exact (ih y hy hyr hxr hxy.symm).symm
        obtain ⟨d, hxd, hyc⟩ := tight x y hxe hye ⟨type, bears⟩ hyd same
        rw [hxc] at hxd
        exact ⟨y, hy, hyd.2, hyc.trans hxd.symm⟩
    exact Set.Subset.antisymm (half (Or.inl rfl) ha hb identical)
      (half (Or.inr rfl) hb ha identical.symm)

theorem Tight.sameClass (steady : h.Steady E cksum root) (tight : h.Tight)
    (ha : h.IsEvaluated a) (hb : h.IsEvaluated b) (hda : h.layout.BearingDir a)
    (hdb : h.layout.BearingDir b) (identical : h.layout.ContentIdentical cksum a b) :
    h.SameClass a b :=
  tight a b ha hb hda hdb (tight.bearing_eq steady (steady.consistent.children_evaluated ha)
    (steady.consistent.children_evaluated hb) identical)

end Heap

/-- Content-identical file-bearing directories end up in one class. -/
theorem content_identical_together (E : Env) (cksum : NodeId → Cksum) {h : Heap} {root : NodeId}
    {sum2Node : Sum2Node} (fresh : h.Fresh root) (holds : sum2Node.Holds h.layout cksum)
    (weighs : E.Weighs h.layout) (positive : 1 ≤ E.tolerableDiffPct) :
    ∃ h' eqClasses, classify E h root sum2Node = .ok (h', eqClasses) ∧
      ∀ a b, a < h.numNodes → b < h.numNodes → h.layout.BearingDir a → h.layout.BearingDir b →
        h.layout.ContentIdentical cksum a b → h'.SameClass a b := by
  obtain ⟨h', eqClasses, run, done⟩ := Propagation.classify_exact weighs.exact fresh holds
    weighs.counts.sized
  refine ⟨h', eqClasses, run, fun a b ha hb hda hdb identical => ?_⟩
  obtain ⟨steady, tight⟩ := Heap.Moves.keep (fresh.steady weighs)
    (fun steady tight move => move.tight positive steady tight) fresh.tight done.moves
  have layout := done.moves.layout
  exact tight.sameClass steady ((done.evaluated a).mpr ha) ((done.evaluated b).mpr hb)
    (layout ▸ hda) (layout ▸ hdb) (layout ▸ identical)

theorem content_identical_together_twins :
    ∃ h' eqClasses, classify (.counting 10) (.ofEntries twins) 0 twinSums = .ok (h', eqClasses) ∧
      ∀ a b, a < 6 → b < 6 → (Heap.ofEntries twins).layout.BearingDir a →
        (Heap.ofEntries twins).layout.BearingDir b →
        (Heap.ofEntries twins).layout.ContentIdentical (fun _ => 7) a b → h'.SameClass a b :=
  content_identical_together _ _ twins_fresh twins_holds ⟨rfl, Or.inl rfl, by decide⟩ (by decide)

end Dupa
