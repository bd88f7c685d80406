import Dupa.DirCompare

/-!
# Reports up to the order of candidates

Candidates are named in the order in which their files were found, and nothing else of a
report depends on that order (`dirCompare_sorted`). So a report that is known up to the
order of its candidates tells as much as the report itself.
-/

namespace Dupa

variable {K : Type} [LinearOrder K]

def sortedPaths (ps : List K) : List K := ps.insertionSort (· ≤ ·)

theorem sortedPaths_perm (ps : List K) : (sortedPaths ps).Perm ps := List.perm_insertionSort _ ps

theorem sortedPaths_eq_iff {ps qs : List K} : sortedPaths ps = sortedPaths qs ↔ ps.Perm qs := by
  constructor
  · intro same
    exact (sortedPaths_perm ps).symm.trans (same ▸ sortedPaths_perm qs)
  · intro perm
    exact ((sortedPaths_perm ps).trans (perm.trans (sortedPaths_perm qs).symm)).eq_of_pairwise'
      (List.pairwise_insertionSort _ _) (List.pairwise_insertionSort _ _)

@[simp] theorem mem_sortedPaths {p : K} {ps : List K} : p ∈ sortedPaths ps ↔ p ∈ ps :=
  (sortedPaths_perm ps).mem_iff

omit [LinearOrder K] in
theorem eq_nil_iff_of_perm {ps qs : List K} (perm : ps.Perm qs) : ps = [] ↔ qs = [] := by
  rw [← List.length_eq_zero_iff, perm.length_eq, List.length_eq_zero_iff]

theorem sortedPaths_eq_nil {ps : List K} : sortedPaths ps = [] ↔ ps = [] :=
  eq_nil_iff_of_perm (sortedPaths_perm ps)

namespace Event

/-- The same call with its candidates sorted. -/
def sorted : Event K → Event K
  | overwrittenBy f candidates => overwrittenBy f (sortedPaths candidates)
  | copiedFrom f candidates => copiedFrom f (sortedPaths candidates)
  | renameTo f candidates => renameTo f (sortedPaths candidates)
  | contentChanged f => contentChanged f
  | removed f => removed f
  | newFile f => newFile f

@[simp] theorem sorted_subject (e : Event K) : e.sorted.subject = e.subject := by cases e <;> rfl

variable {events : List (Event K)} {f : K} {cs : List K}

theorem overwrittenBy_mem_sorted : overwrittenBy f cs ∈ events.map sorted ↔
    ∃ ds, overwrittenBy f ds ∈ events ∧ sortedPaths ds = cs := by
  simp only [List.mem_map]
  grind [sorted, cases Event]

theorem copiedFrom_mem_sorted : copiedFrom f cs ∈ events.map sorted ↔
    ∃ ds, copiedFrom f ds ∈ events ∧ sortedPaths ds = cs := by
  simp only [List.mem_map]
  grind [sorted, cases Event]

theorem renameTo_mem_sorted : renameTo f cs ∈ events.map sorted ↔
    ∃ ds, renameTo f ds ∈ events ∧ sortedPaths ds = cs := by
  simp only [List.mem_map]
  grind [sorted, cases Event]

theorem contentChanged_mem_sorted :
    contentChanged f ∈ events.map sorted ↔ contentChanged f ∈ events := by
  simp only [List.mem_map]
  grind [sorted, cases Event]

theorem removed_mem_sorted : removed f ∈ events.map sorted ↔ removed f ∈ events := by
  simp only [List.mem_map]
  grind [sorted, cases Event]

theorem newFile_mem_sorted : newFile f ∈ events.map sorted ↔ newFile f ∈ events := by
  simp only [List.mem_map]
  grind [sorted, cases Event]

end Event

section
variable {m1 m2 m1' m2' : PathHashes K} {events events' : List (Event K)}

theorem untold_sorted {p : K} : Untold (events.map Event.sorted) p ↔ Untold events p := by
  simp only [Untold, Event.overwrittenBy_mem_sorted, Event.copiedFrom_mem_sorted,
    Event.contentChanged_mem_sorted, Event.newFile_mem_sorted]
  simp

theorem Explains.sorted (h : Explains m1 m2 events) : Explains m1 m2 (events.map Event.sorted) where
  subjects := by
    have same : (events.map Event.sorted).map Event.subject = events.map Event.subject := by simp
    exact same ▸ h.subjects
  present := by
    intro p
    rw [h.present p]
    simp only [Event.renameTo_mem_sorted, Event.removed_mem_sorted, Event.copiedFrom_mem_sorted,
      Event.newFile_mem_sorted]
    grind [mem_sortedPaths]
  copied := by
    intro p hash cs hp told
    rw [Event.overwrittenBy_mem_sorted, Event.copiedFrom_mem_sorted] at told
    obtain ⟨ds, named, rfl⟩ : ∃ ds, (.overwrittenBy p ds ∈ events ∨ .copiedFrom p ds ∈ events) ∧
        sortedPaths ds = cs := by grind
    obtain ⟨ne, source⟩ := h.copied p hash ds hp named
    exact ⟨mt sortedPaths_eq_nil.mp ne, fun c hc => source c (mem_sortedPaths.mp hc)⟩
  unseen := by
    intro p hash hp told
    rw [Event.contentChanged_mem_sorted, Event.newFile_mem_sorted] at told
    exact h.unseen p hash hp told
  unchanged := by
    intro p hash h1 hp untold
    exact h.unchanged p hash h1 hp (untold_sorted.mp untold)
  renamed := by
    intro p hash hp untold gone q cs hq hc
    obtain ⟨ds, named, rfl⟩ := Event.renameTo_mem_sorted.mp hq
    exact h.renamed p hash hp (untold_sorted.mp untold) gone q ds named (mem_sortedPaths.mp hc)

/-- Two second maps that the same events explain, up to the order of their candidates. -/
theorem Explains.determined_sorted (h : Explains m1 m2 events) (h' : Explains m1 m2' events')
    (same : ∀ e, e ∈ events.map Event.sorted ↔ e ∈ events'.map Event.sorted) {p : K}
    (changed : .contentChanged p ∉ events) (new : .newFile p ∉ events) : m2.find p = m2'.find p := by
  apply h.sorted.determined h'.sorted same
  · rwa [Event.contentChanged_mem_sorted]
  · rwa [Event.newFile_mem_sorted]

/-! ## The paths that are named -/

/-- The candidates of a call that names candidates. -/
def Event.candidates : Event K → Option (List K)
  | overwrittenBy _ cs | copiedFrom _ cs | renameTo _ cs => some cs
  | contentChanged _ | removed _ | newFile _ => none

variable {skipRenames : Bool} {e : Event K}

theorem subject_known (he : e ∈ dirCompare skipRenames m1 m2) :
    (m1.find e.subject).isSome ∨ (m2.find e.subject).isSome := by
  rcases mem_dirCompare.mp he with ⟨p, h, hp, he⟩ | ⟨p, h, hp, he⟩
  · have same : e.subject ∈ [p] := (compareFirst_subject (p, h)).subset (List.mem_map_of_mem he)
    exact Or.inl (by simp [List.mem_singleton.mp same, hp])
  · have same : e.subject ∈ [p] := (compareSecond_subject (p, h)).subset (List.mem_map_of_mem he)
    exact Or.inr (by simp [List.mem_singleton.mp same, hp])

omit [LinearOrder K] in
theorem PathHashes.getPathsForHash_nodup (m : PathHashes K) (hash : Cksum) :
    (m.getPathsForHash hash).Nodup :=
  (List.filter_sublist.map Prod.fst).nodup m.distinct

/-- Candidates are files with the content in question, of one of the two directories. -/
theorem candidates_known (he : e ∈ dirCompare skipRenames m1 m2) {cs : List K}
    (hcs : e.candidates = some cs) :
    cs ≠ [] ∧ ∃ h, cs.Sublist (m1.getPathsForHash h) ∨ cs.Sublist (m2.getPathsForHash h) := by
  cases e with
  | overwrittenBy f _ =>
    obtain ⟨_, h, -, -, -, ne, rfl⟩ := overwrittenBy_mem.mp he
    cases hcs
    exact ⟨ne, h, Or.inl (List.Sublist.refl _)⟩
  | copiedFrom f _ =>
    obtain ⟨h, -, -, ne, rfl⟩ := copiedFrom_mem.mp he
    cases hcs
    exact ⟨ne, h, Or.inl List.filter_sublist⟩
  | renameTo f _ =>
    obtain ⟨-, h, -, -, ne, rfl⟩ := renameTo_mem.mp he
    cases hcs
    exact ⟨ne, h, Or.inr (List.Sublist.refl _)⟩
  | contentChanged | removed | newFile => cases hcs

theorem candidates_nodup (he : e ∈ dirCompare skipRenames m1 m2) {cs : List K}
    (hcs : e.candidates = some cs) : cs.Nodup := by
  obtain ⟨-, h, sub | sub⟩ := candidates_known he hcs
  · exact sub.nodup (PathHashes.getPathsForHash_nodup m1 h)
  · exact sub.nodup (PathHashes.getPathsForHash_nodup m2 h)

theorem candidate_known (he : e ∈ dirCompare skipRenames m1 m2) {cs : List K}
    (hcs : e.candidates = some cs) {c : K} (hc : c ∈ cs) :
    (m1.find c).isSome ∨ (m2.find c).isSome := by
  obtain ⟨-, h, sub | sub⟩ := candidates_known he hcs
  · exact Or.inl (by simp [PathHashes.mem_getPathsForHash.mp (sub.subset hc)])
  · exact Or.inr (by simp [PathHashes.mem_getPathsForHash.mp (sub.subset hc)])

/-! ## The order in which files were found -/

theorem PathHashes.byPath_congr (same : ∀ p, m1.find p = m1'.find p) : m1.byPath = m1'.byPath := by
  have perm : m1.byPath.Perm m1'.byPath := by
    rw [List.perm_ext_iff_of_nodup m1.byPath_nodup.of_map m1'.byPath_nodup.of_map]
    intro entry
    rw [mem_byPath, mem_byPath, same]
  have ordered (m : PathHashes K) : m.byPath.Pairwise fun a b => a.1 ≤ b.1 :=
    List.pairwise_insertionSort _ _
  refine perm.eq_of_pairwise (fun a b ha hb hab hba => ?_) (ordered m1) (ordered m1')
  have path : a.1 = b.1 := le_antisymm hab hba
  have hash : some a.2 = some b.2 := by
    rw [← mem_byPath.mp ha, ← mem_byPath.mp hb, same, path]
  exact Prod.ext path (Option.some.inj hash)

theorem PathHashes.getPathsForHash_congr (same : ∀ p, m1.find p = m1'.find p) (hash : Cksum) :
    (m1.getPathsForHash hash).Perm (m1'.getPathsForHash hash) := by
  rw [List.perm_ext_iff_of_nodup (getPathsForHash_nodup m1 hash) (getPathsForHash_nodup m1' hash)]
  simp [same]

theorem compareFirst_congr (same1 : ∀ p, m1.find p = m1'.find p)
    (same2 : ∀ p, m2.find p = m2'.find p) (entry : K × Cksum) :
    (compareFirst skipRenames m1 m2 entry).map Event.sorted =
      (compareFirst skipRenames m1' m2' entry).map Event.sorted := by
  obtain ⟨p, h⟩ := entry
  rw [compareFirst, compareFirst, same2]
  cases m2'.find p with
  | some h2 =>
    have perm := PathHashes.getPathsForHash_congr same1 h2
    simp only [ne_eq, eq_nil_iff_of_perm perm]
    split_ifs <;> simp [Event.sorted, sortedPaths_eq_iff.mpr perm]
  | none =>
    have perm := PathHashes.getPathsForHash_congr same2 h
    simp only [ne_eq, eq_nil_iff_of_perm perm]
    split_ifs <;> simp [Event.sorted, sortedPaths_eq_iff.mpr perm]

theorem compareSecond_congr (same1 : ∀ p, m1.find p = m1'.find p)
    (same2 : ∀ p, m2.find p = m2'.find p) (entry : K × Cksum) :
    (compareSecond m1 m2 entry).map Event.sorted =
      (compareSecond m1' m2' entry).map Event.sorted := by
  obtain ⟨p, h⟩ := entry
  rw [compareSecond, compareSecond, same1]
  cases m1'.find p with
  | some h1 => rfl
  | none =>
    have perm := PathHashes.getPathsForHash_congr same1 h
    have kept := perm.filter fun c => (m2'.find c).isSome
    simp only [same2, ne_eq, eq_nil_iff_of_perm perm, eq_nil_iff_of_perm kept]
    split_ifs <;> simp [Event.sorted, sortedPaths_eq_iff.mpr kept]

/-- What is reported does not depend on the order in which the files were found, except
that the candidates of a call do. -/
theorem dirCompare_sorted (same1 : ∀ p, m1.find p = m1'.find p)
    (same2 : ∀ p, m2.find p = m2'.find p) :
    (dirCompare skipRenames m1 m2).map Event.sorted =
      (dirCompare skipRenames m1' m2').map Event.sorted := by
  rw [dirCompare, dirCompare, PathHashes.byPath_congr same1, PathHashes.byPath_congr same2]
  simp only [List.map_append, List.map_flatMap, compareFirst_congr same1 same2,
    compareSecond_congr same1 same2]

end

end Dupa
