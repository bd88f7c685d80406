import Mathlib.Data.List.Nodup
import Mathlib.Data.List.Sort
import Mathlib.Data.String.Basic
import Dupa.Library.Assoc
import Dupa.Path

/-!
# Comparing two directories

Each directory is a map from relative paths to checksums. `dirCompare` lists what
could have turned the first map into the second one, and the list says all there
is to say about the second map but for contents never seen in the first
(`dirCompare_describes`).
-/

namespace Dupa

/-- `PathHash`es by path and by hash, in the order of their insertion. -/
structure PathHashes (K : Type) where
  entries : List (K × Cksum)
  distinct : (entries.map Prod.fst).Nodup

namespace PathHashes

variable {K : Type} [LinearOrder K] {m : PathHashes K} {p : K} {h : Cksum}

def find (m : PathHashes K) (p : K) : Option Cksum := m.entries.lookup p

/-- The order in which the index `ByPath` is iterated. -/
def byPath (m : PathHashes K) : List (K × Cksum) := m.entries.insertionSort fun a b => a.1 ≤ b.1

/-- `GetPathsForHash`. -/
def getPathsForHash (m : PathHashes K) (hash : Cksum) : List K :=
  (m.entries.filter fun entry => entry.2 = hash).map Prod.fst

theorem mem_entries : (p, h) ∈ m.entries ↔ m.find p = some h := Assoc.mem_iff_lookup m.distinct

@[simp] theorem mem_byPath {entry : K × Cksum} :
    entry ∈ m.byPath ↔ m.find entry.1 = some entry.2 := by
  rw [byPath, List.mem_insertionSort, ← mem_entries]

@[simp] theorem mem_getPathsForHash : p ∈ m.getPathsForHash h ↔ m.find p = some h := by
  simp [getPathsForHash, mem_entries]

theorem getPathsForHash_eq_nil : m.getPathsForHash h = [] ↔ ∀ p, m.find p ≠ some h := by
  simp [List.eq_nil_iff_forall_not_mem]

theorem byPath_nodup (m : PathHashes K) : (m.byPath.map Prod.fst).Nodup :=
  ((List.perm_insertionSort _ _).map Prod.fst).nodup_iff.mpr m.distinct

end PathHashes

/-- A call to a `CompareOutputStream`. -/
inductive Event (K : Type) where
  | overwrittenBy (f : K) (candidates : List K)
  | copiedFrom (f : K) (candidates : List K)
  | renameTo (f : K) (candidates : List K)
  | contentChanged (f : K)
  | removed (f : K)
  | newFile (f : K)
  deriving DecidableEq

def Event.subject {K : Type} : Event K → K
  | overwrittenBy f _ => f
  | copiedFrom f _ => f
  | renameTo f _ => f
  | contentChanged f => f
  | removed f => f
  | newFile f => f

section
variable {K : Type} [LinearOrder K]

/-- One turn of the loop over the first directory. -/
def compareFirst (skipRenames : Bool) (hashes1 hashes2 : PathHashes K) (entry : K × Cksum) :
    List (Event K) :=
  let (p1, h1) := entry
  match hashes2.find p1 with
  | some h2 =>
    if h1 = h2 then []
    else
      let ps := hashes1.getPathsForHash h2
      if ps ≠ [] then [.overwrittenBy p1 ps] else [.contentChanged p1]
  | none =>
    let ps := hashes2.getPathsForHash h1
    if ps ≠ [] then
      if skipRenames then [] else [.renameTo p1 ps]
    else [.removed p1]

/-- One turn of the loop over the second directory. -/
def compareSecond (hashes1 hashes2 : PathHashes K) (entry : K × Cksum) : List (Event K) :=
  let (p2, h2) := entry
  match hashes1.find p2 with
  | some _ => []
  | none =>
    let ps := hashes1.getPathsForHash h2
    if ps ≠ [] then
      -- Other candidates have been named as the source of a rename.
      let ps2 := ps.filter fun copyCandidate => (hashes2.find copyCandidate).isSome
      if ps2 ≠ [] then [.copiedFrom p2 ps2] else []
    else [.newFile p2]

/-- The calls `DirCompare` makes to its stream. -/
def dirCompare (skipRenames : Bool) (hashes1 hashes2 : PathHashes K) : List (Event K) :=
  hashes1.byPath.flatMap (compareFirst skipRenames hashes1 hashes2) ++
    hashes2.byPath.flatMap (compareSecond hashes1 hashes2)

/-! ## What each event says -/

variable {skipRenames : Bool} {m1 m2 m2' : PathHashes K} {f p : K} {h : Cksum} {cs : List K}

theorem mem_dirCompare {e : Event K} : e ∈ dirCompare skipRenames m1 m2 ↔
    (∃ p h, m1.find p = some h ∧ e ∈ compareFirst skipRenames m1 m2 (p, h)) ∨
      ∃ p h, m2.find p = some h ∧ e ∈ compareSecond m1 m2 (p, h) := by
  simp [dirCompare, List.mem_flatMap]

theorem mem_compareFirst {e : Event K} : e ∈ compareFirst skipRenames m1 m2 (p, h) ↔
    (∃ h2, m2.find p = some h2 ∧ h ≠ h2 ∧ m1.getPathsForHash h2 ≠ [] ∧
      e = .overwrittenBy p (m1.getPathsForHash h2)) ∨
    (∃ h2, m2.find p = some h2 ∧ h ≠ h2 ∧ m1.getPathsForHash h2 = [] ∧ e = .contentChanged p) ∨
    (m2.find p = none ∧ m2.getPathsForHash h ≠ [] ∧ skipRenames = false ∧
      e = .renameTo p (m2.getPathsForHash h)) ∨
    (m2.find p = none ∧ m2.getPathsForHash h = [] ∧ e = .removed p) := by
  rw [compareFirst]
  grind

theorem mem_compareSecond {e : Event K} : e ∈ compareSecond m1 m2 (p, h) ↔
    (m1.find p = none ∧ ((m1.getPathsForHash h).filter fun c => (m2.find c).isSome) ≠ [] ∧
      e = .copiedFrom p ((m1.getPathsForHash h).filter fun c => (m2.find c).isSome)) ∨
    (m1.find p = none ∧ m1.getPathsForHash h = [] ∧ e = .newFile p) := by
  rw [compareSecond]
  grind

theorem overwrittenBy_mem : .overwrittenBy f cs ∈ dirCompare skipRenames m1 m2 ↔
    ∃ h1 h2, m1.find f = some h1 ∧ m2.find f = some h2 ∧ h1 ≠ h2 ∧ cs ≠ [] ∧
      cs = m1.getPathsForHash h2 := by
  simp only [mem_dirCompare, mem_compareFirst, mem_compareSecond]
  grind

theorem contentChanged_mem : .contentChanged f ∈ dirCompare skipRenames m1 m2 ↔
    ∃ h1 h2, m1.find f = some h1 ∧ m2.find f = some h2 ∧ h1 ≠ h2 ∧ m1.getPathsForHash h2 = [] := by
  simp only [mem_dirCompare, mem_compareFirst, mem_compareSecond]
  grind

theorem renameTo_mem : .renameTo f cs ∈ dirCompare skipRenames m1 m2 ↔
    skipRenames = false ∧ ∃ h, m1.find f = some h ∧ m2.find f = none ∧ cs ≠ [] ∧
      cs = m2.getPathsForHash h := by
  simp only [mem_dirCompare, mem_compareFirst, mem_compareSecond]
  grind

theorem removed_mem : .removed f ∈ dirCompare skipRenames m1 m2 ↔
    ∃ h, m1.find f = some h ∧ m2.find f = none ∧ m2.getPathsForHash h = [] := by
  simp only [mem_dirCompare, mem_compareFirst, mem_compareSecond]
  grind

theorem copiedFrom_mem : .copiedFrom f cs ∈ dirCompare skipRenames m1 m2 ↔
    ∃ h, m1.find f = none ∧ m2.find f = some h ∧ cs ≠ [] ∧
      cs = (m1.getPathsForHash h).filter fun c => (m2.find c).isSome := by
  simp only [mem_dirCompare, mem_compareFirst, mem_compareSecond]
  grind

theorem newFile_mem : .newFile f ∈ dirCompare skipRenames m1 m2 ↔
    ∃ h, m1.find f = none ∧ m2.find f = some h ∧ m1.getPathsForHash h = [] := by
  simp only [mem_dirCompare, mem_compareFirst, mem_compareSecond]
  grind

/-! ## Subjects -/

omit [LinearOrder K] in
theorem subjects_sublist (loop : K × Cksum → List (Event K)) (entries : List (K × Cksum))
    (one : ∀ entry, ((loop entry).map Event.subject).Sublist [entry.1]) :
    ((entries.flatMap loop).map Event.subject).Sublist (entries.map Prod.fst) := by
  induction entries with
  | nil => exact List.Sublist.slnil
  | cons entry rest ih =>
    rw [List.flatMap_cons, List.map_append, List.map_cons, ← List.singleton_append]
    exact (one entry).append ih

theorem compareFirst_subject (entry : K × Cksum) :
    ((compareFirst skipRenames m1 m2 entry).map Event.subject).Sublist [entry.1] := by
  simp only [compareFirst]
  split
  · split_ifs <;> simp [Event.subject]
  · split_ifs <;> simp [Event.subject]

theorem compareSecond_subject (entry : K × Cksum) :
    ((compareSecond m1 m2 entry).map Event.subject).Sublist [entry.1] := by
  simp only [compareSecond]
  split
  · simp
  · split_ifs <;> simp [Event.subject]

theorem compareSecond_new {e : Event K} (he : e ∈ compareSecond m1 m2 (p, h)) :
    m1.find e.subject = none := by
  rcases mem_compareSecond.mp he with ⟨new, -, rfl⟩ | ⟨new, -, rfl⟩ <;> exact new

theorem subjects_nodup : ((dirCompare skipRenames m1 m2).map Event.subject).Nodup := by
  have first := subjects_sublist (compareFirst skipRenames m1 m2) m1.byPath compareFirst_subject
  have second := subjects_sublist (compareSecond m1 m2) m2.byPath compareSecond_subject
  rw [dirCompare, List.map_append, List.nodup_append]
  refine ⟨first.nodup m1.byPath_nodup, second.nodup m2.byPath_nodup, ?_⟩
  rintro p hp _ hq rfl
  obtain ⟨⟨p', h⟩, old, rfl⟩ := List.mem_map.mp (first.subset hp)
  obtain ⟨e, he, same⟩ := List.mem_map.mp hq
  obtain ⟨entry, -, he⟩ := List.mem_flatMap.mp he
  have new := compareSecond_new he
  rw [same] at new
  simp [PathHashes.mem_byPath.mp old] at new

/-! ## The second map -/

/-- No event says where the content of `p` comes from. -/
def Untold (events : List (Event K)) (p : K) : Prop :=
  (∀ cs, .overwrittenBy p cs ∉ events) ∧ (∀ cs, .copiedFrom p cs ∉ events) ∧
    .contentChanged p ∉ events ∧ .newFile p ∉ events

/-- With the first map, the events give the second one away. -/
structure Explains (m1 m2 : PathHashes K) (events : List (Event K)) : Prop where
  subjects : (events.map Event.subject).Nodup
  present : ∀ p, (m2.find p).isSome ↔
    ((m1.find p).isSome ∧ (∀ cs, .renameTo p cs ∉ events) ∧ .removed p ∉ events) ∨
      (∃ cs, .copiedFrom p cs ∈ events) ∨ .newFile p ∈ events ∨
      ∃ q cs, .renameTo q cs ∈ events ∧ p ∈ cs
  copied : ∀ p h cs, m2.find p = some h →
    .overwrittenBy p cs ∈ events ∨ .copiedFrom p cs ∈ events →
      cs ≠ [] ∧ ∀ c ∈ cs, m1.find c = some h
  unseen : ∀ p h, m2.find p = some h → .contentChanged p ∈ events ∨ .newFile p ∈ events →
    ∀ q, m1.find q ≠ some h
  unchanged : ∀ p h h1, m2.find p = some h → Untold events p → m1.find p = some h1 → h1 = h
  renamed : ∀ p h, m2.find p = some h → Untold events p → m1.find p = none →
    ∀ q cs, .renameTo q cs ∈ events → p ∈ cs → m1.find q = some h

section
variable {m1 m2 : PathHashes K} {p : K} {h : Cksum}

/-- A path of the second side only is a copy, new or the target of a rename. -/
theorem new_told (absent : m1.find p = none) (there : m2.find p = some h) :
    (∃ cs, .copiedFrom p cs ∈ dirCompare false m1 m2) ∨ .newFile p ∈ dirCompare false m1 m2 ∨
      ∃ q cs, .renameTo q cs ∈ dirCompare false m1 m2 ∧ p ∈ cs := by
  by_cases seen : m1.getPathsForHash h = []
  · exact Or.inr (Or.inl (newFile_mem.mpr ⟨h, absent, there, seen⟩))
  by_cases kept : (m1.getPathsForHash h).filter (fun c => (m2.find c).isSome) = []
  · -- Every source is gone, and the first loop has named this path for each.
    obtain ⟨c, hc⟩ := List.exists_mem_of_ne_nil _ seen
    have gone : m2.find c = none := by
      simpa using List.filter_eq_nil_iff.mp kept c hc
    have candidate : p ∈ m2.getPathsForHash h := PathHashes.mem_getPathsForHash.mpr there
    refine Or.inr (Or.inr ⟨c, m2.getPathsForHash h, renameTo_mem.mpr ⟨rfl, h, ?_, gone,
      List.ne_nil_of_mem candidate, rfl⟩, candidate⟩)
    exact PathHashes.mem_getPathsForHash.mp hc
  · exact Or.inl ⟨_, copiedFrom_mem.mpr ⟨h, absent, there, kept, rfl⟩⟩

/-- A path of the first side only is removed or renamed. -/
theorem lost_told (there : m1.find p = some h) (gone : m2.find p = none) :
    .removed p ∈ dirCompare false m1 m2 ∨ ∃ cs, .renameTo p cs ∈ dirCompare false m1 m2 := by
  by_cases moved : m2.getPathsForHash h = []
  · exact Or.inl (removed_mem.mpr ⟨h, there, gone, moved⟩)
  · exact Or.inr ⟨_, renameTo_mem.mpr ⟨rfl, h, there, gone, moved, rfl⟩⟩

end

theorem explains (m1 m2 : PathHashes K) : Explains m1 m2 (dirCompare false m1 m2) where
  subjects := subjects_nodup
  present := by
    intro p
    constructor
    · intro there
      obtain ⟨h, hp⟩ := Option.isSome_iff_exists.mp there
      cases hp1 : m1.find p with
      | some h1 =>
        refine Or.inl ⟨rfl, fun cs hr => ?_, fun hr => ?_⟩
        · obtain ⟨-, _, -, gone, -⟩ := renameTo_mem.mp hr
          simp [gone] at hp
        · obtain ⟨_, -, gone, -⟩ := removed_mem.mp hr
          simp [gone] at hp
      | none => exact Or.inr (new_told hp1 hp)
    · rintro (⟨old, notRenamed, notRemoved⟩ | ⟨cs, hr⟩ | hr | ⟨q, cs, hr, hp⟩)
      · obtain ⟨h1, hp1⟩ := Option.isSome_iff_exists.mp old
        by_contra gone
        have gone : m2.find p = none := by simpa using gone
        rcases lost_told hp1 gone with removed | ⟨cs, renamed⟩
        · exact notRemoved removed
        · exact notRenamed cs renamed
      · obtain ⟨h, -, there, -⟩ := copiedFrom_mem.mp hr
        simp [there]
      · obtain ⟨h, -, there, -⟩ := newFile_mem.mp hr
        simp [there]
      · obtain ⟨-, h, -, -, -, rfl⟩ := renameTo_mem.mp hr
        simp [PathHashes.mem_getPathsForHash.mp hp]
  copied := by
    intro p h cs hp
    rw [overwrittenBy_mem, copiedFrom_mem]
    rintro (⟨h1, h2, -, there, -, ne, rfl⟩ | ⟨h2, -, there, ne, rfl⟩)
    · obtain rfl := Option.some.inj (there.symm.trans hp)
      exact ⟨ne, fun c hc => PathHashes.mem_getPathsForHash.mp hc⟩
    · obtain rfl := Option.some.inj (there.symm.trans hp)
      exact ⟨ne, fun c hc => PathHashes.mem_getPathsForHash.mp (List.mem_filter.mp hc).1⟩
  unseen := by
    intro p h hp
    rw [contentChanged_mem, newFile_mem]
    rintro (⟨h1, h2, -, there, -, none⟩ | ⟨h2, -, there, none⟩)
    · obtain rfl := Option.some.inj (there.symm.trans hp)
      exact PathHashes.getPathsForHash_eq_nil.mp none
    · obtain rfl := Option.some.inj (there.symm.trans hp)
      exact PathHashes.getPathsForHash_eq_nil.mp none
  unchanged := by
    rintro p h h1 hp ⟨overwritten, -, changed, -⟩ hp1
    by_contra ne
    by_cases seen : m1.getPathsForHash h = []
    · exact changed (contentChanged_mem.mpr ⟨h1, h, hp1, hp, ne, seen⟩)
    · exact overwritten _ (overwrittenBy_mem.mpr ⟨h1, h, hp1, hp, ne, seen, rfl⟩)
  renamed := by
    rintro p h hp - - q cs hq hc
    obtain ⟨-, hash, there, -, -, rfl⟩ := renameTo_mem.mp hq
    obtain rfl := Option.some.inj (hp.symm.trans (PathHashes.mem_getPathsForHash.mp hc))
    exact there

namespace Explains

variable {events events' : List (Event K)}

theorem find_eq_of_nil (h : Explains m1 m2 []) (p : K) : m1.find p = m2.find p := by
  have present := h.present p
  have unchanged := h.unchanged p
  have untold : Untold ([] : List (Event K)) p := by simp [Untold]
  have same : (m2.find p).isSome ↔ (m1.find p).isSome := by simpa using present
  cases hp2 : m2.find p with
  | none => simpa [hp2] using same
  | some h2 =>
    obtain ⟨h1, hp1⟩ := Option.isSome_iff_exists.mp (same.mp (by simp [hp2]))
    rw [hp1, unchanged h2 h1 hp2 untold hp1]

/-- Two second maps that the same events explain agree but on unseen contents. -/
theorem determined (h : Explains m1 m2 events) (h' : Explains m1 m2' events')
    (same : ∀ e, e ∈ events ↔ e ∈ events') {p : K}
    (changed : .contentChanged p ∉ events) (new : .newFile p ∉ events) :
    m2.find p = m2'.find p := by
  have there : (m2.find p).isSome ↔ (m2'.find p).isSome := by
    rw [h.present p, h'.present p]
    simp only [same]
  cases hp : m2.find p with
  | none => exact (by simpa [hp] using there : m2'.find p = none).symm
  | some x =>
    obtain ⟨y, hp'⟩ := Option.isSome_iff_exists.mp (there.mp (by simp [hp]))
    rw [hp']
    congr 1
    by_cases told : ∃ cs, .overwrittenBy p cs ∈ events ∨ .copiedFrom p cs ∈ events
    · obtain ⟨cs, told⟩ := told
      obtain ⟨ne, source⟩ := h.copied p x cs hp told
      obtain ⟨c, hc⟩ := List.exists_mem_of_ne_nil cs ne
      have source' := (h'.copied p y cs hp' (told.imp (same _).mp (same _).mp)).2 c hc
      exact Option.some.inj ((source c hc).symm.trans source')
    · rw [not_exists] at told
      have untold : Untold events p :=
        ⟨fun cs hc => told cs (Or.inl hc), fun cs hc => told cs (Or.inr hc), changed, new⟩
      have untold' : Untold events' p := by simpa only [Untold, same] using untold
      cases hp1 : m1.find p with
      | some z => rw [← h.unchanged p x z hp untold hp1, ← h'.unchanged p y z hp' untold' hp1]
      | none =>
        have moved : ∃ q cs, .renameTo q cs ∈ events ∧ p ∈ cs := by
          rcases (h.present p).mp (by simp [hp]) with ⟨old, -⟩ | ⟨cs, copied⟩ | fresh | moved
          · simp [hp1] at old
          · exact absurd (Or.inr copied) (told cs)
          · exact absurd fresh new
          · exact moved
        obtain ⟨q, cs, hq, hc⟩ := moved
        have source := h.renamed p x hp untold hp1 q cs hq hc
        have source' := h'.renamed p y hp' untold' hp1 q cs ((same _).mp hq) hc
        exact Option.some.inj (source.symm.trans source')

end Explains

theorem dirCompare_of_find_eq (same : ∀ p, m1.find p = m2.find p) :
    dirCompare skipRenames m1 m2 = [] := by
  apply List.eq_nil_iff_forall_not_mem.mpr
  intro e he
  rcases mem_dirCompare.mp he with ⟨p, h, hp, he⟩ | ⟨p, h, hp, he⟩
  · rw [mem_compareFirst, ← same p, hp] at he
    grind
  · rw [mem_compareSecond, same p, hp] at he
    grind

/-- What `DirCompare` reports describes the second directory completely. -/
theorem dirCompare_describes (m1 m2 : PathHashes K) :
    Explains m1 m2 (dirCompare false m1 m2) ∧
    (dirCompare false m1 m2 = [] ↔ ∀ p, m1.find p = m2.find p) ∧
    ∀ m2' : PathHashes K, (∀ e, e ∈ dirCompare false m1 m2 ↔ e ∈ dirCompare false m1 m2') →
      ∀ p, .contentChanged p ∉ dirCompare false m1 m2 → .newFile p ∉ dirCompare false m1 m2 →
        m2.find p = m2'.find p := by
  refine ⟨explains m1 m2, ⟨fun none p => ?_, dirCompare_of_find_eq⟩, ?_⟩
  · have told := explains m1 m2
    rw [none] at told
    exact told.find_eq_of_nil p
  · intro m2' same p changed new
    exact (explains m1 m2).determined (explains m1 m2') same changed new

end

/-- Of two files, the content of one is copied over the other, and to a new file. -/
def shuffled1 : PathHashes String := ⟨[("b", 2), ("a", 1)], by decide⟩

def shuffled2 : PathHashes String := ⟨[("a", 3), ("c", 1), ("b", 1)], by decide⟩

example : dirCompare false shuffled1 shuffled2 =
    [.contentChanged "a", .overwrittenBy "b" ["a"], .copiedFrom "c" ["a"]] := by decide

theorem dirCompare_describes_shuffled : dirCompare false shuffled1 shuffled2 ≠ [] ∧
    ∀ m2' : PathHashes String,
      (∀ e, e ∈ dirCompare false shuffled1 shuffled2 ↔ e ∈ dirCompare false shuffled1 m2') →
        m2'.find "b" = some 1 ∧ m2'.find "c" = some 1 := by
  obtain ⟨-, empty, determined⟩ := dirCompare_describes shuffled1 shuffled2
  refine ⟨fun none => ?_, fun m2' same => ?_⟩
  · exact absurd (empty.mp none "b") (by decide)
  · exact ⟨(determined m2' same "b" (by decide) (by decide)).symm,
      (determined m2' same "c" (by decide) (by decide)).symm⟩

end Dupa
