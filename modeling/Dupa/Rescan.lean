import Mathlib.Data.Finset.Max
import Dupa.Inputs

/-!
# A directory and its database

After a scan of a directory the dumped cache holds its files. A scan of the
database finds them again, below the longest path that leads to all of them
instead of below the directory that was named.
-/

namespace Dupa

section
variable {files : FileSystem} {root path common : Path} {n : ℕ} {calls : List Call}
  {s : Scan files (PathHashes Path) Path n} {db : Db} {hash : Cksum} {info : FileInfo}

theorem FileSystem.Regular.below_root (h : files.Regular root path) :
    root <+: path.parentPath ∧ path ≠ [] := by
  obtain ⟨⟨dir, names, name, listed, -, -, rfl⟩, -⟩ := h
  rw [Path.parentPath_append]
  exact ⟨listed.below_root, by simp⟩

/-! ## The map of a scan -/

/-- Calls whose files all are below `common` make this map, if no two calls tell
of the same file. -/
theorem find_pathHashes (rooted : Justified Call.Rooted calls)
    (roots : ∀ p, .rootDir p ∈ calls → p = common) (nodup : calls.Nodup)
    (below : ∀ p info, .file p info ∈ calls → common <+: p)
    (once : ∀ p info info', .file p info ∈ calls → .file p info' ∈ calls → info = info') :
    (Input.pathHashes calls).find path = some hash ↔
      ∃ info, .file (common ++ path) info ∈ calls ∧ info.sum = hash := by
  have collected : Input.pathHashes calls =
      .collect (calls.filterMap (Call.fileAt [] common)) := by
    rw [← Call.locator_files (fun _ => []) rooted roots]
    exact congrArg Prod.snd
      (Call.issueAll_abstracts pathHashesFiller_abstracts (fun _ => default) calls [])
  have located : ∀ call ∈ calls, ∀ f, Call.fileAt [] common call = some f →
      call = .file (common ++ f.1) f.2 := by
    intro call hc f hf
    cases call with
    | rootDir p | dir p => cases hf
    | file p info =>
      obtain rfl := Option.some.inj hf
      obtain ⟨tail, rfl⟩ := below p info hc
      simp
  have distinct : ((calls.filterMap (Call.fileAt [] common)).map Prod.fst).Nodup := by
    rw [List.Nodup, List.pairwise_map, List.pairwise_filterMap]
    refine List.Pairwise.imp_of_mem ?_ nodup
    intro call call' hc hc' ne f hf f' hf' same
    have hcall := located call hc f hf
    have hcall' := located call' hc' f' hf'
    rw [← same] at hcall'
    subst hcall hcall'
    exact ne (by rw [once _ _ _ hc hc'])
  rw [collected, PathHashes.find_collect distinct]
  refine exists_congr fun info => and_congr_left fun _ => ?_
  rw [List.mem_filterMap]
  constructor
  · rintro ⟨call, hc, hf⟩
    exact located call hc _ hf ▸ hc
  · intro hc
    exact ⟨_, hc, by simp [Call.fileAt]⟩

theorem Scanned.find_pathHashes (h : Scanned files root calls) :
    (Input.pathHashes calls).find path = some hash ↔ ∃ info, files.Regular root (root ++ path) ∧
      files.hash (root ++ path) = some info ∧ info.sum ≠ 0 ∧ info.sum = hash := by
  rw [Dupa.find_pathHashes h.rooted (fun p hp => ((h.roots p).mp hp).1) h.nodup]
  · simp only [h.reports, and_assoc]
  · intro p info hc
    exact ((h.reports p info).mp hc).1.below_root.1.trans (List.dropLast_prefix p)
  · intro p info info' hc hc'
    obtain ⟨-, known, -⟩ := (h.reports p info).mp hc
    obtain ⟨-, known', -⟩ := (h.reports p info').mp hc'
    exact Option.some.inj (known.symm.trans known')

theorem Describes.find_pathHashes (h : Describes db.entries common calls)
    (below : ∀ entry ∈ db.entries, common <+: entry.1.parentPath) :
    (Input.pathHashes calls).find path = some hash ↔
      ∃ info, (common ++ path, info) ∈ db.entries ∧ info.sum = hash := by
  rw [Dupa.find_pathHashes h.rooted (fun p hp => (h.root p).mp hp) h.nodup]
  · simp only [h.files]
  · intro p info hc
    exact (below _ ((h.files p info).mp hc)).trans (List.dropLast_prefix p)
  · intro p info info' hc hc'
    exact List.inj_on_of_nodup_map db.distinct ((h.files p info).mp hc) ((h.files p info').mp hc')
      rfl |> congrArg Prod.snd

theorem scanDb_pathHashes (db : Db) :
    ((scanDb pathHashesFiller db.entries).run .empty).2 = Input.pathHashes (dbCalls db.entries) := by
  rw [scanDb_issues]
  simp [Input.pathHashes, issued]
  rfl

/-! ## The two maps -/

/-- The database holds the files that were read. -/
theorem Db.Dumps.mem_iff {P : ScanProcessor (StateM (PathHashes Path)) Path} {m : PathHashes Path}
    (dumps : db.Dumps s.cache) (run : Scan.Run P root m (fun _ => none) calls s)
    (returned : s.pc = .returned) :
    (path, info) ∈ db.entries ↔ files.Regular root path ∧ files.hash path = some info := by
  obtain ⟨new, old⟩ := run.cache_eq returned path
  rw [dumps path info]
  by_cases read : files.Regular root path ∧ (files.hash path).isSome
  · rw [new read.1 read.2]
    exact (and_iff_right read.1).symm
  · rw [old read]
    refine ⟨nofun, fun ⟨regular, known⟩ => absurd ⟨regular, by simp [known]⟩ read⟩

/-- The map of a database, and the map of a directory that lies `stem` above it
and has none of its files of checksum 0. -/
def Above (stem : Path) (dir db : PathHashes Path) : Prop :=
  ∀ p h, dir.find p = some h ↔ h ≠ 0 ∧ ∃ q, p = stem ++ q ∧ db.find q = some h

theorem Above.eq_nil {stem : Path} {dir db : PathHashes Path} (above : Above stem dir db)
    (some_file : ∃ p h, dir.find p = some h)
    (same : ∀ p h, h ≠ 0 → (dir.find p = some h ↔ db.find p = some h)) : stem = [] := by
  obtain ⟨p, h, hp⟩ := some_file
  have nonempty : dir.entries.toFinset.Nonempty :=
    ⟨(p, h), List.mem_toFinset.mpr (PathHashes.mem_entries.mpr hp)⟩
  obtain ⟨⟨q, k⟩, hq, longest⟩ := Finset.exists_max_image _ (fun entry => entry.1.length) nonempty
  have there := PathHashes.mem_entries.mp (List.mem_toFinset.mp hq)
  -- The longest path is one of the database too, so it is there once more, moved.
  obtain ⟨nonzero, -⟩ := (above q k).mp there
  have moved : dir.find (stem ++ q) = some k :=
    (above _ k).mpr ⟨nonzero, q, rfl, (same q k nonzero).mp there⟩
  have := longest (stem ++ q, k) (List.mem_toFinset.mpr (PathHashes.mem_entries.mpr moved))
  simp only [List.length_append] at this
  exact List.length_eq_zero_iff.mp (by omega)

section
variable {dir db : PathHashes Path} {skipRenames : Bool} {e : Event Path} {p : Path}

theorem Above.find_db (above : Above [] dir db) (hp : dir.find p = some hash) :
    db.find p = some hash := by
  obtain ⟨-, q, rfl, hq⟩ := (above p hash).mp hp
  exact hq

theorem Above.find_dir (above : Above [] dir db) (hp : db.find p = some hash) (nonzero : hash ≠ 0) :
    dir.find p = some hash :=
  (above p hash).mpr ⟨nonzero, p, rfl, hp⟩

theorem Above.zero (above : Above [] dir db) (gone : dir.find p = none)
    (there : db.find p = some hash) : hash = 0 := by
  by_contra nonzero
  simp [above.find_dir there nonzero] at gone

theorem Above.absent (above : Above [] dir db) : dir.getPathsForHash 0 = [] := by
  rw [PathHashes.getPathsForHash_eq_nil]
  intro p hp
  exact ((above p 0).mp hp).1 rfl

/-- Next to its own database a directory lacks only files of checksum 0. -/
theorem Above.compare (above : Above [] dir db) (he : e ∈ dirCompare skipRenames dir db) :
    ∃ p, e = .newFile p ∧ db.find p = some 0 := by
  cases e with
  | overwrittenBy p cs =>
    obtain ⟨h1, h2, old, new, ne, -⟩ := overwrittenBy_mem.mp he
    exact absurd (Option.some.inj ((above.find_db old).symm.trans new)) ne
  | contentChanged p =>
    obtain ⟨h1, h2, old, new, ne, -⟩ := contentChanged_mem.mp he
    exact absurd (Option.some.inj ((above.find_db old).symm.trans new)) ne
  | renameTo p cs =>
    obtain ⟨-, h, old, gone, -⟩ := renameTo_mem.mp he
    simp [above.find_db old] at gone
  | removed p =>
    obtain ⟨h, old, gone, -⟩ := removed_mem.mp he
    simp [above.find_db old] at gone
  | copiedFrom p cs =>
    obtain ⟨h, gone, there, ne, rfl⟩ := copiedFrom_mem.mp he
    obtain rfl := above.zero gone there
    simp [above.absent] at ne
  | newFile p =>
    obtain ⟨h, gone, there, -⟩ := newFile_mem.mp he
    exact ⟨p, rfl, above.zero gone there ▸ there⟩

theorem Above.compare_back (above : Above [] dir db) (he : e ∈ dirCompare skipRenames db dir) :
    ∃ p, e = .removed p ∧ db.find p = some 0 := by
  cases e with
  | overwrittenBy p cs =>
    obtain ⟨h1, h2, old, new, ne, -⟩ := overwrittenBy_mem.mp he
    exact absurd (Option.some.inj (old.symm.trans (above.find_db new))) ne
  | contentChanged p =>
    obtain ⟨h1, h2, old, new, ne, -⟩ := contentChanged_mem.mp he
    exact absurd (Option.some.inj (old.symm.trans (above.find_db new))) ne
  | renameTo p cs =>
    obtain ⟨-, h, there, gone, ne, rfl⟩ := renameTo_mem.mp he
    obtain rfl := above.zero gone there
    exact absurd above.absent ne
  | removed p =>
    obtain ⟨h, there, gone, -⟩ := removed_mem.mp he
    exact ⟨p, rfl, above.zero gone there ▸ there⟩
  | copiedFrom p cs =>
    obtain ⟨h, gone, new, -⟩ := copiedFrom_mem.mp he
    simp [above.find_db new] at gone
  | newFile p =>
    obtain ⟨h, gone, new, -⟩ := newFile_mem.mp he
    simp [above.find_db new] at gone

end

/-- Where the files of a database are those of a scan, its map lies below that of the
directory. -/
theorem Scanned.above {stem : Path} {dbCalls : List Call} (scanned : Scanned files root calls)
    (held : ∀ {p info}, (p, info) ∈ db.entries ↔
      files.Regular root p ∧ files.hash p = some info)
    (describes : Describes db.entries (root ++ stem) dbCalls)
    (below : ∀ entry ∈ db.entries, root ++ stem <+: entry.1.parentPath) :
    Above stem (Input.pathHashes calls) (Input.pathHashes dbCalls) := by
  intro p h
  rw [scanned.find_pathHashes]
  simp only [describes.find_pathHashes below, held]
  constructor
  · rintro ⟨info, regular, known, nonzero, rfl⟩
    have down := (below _ (held.mpr ⟨regular, known⟩)).trans (List.dropLast_prefix _)
    obtain ⟨q, rfl⟩ := (List.prefix_append_right_inj root).mp down
    refine ⟨nonzero, q, rfl, info, ?_, rfl⟩
    rw [List.append_assoc]
    exact ⟨regular, known⟩
  · rintro ⟨nonzero, q, rfl, info, ⟨regular, known⟩, rfl⟩
    rw [List.append_assoc] at regular known
    exact ⟨info, regular, known, nonzero, rfl⟩

/-- The maps of a directory and of the database dumped after its scan are the
same up to files of checksum 0 and the stem, the longest path below the root that
leads to all files. -/
theorem rescan_above (run : Scan.Run pathHashesFiller root .empty (fun _ => none) calls s)
    (returned : s.pc = .returned) (dumps : db.Dumps s.cache)
    (some_file : ∃ p info, files.Regular root p ∧ files.hash p = some info ∧ info.sum ≠ 0) :
    ∃ stem, (∀ q, q <+: stem ↔ ∀ p info, files.Regular root p → files.hash p = some info →
        root ++ q <+: p.parentPath) ∧
      Above stem s.processor ((scanDb pathHashesFiller db.entries).run .empty).2 ∧
      ((∀ p h, h ≠ 0 → (s.processor.find p = some h ↔
          ((scanDb pathHashesFiller db.entries).run .empty).2.find p = some h)) ↔ stem = []) ∧
      (stem = [] → ∀ skipRenames,
        (∀ e ∈ dirCompare skipRenames s.processor
            ((scanDb pathHashesFiller db.entries).run .empty).2,
          ∃ p, e = .newFile p ∧
            ((scanDb pathHashesFiller db.entries).run .empty).2.find p = some 0) ∧
        ∀ e ∈ dirCompare skipRenames ((scanDb pathHashesFiller db.entries).run .empty).2
            s.processor,
          ∃ p, e = .removed p ∧
            ((scanDb pathHashesFiller db.entries).run .empty).2.find p = some 0) ∧
      (stem = [] →
        (∀ p info, files.Regular root p → files.hash p = some info → info.sum ≠ 0) →
          ∀ p, s.processor.find p =
            ((scanDb pathHashesFiller db.entries).run .empty).2.find p) := by
  have held : ∀ {p info}, (p, info) ∈ db.entries ↔
      files.Regular root p ∧ files.hash p = some info := dumps.mem_iff run returned
  have told : Input.pathHashes calls = s.processor := run.told.2.state
  have scanned := run.scanned returned
  obtain ⟨p0, info0, regular0, known0, nonzero0⟩ := some_file
  obtain ⟨first, rest, hfirst⟩ :=
    List.exists_cons_of_ne_nil (List.ne_nil_of_mem (held.mpr ⟨regular0, known0⟩))
  have longest : ∀ q, q <+: commonParent first db.entries ↔
      ∀ entry ∈ db.entries, q <+: entry.1.parentPath := fun q => prefix_commonParent hfirst
  have below := (longest _).mp (List.prefix_refl _)
  obtain ⟨stem, hstem⟩ : root <+: commonParent first db.entries :=
    (longest root).mpr fun entry he => (held.mp he).1.below_root.1
  have describes := dbCalls_describe db hfirst
  rw [← hstem] at describes below longest
  rw [scanDb_pathHashes, ← told]
  have above := scanned.above held describes below
  refine ⟨stem, fun q => ?_, above, ⟨above.eq_nil ?_, ?_⟩, ?_, ?_⟩
  · rw [← List.prefix_append_right_inj root, longest]
    exact ⟨fun all p info regular known => all _ (held.mpr ⟨regular, known⟩),
      fun all entry he => all _ _ (held.mp he).1 (held.mp he).2⟩
  · obtain ⟨p, rfl⟩ := regular0.below_root.1.trans (List.dropLast_prefix p0)
    exact ⟨p, info0.sum, scanned.find_pathHashes.mpr
      ⟨info0, regular0, known0, nonzero0, rfl⟩⟩
  · rintro rfl p h nonzero
    exact ⟨above.find_db, fun hp => above.find_dir hp nonzero⟩
  · rintro rfl skipRenames
    exact ⟨fun e => above.compare, fun e => above.compare_back⟩
  · rintro rfl clean p
    cases hp : (Input.pathHashes (dbCalls db.entries)).find p with
    | some h =>
      obtain ⟨info, he, rfl⟩ := (describes.find_pathHashes below).mp hp
      obtain ⟨regular, known⟩ := held.mp he
      exact above.find_dir hp (clean _ info regular known)
    | none =>
      cases hp' : (Input.pathHashes calls).find p with
      | none => rfl
      | some h => simp [above.find_db hp'] at hp

end

theorem rescan_above_deepFile : ∃ stem dir, Above stem dir
    ((scanDb pathHashesFiller (deepDb ⟨1, 2, 3⟩).entries).run .empty).2 ∧
      dir.find ["d", "x"] = some 3 := by
  obtain ⟨s, returned, run⟩ := deepFile_run ⟨1, 2, 3⟩ pathHashesFiller .empty fun _ => none
  obtain ⟨stem, -, above, -⟩ := rescan_above run returned (deepDb_dumps run returned)
    ⟨["r", "d", "x"], ⟨1, 2, 3⟩, deepFile_regular _, rfl, by decide⟩
  refine ⟨stem, s.processor, above, ?_⟩
  rw [← run.told.2.state]
  decide

/-- Where all files are in one subdirectory, the directory and its database give
them different paths. -/
theorem rescan_moves : ¬∀ (files : FileSystem) (root : Path) (n : ℕ) (calls : List Call)
    (s : Scan files (PathHashes Path) Path n) (db : Db),
    Scan.Run pathHashesFiller root .empty (fun _ => none) calls s → s.pc = .returned →
    db.Dumps s.cache →
    (∃ p info, files.Regular root p ∧ files.hash p = some info ∧ info.sum ≠ 0) →
    ∀ p h, h ≠ 0 → (s.processor.find p = some h ↔
      ((scanDb pathHashesFiller db.entries).run .empty).2.find p = some h) := by
  intro all
  obtain ⟨s, returned, run⟩ := deepFile_run ⟨1, 2, 3⟩ pathHashesFiller .empty fun _ => none
  have same := all _ _ _ _ s (deepDb ⟨1, 2, 3⟩) run returned (deepDb_dumps run returned)
    ⟨["r", "d", "x"], ⟨1, 2, 3⟩, deepFile_regular _, rfl, by decide⟩ ["d", "x"] 3 (by decide)
  rw [← run.told.2.state] at same
  have named : (Input.pathHashes [.rootDir ["r"], .dir ["r", "d"],
      .file ["r", "d", "x"] ⟨1, 2, 3⟩]).find ["d", "x"] = some 3 := by decide
  exact absurd (same.mp named) (by decide)

end Dupa
