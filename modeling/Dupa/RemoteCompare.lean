import Dupa.Fillers
import Dupa.Lifetimes
import Dupa.Rescan

/-!
# A directory that is elsewhere

The cache dumped after the scan of a directory can be copied to where the directory is not,
and be compared with there. When no subdirectory has all the files, and no file has the
checksum 0, that is as good as the directory itself, and else it is not (`remote_compare`).
-/

namespace Dupa

section
variable {K : Type} [LinearOrder K]

/-- Compared with any third map these two give the same report, up to the order of
candidates. -/
def Interchangeable (m m' : PathHashes K) : Prop :=
  ∀ (other : PathHashes K) (skipRenames : Bool),
    (dirCompare skipRenames other m).map Event.sorted =
        (dirCompare skipRenames other m').map Event.sorted ∧
      (dirCompare skipRenames m other).map Event.sorted =
        (dirCompare skipRenames m' other).map Event.sorted

theorem interchangeable_iff {m m' : PathHashes K} :
    Interchangeable m m' ↔ ∀ p, m.find p = m'.find p := by
  constructor
  · intro same p
    -- Nothing tells a map from itself, so nothing tells it from the other one.
    have none : (dirCompare false m m').map Event.sorted = [] := by
      rw [← (same m false).1, dirCompare_of_find_eq fun _ => rfl, List.map_nil]
    have told := explains m m'
    rw [List.map_eq_nil_iff.mp none] at told
    exact told.find_eq_of_nil p
  · intro same other skipRenames
    exact ⟨dirCompare_sorted (fun _ => rfl) same, dirCompare_sorted same fun _ => rfl⟩

end

/-! ## Strings for paths -/

/-- The map by the strings of the paths. -/
structure Keyed (native : PathHashes Bytes) (m : PathHashes Path) : Prop where
  inner : ∀ p h, m.find p = some h → p.Inner
  find : ∀ k h, native.find k = some h ↔ ∃ p : Path, p.Inner ∧ k = bytes p.native ∧
    m.find p = some h

namespace Keyed

variable {native native' : PathHashes Bytes} {m m' : PathHashes Path} {p : Path} {h : Cksum}

theorem find_native (keyed : Keyed native m) (inner : p.Inner) :
    native.find (bytes p.native) = some h ↔ m.find p = some h := by
  rw [keyed.find]
  constructor
  · rintro ⟨q, inner', key, found⟩
    rwa [Path.native_inj inner inner' (bytes_inj key)]
  · exact fun found => ⟨p, inner, rfl, found⟩

theorem find_eq_iff (keyed : Keyed native m) (keyed' : Keyed native' m') :
    (∀ k, native.find k = native'.find k) ↔ ∀ p, m.find p = m'.find p := by
  constructor
  · intro same p
    apply Option.ext
    intro h
    by_cases inner : p.Inner
    · rw [← keyed.find_native inner, same, keyed'.find_native inner]
    · exact ⟨fun found => absurd (keyed.inner p h found) inner,
        fun found => absurd (keyed'.inner p h found) inner⟩
  · intro same k
    apply Option.ext
    intro h
    rw [keyed.find, keyed'.find]
    simp only [same]

end Keyed

/-! ## The directory and the database -/

theorem Above.find_eq_iff {stem : Path} {dir db : PathHashes Path} (above : Above stem dir db)
    (some_file : ∃ p h, db.find p = some h) :
    (∀ p, dir.find p = db.find p) ↔ stem = [] ∧ ∀ p h, db.find p = some h → h ≠ 0 := by
  constructor
  · intro same
    obtain ⟨p, h, found⟩ := some_file
    refine ⟨above.eq_nil ⟨p, h, (same p).trans found⟩ fun p h _ => by rw [same], ?_⟩
    intro p h found
    exact ((above p h).mp ((same p).trans found)).1
  · rintro ⟨rfl, nonzero⟩ p
    apply Option.ext
    intro h
    exact ⟨above.find_db, fun found => above.find_dir found (nonzero p h found)⟩

namespace FileSystem

variable {files : FileSystem} {root dir path : Path}

/-- A scan of the directory reads the file. -/
def Reads (files : FileSystem) (root path : Path) (info : FileInfo) : Prop :=
  files.Regular root path ∧ files.hash path = some info

/-- Of all directories that have all files that are read below the root this is the deepest. -/
def Gathers (files : FileSystem) (root dir : Path) : Prop :=
  ∀ above, above <+: dir ↔ ∀ path info, files.Reads root path info → above <+: path.parentPath

theorem Listed.trans (outer : files.Listed root dir) (inner : files.Listed dir path) :
    files.Listed root path := by
  induction inner with
  | root => exact outer
  | child _ listing member kind listed ih => exact .child ih listing member kind listed

theorem Listed.within (outer : files.Listed root dir) (listed : files.Listed root path)
    (below : dir <+: path) : files.Listed dir path := by
  induction listed with
  | root listed =>
    obtain rfl := below.eq_of_length_le outer.below_root.length_le
    exact .root listed
  | child parent listing member kind listed ih =>
    rcases List.prefix_concat_iff.mp below with rfl | below
    · exact .root listed
    · exact .child (ih below) listing member kind listed

theorem Reads.iff_within {info : FileInfo} (outer : files.Listed root dir) :
    files.Reads dir path info ↔ files.Reads root path info ∧ dir <+: path.parentPath := by
  constructor
  · rintro ⟨regular, known⟩
    refine ⟨⟨?_, known⟩, regular.below_root.1⟩
    obtain ⟨⟨parent, names, name, listed, listing, member, rfl⟩, kind⟩ := regular
    exact ⟨⟨parent, names, name, outer.trans listed, listing, member, rfl⟩, kind⟩
  · rintro ⟨⟨⟨⟨parent, names, name, listed, listing, member, rfl⟩, kind⟩, known⟩, below⟩
    rw [Path.parentPath_append] at below
    exact ⟨⟨⟨parent, names, name, outer.within listed below, listing, member, rfl⟩, kind⟩, known⟩

end FileSystem

section
variable {files : FileSystem} {root : Path} {n : ℕ} {db : Db}

theorem Scanned.keyed {calls : List Call} (scanned : Scanned files root calls)
    (named : files.Named) : Keyed (Input.nativeHashes calls) (Input.pathHashes calls) where
  inner := by
    intro p h found
    obtain ⟨info, regular, -⟩ := scanned.find_pathHashes.mp found
    simpa using regular.inner named
  find := by
    intro k h
    apply Input.nativeHashes_find scanned.rooted fun p told => ((scanned.roots p).mp told).1
    intro p info told
    exact ((scanned.reports p info).mp told).1.inner named

theorem Describes.keyed {common : Path} {calls : List Call}
    (describes : Describes db.entries common calls)
    (below : ∀ entry ∈ db.entries, common <+: entry.1.parentPath)
    (inner : ∀ entry ∈ db.entries, Path.Inner (entry.1.drop common.length)) :
    Keyed (Input.nativeHashes calls) (Input.pathHashes calls) where
  inner := by
    intro p h found
    obtain ⟨info, entry, -⟩ := (describes.find_pathHashes below).mp found
    simpa using inner _ entry
  find := by
    intro k h
    apply Input.nativeHashes_find describes.rooted fun p told => (describes.root p).mp told
    intro p info told
    exact inner _ ((describes.files p info).mp told)

theorem scanDb_nativeHashes (db : Db) :
    ((scanDb nativeFiller db.entries).run .empty).2 = Input.nativeHashes (dbCalls db.entries) := by
  rw [scanDb_issues]
  simp [Input.nativeHashes, issued]
  rfl

variable {dir common : Path} {calls dbCalls : List Call}

/-- A directory of which a database has all files as well is above all of these. -/
theorem Scanned.above_of_find_eq (scanned : Scanned files dir calls)
    (outer : files.Listed root dir)
    (held : ∀ path info, (path, info) ∈ db.entries ↔ files.Reads root path info)
    (describes : Describes db.entries common dbCalls)
    (below : ∀ entry ∈ db.entries, common <+: entry.1.parentPath) (some : db.entries ≠ [])
    (same : ∀ p, (Input.pathHashes calls).find p = (Input.pathHashes dbCalls).find p) :
    dir <+: common := by
  obtain ⟨⟨path, info⟩, longest, most⟩ := Finset.exists_max_image db.entries.toFinset
    (fun entry => entry.1.length) (by simpa [List.toFinset_nonempty_iff] using some)
  have entry := List.mem_toFinset.mp longest
  obtain ⟨q, rfl⟩ := (below _ entry).trans (List.dropLast_prefix _)
  have found := (describes.find_pathHashes below).mpr ⟨info, entry, rfl⟩
  rw [← same, scanned.find_pathHashes] at found
  obtain ⟨info', regular, known, -⟩ := found
  -- The longest path of the database leads from the directory to a file of the database.
  have there := (held _ _).mpr ((FileSystem.Reads.iff_within outer).mp ⟨regular, known⟩).1
  have short := most _ (List.mem_toFinset.mpr there)
  simp only [List.length_append] at short
  exact List.prefix_of_prefix_length_le (List.prefix_append dir q)
    ((below _ there).trans (List.dropLast_prefix _)) (by omega)

theorem gathers_iff (held : ∀ path info, (path, info) ∈ db.entries ↔ files.Reads root path info)
    (longest : ∀ p, p <+: common ↔ ∀ entry ∈ db.entries, p <+: entry.1.parentPath) :
    files.Gathers root dir ↔ dir = common := by
  have common_gathers : files.Gathers root common := by
    intro p
    rw [longest]
    exact ⟨fun all path info reads => all _ ((held path info).mpr reads),
      fun all entry he => all _ _ ((held _ _).mp he)⟩
  constructor
  · intro gathers
    have same : ∀ p, p <+: dir ↔ p <+: common := fun p => (gathers p).trans (common_gathers p).symm
    exact ((same dir).mp (List.prefix_refl _)).eq_of_length_le
      ((same common).mpr (List.prefix_refl _)).length_le
  · rintro rfl
    exact common_gathers

theorem Scanned.find_eq_iff (scanned : Scanned files dir calls) (outer : files.Listed root dir)
    (held : ∀ path info, (path, info) ∈ db.entries ↔ files.Reads root path info) :
    (∀ p, (Input.pathHashes calls).find p =
        (Input.pathHashes (Dupa.dbCalls db.entries)).find p) ↔
      (db.entries ≠ [] → files.Gathers root dir) ∧
        ∀ path info, files.Reads root path info → info.sum ≠ 0 := by
  cases entries : db.entries with
  | nil =>
    have none : ∀ path info, ¬files.Reads root path info := by
      intro path info reads
      have there := (held path info).mpr reads
      rw [entries] at there
      cases there
    refine iff_of_true (fun p => Option.ext fun h => ?_)
      ⟨fun h => absurd rfl h, fun path info reads => absurd reads (none path info)⟩
    rw [scanned.find_pathHashes]
    constructor
    · rintro ⟨info, regular, known, -⟩
      exact absurd ((FileSystem.Reads.iff_within outer).mp ⟨regular, known⟩).1 (none _ _)
    · exact fun found => by cases found
  | cons first rest =>
    have describes := dbCalls_describe db entries
    have longest := fun p => prefix_commonParent (p := p) entries
    have below := (longest _).mp (List.prefix_refl _)
    rw [← entries]
    have nonempty : db.entries ≠ [] := by simp [entries]
    have sums : (∀ p h, (Input.pathHashes (Dupa.dbCalls db.entries)).find p = some h → h ≠ 0) ↔
        ∀ path info, files.Reads root path info → info.sum ≠ 0 := by
      constructor
      · intro nonzero path info reads
        have entry := (held path info).mpr reads
        obtain ⟨q, rfl⟩ := (below _ entry).trans (List.dropLast_prefix _)
        exact nonzero q _ ((describes.find_pathHashes below).mpr ⟨info, entry, rfl⟩)
      · intro nonzero p h found
        obtain ⟨info, entry, rfl⟩ := (describes.find_pathHashes below).mp found
        exact nonzero _ info ((held _ _).mp entry)
    have some_file : ∃ p h, (Input.pathHashes (Dupa.dbCalls db.entries)).find p = some h := by
      have entry : first ∈ db.entries := entries ▸ List.mem_cons_self
      obtain ⟨q, hq⟩ := (below _ entry).trans (List.dropLast_prefix _)
      exact ⟨q, _, (describes.find_pathHashes below).mpr ⟨first.2, hq ▸ entry, rfl⟩⟩
    rw [gathers_iff held longest, ← sums]
    by_cases up : dir <+: commonParent first db.entries
    · obtain ⟨stem, joined⟩ := id up
      have above : Above stem (Input.pathHashes calls)
          (Input.pathHashes (Dupa.dbCalls db.entries)) := by
        apply scanned.above _ (joined ▸ describes) (joined ▸ below)
        intro path info
        rw [held]
        constructor
        · intro reads
          exact (FileSystem.Reads.iff_within outer).mpr
            ⟨reads, up.trans (below _ ((held path info).mpr reads))⟩
        · exact fun reads => ((FileSystem.Reads.iff_within outer).mp reads).1
      rw [above.find_eq_iff some_file, ← joined]
      simp [nonempty]
    · refine iff_of_false (fun same => up ?_) fun home => up ?_
      · exact scanned.above_of_find_eq outer held describes below nonempty same
      · rw [← home.1 nonempty]

theorem keyed_of_held (named : files.Named)
    (held : ∀ path info, (path, info) ∈ db.entries ↔ files.Reads root path info) :
    Keyed (Input.nativeHashes (Dupa.dbCalls db.entries))
      (Input.pathHashes (Dupa.dbCalls db.entries)) := by
  cases entries : db.entries with
  | nil =>
    refine ⟨?_, fun k h => iff_of_false ?_ ?_⟩
    · intro p h found
      cases found
    · intro found
      cases found
    · rintro ⟨p, -, -, found⟩
      cases found
  | cons first rest =>
    have longest := fun p => prefix_commonParent (p := p) entries
    have down := (longest root).mpr fun entry he => ((held _ _).mp he).1.below_root.1
    rw [← entries]
    apply (dbCalls_describe db entries).keyed ((longest _).mp (List.prefix_refl _))
    intro entry he name member
    apply ((held _ _).mp he).1.inner named
    obtain ⟨more, joined⟩ := down
    rw [← joined, List.length_append, ← List.drop_drop] at member
    exact List.mem_of_mem_drop member

/-- What is cached after a scan that began with nothing. -/
theorem Scan.Run.cached_iff {σ H : Type} [Inhabited H] {P : ScanProcessor (StateM σ) H}
    {processor : σ} {s : Scan files σ H n}
    (run : Scan.Run P root processor (fun _ => none) calls s) (returned : s.pc = .returned)
    {path : Path} {info : FileInfo} :
    s.cache path = some info ↔ files.Reads root path info := by
  obtain ⟨new, old⟩ := run.cache_eq returned path
  by_cases read : files.Regular root path ∧ (files.hash path).isSome
  · rw [new read.1 read.2]
    exact (and_iff_right read.1).symm
  · rw [old read]
    refine iff_of_false (by simp) fun reads => read ⟨reads.1, by simp [reads.2]⟩

/-- A database that was dumped after the scan of a directory, and is compared with elsewhere
or later, is as good as the deepest directory that has all the files, if no file has the
checksum 0. Nor is it as good as any other directory, or as any at all else. -/
theorem remote_compare (named : files.Named) {σ H : Type} [Inhabited H] {k : ℕ}
    {P : ScanProcessor (StateM σ) H} {processor : σ} {sent : List Call} {there : Scan files σ H k}
    (dump : Scan.Run P root processor (fun _ => none) sent there) (done : there.pc = .returned)
    {map : CacheMap} (lists : map.Lists there.cache) {c c' : Sql.Connection Value}
    (stored : (storeCksums map.entries).on c = (.ok (), c')) {S : Sqlite}
    {found : Bytes → Option FileInfo} {turns : ℕ}
    (reads : ∀ fuel, turns < fuel → readCacheFromDb S fuel c'.durable = .ok found)
    (dumps : db.Dumps (CacheMap.reread found)) (outer : files.Listed root dir)
    {cache : Path → Option FileInfo} {s : Scan files (PathHashes Bytes) Path n}
    (run : Scan.Run nativeFiller dir .empty cache calls s) (returned : s.pc = .returned) :
    Interchangeable s.processor ((scanDb nativeFiller db.entries).run .empty).2 ↔
      ((∃ path info, files.Reads root path info) → files.Gathers root dir) ∧
        ∀ path info, files.Reads root path info → info.sum ≠ 0 := by
  have held : ∀ path info, (path, info) ∈ db.entries ↔ files.Reads root path info := by
    obtain ⟨rows, committed⟩ := of_storeCksums stored
    have durable : c'.durable = c'.tables := by
      rw [Sql.Connection.durable, committed]
      rfl
    have read := reads (turns + map.entries.length + 1) (by omega)
    rw [durable, readCacheFromDb_ok S map rows (by omega)] at read
    intro path info
    rw [dumps, ← Except.ok.inj read, lists.reread_eq, dump.cached_iff done]
  have told : Input.nativeHashes calls = s.processor := run.told.2.state
  have scanned := run.scanned returned
  have some_file : db.entries ≠ [] ↔ ∃ path info, files.Reads root path info := by
    simp only [ne_eq, List.eq_nil_iff_forall_not_mem, Prod.forall, held, not_forall, not_not]
  rw [interchangeable_iff, scanDb_nativeHashes, ← told,
    (scanned.keyed named).find_eq_iff (keyed_of_held named held), ← some_file]
  exact scanned.find_eq_iff outer held

end

/-- The cache after a scan of the directory with one file. -/
def deepMap : CacheMap where
  entries := [(bytes "r/d/x", ⟨1, 2, 3⟩)]
  distinct := List.nodup_singleton _
  plain := by decide +kernel

theorem deepFile_reads {path : Path} {info info' : FileInfo} :
    (deepFile info).Reads ["r"] path info' ↔ path = ["r", "d", "x"] ∧ info' = info := by
  constructor
  · rintro ⟨-, known⟩
    simp only [deepFile] at known
    split at known
    · next here => exact ⟨here, (Option.some.inj known).symm⟩
    · cases known
  · rintro ⟨rfl, rfl⟩
    exact ⟨deepFile_regular _, rfl⟩

theorem deepFile_gathers {dir : Path} {info : FileInfo} :
    (deepFile info).Gathers ["r"] dir ↔ dir = ["r", "d"] := by
  have held : ∀ path info', (path, info') ∈ (deepDb info).entries ↔
      (deepFile info).Reads ["r"] path info' := by
    intro path info'
    rw [deepFile_reads]
    simp [deepDb]
  exact gathers_iff held fun p => by simp [deepDb, Path.parentPath]

/-- Where all files are in one subdirectory, the database stands for that. -/
theorem remote_compare_deepFile :
    ∃ s s' : Scan (deepFile ⟨1, 2, 3⟩) (PathHashes Bytes) Path 1,
      Interchangeable s.processor
        ((scanDb nativeFiller (deepDb ⟨1, 2, 3⟩).entries).run .empty).2 ∧
      ¬Interchangeable s'.processor
        ((scanDb nativeFiller (deepDb ⟨1, 2, 3⟩).entries).run .empty).2 := by
  obtain ⟨there, returned, run⟩ := deepFile_run ⟨1, 2, 3⟩ nativeFiller .empty fun _ => none
  have begun : Scan.Run nativeFiller ["r", "d"] .empty (fun _ => none) []
    (.start ["r", "d"] .empty fun _ => none : Scan (deepFile ⟨1, 2, 3⟩) (PathHashes Bytes) Path 1) :=
    .start
  obtain ⟨s, inside, run'⟩ := deepFile_finish begun
  have lists : deepMap.Lists there.cache := by
    apply CacheMap.lists_single (p := ["r", "d", "x"]) (by decide) rfl
    intro q
    apply Option.ext
    intro info
    rw [run.cached_iff returned, deepFile_reads]
    split <;> simp_all [eq_comm]
  have free : ¬Sql.Database.Referenced (V := Value) ∅ "FileList" := by
    rintro ⟨table, there, -⟩
    exact absurd there (by simp)
  obtain ⟨c', stored⟩ := @storeCksums_on deepMap ⟨∅, none, none⟩ rfl rfl free
  obtain ⟨rows, committed⟩ := of_storeCksums stored
  have reads : ∀ fuel, deepMap.entries.length < fuel →
      readCacheFromDb .lastFirst fuel c'.durable = .ok deepMap.lookup := by
    intro fuel enough
    apply readCacheFromDb_ok _ deepMap _ enough
    rw [Sql.Connection.durable, committed]
    exact rows
  have dumps : (deepDb ⟨1, 2, 3⟩).Dumps (CacheMap.reread deepMap.lookup) := by
    rw [lists.reread_eq]
    exact deepDb_dumps run returned
  have outer : (deepFile ⟨1, 2, 3⟩).Listed ["r"] (["r"] ++ ["d"]) :=
    .child (.root rfl) rfl (List.mem_singleton_self _) rfl rfl
  have inner := remote_compare (deepFile_named _) run returned lists stored reads dumps outer run'
    inside
  have whole := remote_compare (deepFile_named _) run returned lists stored reads dumps (.root rfl)
    run returned
  refine ⟨s, there, inner.mpr ⟨?_, ?_⟩, fun same => ?_⟩
  · exact fun _ => deepFile_gathers.mpr rfl
  · intro path info reads
    rw [(deepFile_reads.mp reads).2]
    decide
  · have gathers := (whole.mp same).1 ⟨["r", "d", "x"], ⟨1, 2, 3⟩, deepFile_reads.mpr ⟨rfl, rfl⟩⟩
    exact absurd (deepFile_gathers.mp gathers) (by decide)

end Dupa
