import Dupa.FailedDump
import Dupa.Lookups
import Dupa.NativePaths

/-!
# The cache from program to program

A program begins with the cache that an earlier one has dumped. Between programs files
change, and a dump can fail at any statement or be of another directory, into any
database. Still no program gets a checksum that is not that of the file
(`lifetimes_serve`). If files change only between programs, no care is needed
(`quiet_lifetimes_serve`).
-/

namespace Dupa

open Session

section
variable {I D T : Type} {sha : List UInt8 → Cksum}

/-! ## Dumps -/

/-- What a dump leaves of the cache: what was there, nothing, or all of it. -/
theorem storeCksums_leaves (cache : CacheMap) {c : Sql.Connection Value} (idle : c.saved = none) :
    ∃ result c', (storeCksums cache.entries).on c = (result, c') ∧ c'.saved = none ∧
      (fileList c' = fileList c ∨ fileList c' = none ∨
        fileList c' = some ⟨fileListColumns, []⟩ ∨
        fileList c' = some ⟨fileListColumns, fileRows cache.entries⟩) := by
  by_cases referenced : c.tables.Referenced "FileList"
  · obtain ⟨e, c', fails, tables, saved⟩ := storeCksums_refused cache.entries referenced
    exact ⟨_, c', fails, saved.trans idle, Or.inl (by rw [fileList, fileList, tables])⟩
  · obtain ⟨tables, saved, failing⟩ := c
    have completes := storeCksums_done (c := ⟨tables, saved, none⟩) cache idle referenced
    cases failing with
    | none =>
      obtain ⟨c', stored, held, committed⟩ := completes none
      exact ⟨_, c', stored, committed, Or.inr (Or.inr (Or.inr held))⟩
    | some k =>
      by_cases early : k < cache.entries.length + 5
      · refine ⟨_, _, storeCksums_failed (c := ⟨tables, saved, none⟩) cache idle referenced early,
          idle, ?_⟩
        rcases k with _ | _ | k
        · exact Or.inl rfl
        · exact Or.inr (Or.inl (AList.lookup_erase ..))
        · exact Or.inr (Or.inr (Or.inl (AList.lookup_insert _)))
      · obtain ⟨c', stored, held, committed⟩ := completes (some (k - (cache.entries.length + 5)))
        rw [Option.map_some, Nat.sub_add_cancel (not_lt.mp early)] at stored
        exact ⟨_, c', stored, committed, Or.inr (Or.inr (Or.inr held))⟩

namespace CacheMap

/-- The map of the cache, which is keyed by strings. -/
structure Lists (map : CacheMap) (cache : Path → Option FileInfo) : Prop where
  keys : ∀ k info, map.lookup k = some info ↔ ∃ p, k = bytes (Path.native p) ∧ cache p = some info
  files : ∀ p, (cache p).isSome → p.OfFile

/-- The cache that has been read. -/
def reread (found : Bytes → Option FileInfo) (p : Path) : Option FileInfo :=
  if p.OfFile then found (bytes p.native) else none

/-- Every entry is under a stamp that its path has shown, and right for that stamp. -/
def Right (sha : List UInt8 → Cksum) (d : Disk I) (map : CacheMap) : Prop :=
  ∀ k info, map.lookup k = some info → ∃ p : Path, p.OfFile ∧ k = bytes p.native ∧
    (info.size, info.mtime) ∈ d.seen p ∧ d.Holds sha p (info.size, info.mtime) info.sum

def nothing : CacheMap := ⟨[], List.nodup_nil, by simp⟩

variable {map : CacheMap} {cache : Path → Option FileInfo} {d d' : Disk I}

/-- A cache with one entry. -/
theorem lists_single {p : Path} (file : p.OfFile) {info : FileInfo}
    (entries : map.entries = [(bytes p.native, info)])
    (cached : ∀ q, cache q = if q = p then some info else none) : map.Lists cache where
  keys k info' := by
    have known : map.lookup k = if k = bytes p.native then some info else none := by
      by_cases same : k = bytes p.native
      · simp [CacheMap.lookup, entries, same]
      · simp [CacheMap.lookup, entries, same]
    rw [known]
    constructor
    · intro h
      split at h
      · next same => exact ⟨p, same, by rwa [cached, if_pos rfl]⟩
      · cases h
    · rintro ⟨q, rfl, h⟩
      rw [cached] at h
      split at h
      · next here =>
        subst here
        exact (if_pos rfl).trans h
      · cases h
  files q there := by
    rw [cached] at there
    split at there
    · next here => exact here ▸ file
    · cases there

/-- What is dumped is read again. -/
theorem Lists.reread_eq (lists : map.Lists cache) : reread map.lookup = cache := by
  funext p
  rw [reread]
  split
  · next file =>
    cases found : map.lookup (bytes p.native) with
    | none =>
      cases cached : cache p with
      | none => rfl
      | some info =>
        have listed := (lists.keys _ info).mpr ⟨p, rfl, cached⟩
        rw [found] at listed
        cases listed
    | some info =>
      obtain ⟨q, same, cached⟩ := (lists.keys _ info).mp found
      have file' := lists.files q (by simp [cached])
      rw [file.native_inj file' (bytes_inj same), cached]
  · next other =>
    cases cached : cache p with
    | none => rfl
    | some info => exact absurd (lists.files p (by simp [cached])) other

/-- The map of some of the entries. -/
def part (map : CacheMap) {some : List (Bytes × FileInfo)} (sub : some.Sublist map.entries) :
    CacheMap where
  entries := some
  distinct := (sub.map Prod.fst).nodup map.distinct
  plain file hfile := map.plain file (sub.subset hfile)

theorem Right.part (right : map.Right sha d) {some : List (Bytes × FileInfo)}
    (sub : some.Sublist map.entries) : (map.part sub).Right sha d := by
  intro k info found
  have member := (Assoc.mem_iff_lookup (map.part sub).distinct).mpr found
  exact right k info ((Assoc.mem_iff_lookup map.distinct).mp (sub.subset member))

theorem Right.evolves (right : map.Right sha d) (e : d.Evolves d') : map.Right sha d' := by
  intro k info found
  obtain ⟨p, file, key, seen, holds⟩ := right k info found
  exact ⟨p, file, key, e.seen p seen, e.holds seen holds⟩

theorem Right.reread (right : map.Right sha d) {p : Path} {info : FileInfo}
    (found : reread map.lookup p = some info) :
    (info.size, info.mtime) ∈ d.seen p ∧ d.Holds sha p (info.size, info.mtime) info.sum := by
  rw [CacheMap.reread] at found
  split at found
  · next file =>
    obtain ⟨q, file', key, right⟩ := right _ info found
    rw [file.native_inj file' (bytes_inj key)]
    exact right
  · cases found

theorem Lists.right {s : World I T} (lists : map.Lists s.cache) (acc : s.Accurate sha) :
    map.Right sha s.disk := by
  intro k info found
  obtain ⟨p, key, cached⟩ := (lists.keys k info).mp found
  exact ⟨p, lists.files p (by simp [cached]), key, acc.seen p info cached, acc.cache p info cached⟩

end CacheMap

/-! ## Machines -/

/-- What outlives a program. -/
structure Machine (I D : Type) where
  disk : Disk I
  db : D → Sql.Database Value

/-- A program that has just begun: no lookup has, and the inode cache is empty. -/
def World.begin (d : Disk I) (cache : Path → Option FileInfo) : World I T :=
  ⟨d, cache, fun _ => none, fun _ => 0, fun _ => .idle⟩

namespace Machine

variable {S : Sqlite} {m m' : Machine I D} {source : Option D} {cache : Path → Option FileInfo}

/-- The constructor of `HashCache` ends with this cache. -/
inductive Loads (S : Sqlite) (m : Machine I D) : Option D → (Path → Option FileInfo) → Prop where
  | nothing : Loads S m none fun _ => none
  | read (source : D) (found : Bytes → Option FileInfo) (turns : ℕ)
      (reads : ∀ fuel, turns < fuel → readCacheFromDb S fuel (m.db source) = .ok found) :
      Loads S m (some source) (CacheMap.reread found)

section
variable [DecidableEq I] [DecidableEq D]

/-- One thing after another, in which programs run as in `Runs`. -/
inductive Step (S : Sqlite) (Runs : ∀ (T : Type) [DecidableEq T], World I T → World I T → Prop)
    (m : Machine I D) : Machine I D → Prop where
  | change (d : Disk I) (h : m.disk.Change d) : Step S Runs m { m with disk := d }
  /-- A program ends without a dump. -/
  | quit {T : Type} [DecidableEq T] {source : Option D} {cache : Path → Option FileInfo}
      {s : World I T} (loads : Loads S m source cache) (run : Runs T (.begin m.disk cache) s) :
      Step S Runs m { m with disk := s.disk }
  /-- A program ends with a dump, any statement of which may fail. -/
  | dump {T : Type} [DecidableEq T] {source : Option D} {cache : Path → Option FileInfo}
      {s : World I T} (loads : Loads S m source cache) (run : Runs T (.begin m.disk cache) s)
      {map : CacheMap} (lists : map.Lists s.cache) (target : D) (failing : Option ℕ)
      {c' : Sql.Connection Value}
      (stores : ((storeCksums map.entries).on ⟨m.db target, none, failing⟩).2 = c') :
      Step S Runs m ⟨s.disk, Function.update m.db target c'.durable⟩
  /-- A dump that is cut off: without a journal the rows that were inserted may stay. -/
  | torn {T : Type} [DecidableEq T] {source : Option D} {cache : Path → Option FileInfo}
      {s : World I T} (loads : Loads S m source cache) (run : Runs T (.begin m.disk cache) s)
      {map : CacheMap} (lists : map.Lists s.cache) (target : D)
      {some : List (Bytes × FileInfo)} (sub : some.Sublist map.entries) {db : Sql.Database Value}
      (left : db.lookup "FileList" = .some ⟨fileListColumns, fileRows some⟩) :
      Step S Runs m ⟨s.disk, Function.update m.db target db⟩
  /-- Other tables of a database change. -/
  | other (target : D) (db : Sql.Database Value)
      (same : db.lookup "FileList" = (m.db target).lookup "FileList") :
      Step S Runs m { m with db := Function.update m.db target db }

/-- A history of programs and changes. -/
def Lives (S : Sqlite) (Runs : ∀ (T : Type) [DecidableEq T], World I T → World I T → Prop) :
    Machine I D → Machine I D → Prop :=
  Relation.ReflTransGen (Step S Runs)

end

/-- No program has run yet. -/
structure Pristine (m : Machine I D) : Prop where
  known : m.disk.Known
  empty : ∀ d, (m.db d).lookup "FileList" = none

/-- What the databases hold is right for the files. -/
structure Trusted (sha : List UInt8 → Cksum) (m : Machine I D) : Prop where
  known : m.disk.Known
  stored : ∀ d table, (m.db d).lookup "FileList" = some table → ∃ map : CacheMap,
    table = ⟨fileListColumns, fileRows map.entries⟩ ∧ map.Right sha m.disk

theorem Pristine.trusted (pristine : m.Pristine) : m.Trusted sha where
  known := pristine.known
  stored d table there := by
    rw [pristine.empty d] at there
    cases there

/-! ## Programs -/

/-- A program begins with right entries. -/
theorem Loads.accurate (loads : Loads S m source cache) (trusted : m.Trusted sha) :
    World.Accurate sha (.begin m.disk cache : World I T) := by
  have entries : ∀ p info, cache p = some info → (info.size, info.mtime) ∈ m.disk.seen p ∧
      m.disk.Holds sha p (info.size, info.mtime) info.sum := by
    intro p info cached
    cases loads with
    | nothing => cases cached
    | read source found turns reads =>
      cases there : (m.db source).lookup "FileList" with
      | none =>
        have missing : (m.db source).select ["path", "cksum", "size", "mtime"] "FileList" S.order =
            .error .noTable := by
          rw [Sql.Database.select, Sql.Database.find, there]
          rfl
        have fails := reads _ (Nat.lt_succ_self _)
        rw [readCacheFromDb, forEachFile, missing] at fails
        cases fails
      | some table =>
        obtain ⟨map, rfl, right⟩ := trusted.stored source table there
        have enough := reads (turns + map.entries.length + 1) (by omega)
        rw [readCacheFromDb_ok S map there (by omega)] at enough
        obtain rfl := Except.ok.inj enough
        exact right.reread cached
  refine ⟨trusted.known, fun p info cached => (entries p info cached).1,
    fun p info cached => (entries p info cached).2, fun i sum cached => ?_, fun t => trivial⟩
  cases cached

/-- A program that reads what has been dumped begins with that. -/
theorem loads_stored {map : CacheMap} (lists : map.Lists cache) {c c' : Sql.Connection Value}
    (stored : (storeCksums map.entries).on c = (.ok (), c')) {target : D}
    (there : m.db target = c'.durable) : Loads S m (some target) cache := by
  obtain ⟨held, committed⟩ := of_storeCksums stored
  rw [← lists.reread_eq]
  refine .read target map.lookup map.entries.length fun fuel enough => ?_
  apply readCacheFromDb_ok S map _ enough
  rw [there, Sql.Connection.durable, committed]
  exact held

section
variable [DecidableEq I] [DecidableEq T] {s0 s : World I T}

/-- What is right for the files stays right while a program runs. -/
theorem right_of_run {map : CacheMap} (run : World.CarefulRun sha s0 s)
    (right : map.Right sha s0.disk) : map.Right sha s.disk := by
  induction run with
  | refl => exact right
  | @tail s s' _ step ih =>
    obtain ⟨a, step, -⟩ := step
    cases step with
    | change d h => exact ih.evolves h.evolves
    | «open» | fstat | hit | miss | inodeHit | inodeMiss | read | eof | store | throw => exact ih
    | update t l version sum here =>
      rw [World.setLook_disk, World.insertIno_disk]
      exact ih

end

/-- A program leaves the other databases right. -/
theorem Trusted.kept [DecidableEq I] [DecidableEq T] (trusted : m.Trusted sha) {s : World I T}
    (run : World.CarefulRun sha (.begin m.disk cache) s) (d : D) (table : Sql.Table Value)
    (there : (m.db d).lookup "FileList" = some table) : ∃ map : CacheMap,
      table = ⟨fileListColumns, fileRows map.entries⟩ ∧ map.Right sha s.disk := by
  obtain ⟨map, rows, right⟩ := trusted.stored d table there
  exact ⟨map, rows, right_of_run run right⟩

section
variable [DecidableEq I] [DecidableEq D]

theorem Step.trusted (step : Step S (fun _ _ => World.CarefulRun sha) m m')
    (trusted : m.Trusted sha) : m'.Trusted sha := by
  cases step with
  | change d h =>
    refine ⟨h.evolves.known trusted.known, fun target table there => ?_⟩
    obtain ⟨map, rows, right⟩ := trusted.stored target table there
    exact ⟨map, rows, right.evolves h.evolves⟩
  | quit loads run =>
    exact ⟨(run.accurate (loads.accurate trusted)).known, trusted.kept run⟩
  | @dump T _ source cache s loads run map lists target failing c' stores =>
    have acc := run.accurate (loads.accurate trusted)
    have kept := trusted.kept run
    refine ⟨acc.known, fun d table there => ?_⟩
    change (Function.update m.db target c'.durable d).lookup "FileList" = some table at there
    by_cases here : d = target
    · subst here
      obtain ⟨result, c'', ran, committed, leaves⟩ :=
        storeCksums_leaves map (c := ⟨m.db d, none, failing⟩) rfl
      obtain rfl : c'' = c' := by rw [← stores, ran]
      have held : fileList c'' = some table := by
        rw [← there, Function.update_self, Sql.Connection.durable, committed]
        rfl
      rw [held] at leaves
      rcases leaves with old | none | empty | new
      · exact kept d table old.symm
      · cases none
      · exact ⟨.nothing, Option.some.inj empty, fun k info found => by cases found⟩
      · exact ⟨map, Option.some.inj new, lists.right acc⟩
    · rw [Function.update_of_ne here] at there
      exact kept d table there
  | @torn T _ source cache s loads run map lists target some sub db left =>
    have acc := run.accurate (loads.accurate trusted)
    refine ⟨acc.known, fun d table there => ?_⟩
    change (Function.update m.db target db d).lookup "FileList" = .some table at there
    by_cases here : d = target
    · subst here
      rw [Function.update_self, left] at there
      exact ⟨map.part sub, (Option.some.inj there).symm, (lists.right acc).part sub⟩
    · rw [Function.update_of_ne here] at there
      exact trusted.kept run d table there
  | other target db same =>
    refine ⟨trusted.known, fun d table there => ?_⟩
    change (Function.update m.db target db d).lookup "FileList" = some table at there
    by_cases here : d = target
    · subst here
      rw [Function.update_self, same] at there
      exact trusted.stored d table there
    · rw [Function.update_of_ne here] at there
      exact trusted.stored d table there

theorem Lives.trusted (lives : Lives S (fun _ _ => World.CarefulRun sha) m m')
    (trusted : m.Trusted sha) : m'.Trusted sha := by
  induction lives with
  | refl => exact trusted
  | tail _ step ih => exact step.trusted ih

variable [DecidableEq T]

/-- Whatever programs have run before, whatever they dumped and however the dumps ended, a
program serves the checksums of the files; and what it then dumps the next one has. -/
theorem lifetimes_serve (pristine : m.Pristine)
    (lives : Lives S (fun _ _ => World.CarefulRun sha) m m') (loads : Loads S m' source cache)
    {s : World I T}
    (run : World.CarefulRun sha (.begin m'.disk cache) s) :
    s.Serves sha ∧ ∀ (map : CacheMap) (target : D) (c' : Sql.Connection Value),
      map.Lists s.cache → (storeCksums map.entries).on ⟨m'.db target, none, none⟩ = (.ok (), c') →
      Loads S ⟨s.disk, Function.update m'.db target c'.durable⟩ (some target) s.cache := by
  have acc := run.accurate (loads.accurate (lives.trusted pristine.trusted))
  refine ⟨⟨fun path info file cached => acc.cache path info cached file,
    fun db dumps path info file row => acc.cache path info ((dumps path info).mp row) file,
    fun a s' path sum step ends => step.returns ends rfl acc⟩, ?_⟩
  exact fun map target c' lists stored => loads_stored lists stored (Function.update_self ..)

end

end Machine

/-! ## Files that change between programs -/

/-- A thread knows of its inode what that is now. -/
def Look.Current (d : Disk I) : Look I → Prop
  | .idle => True
  | .opened path i before => d.names path = some i ∧ before = d.changes
  | .statted l | .missed l => l.version = d.version l.ino ∧ l.opened = d.changes
  | .reading l version _ | .computed l version _ =>
    l.version = d.version l.ino ∧ version = d.version l.ino ∧ l.opened = d.changes
  | .summed l _ => l.opened = d.changes

namespace World

structure Current (s : World I T) : Prop where
  recorded : ∀ i, (s.inoCache i).isSome → s.recorded i = s.disk.version i
  look : ∀ t, (s.look t).Current s.disk

variable {s s' s0 : World I T} {t : T} {a : Action T} {path : Path} {opened : ℕ} {sum : Cksum}
  {d : Disk I} {cache : Path → Option FileInfo}

theorem begin_current : (begin d cache : World I T).Current where
  recorded i cached := by cases cached
  look t := trivial

theorem Current.look_eq (current : s.Current) {x : Look I} (here : s.look t = x) :
    x.Current s.disk := here ▸ current.look t

/-- A lookup that ends has not been disturbed. -/
theorem Current.undisturbed (current : s.Current) (ends : s.Returns path opened sum a) :
    opened = s.disk.changes := by
  cases a with
  | hit t =>
    obtain ⟨l, info, here, -, -, rfl, -⟩ := ends
    exact (current.look_eq here).2
  | store t =>
    obtain ⟨l, here, -, rfl⟩ := ends
    exact current.look_eq here
  | _ => cases ends

theorem Current.insertIno [DecidableEq I] (current : s.Current) {i : I} {version : ℕ}
    (now : version = s.disk.version i) : (s.insertIno i sum version).Current := by
  rw [World.insertIno]
  split
  · exact current
  · refine ⟨fun j cached => ?_, current.look⟩
    by_cases hj : j = i
    · subst hj
      simpa using now
    · simpa [hj] using current.recorded j (by simpa [hj] using cached)

theorem Current.setLook [DecidableEq T] (current : s.Current) {x : Look I} (h : x.Current s.disk) :
    (s.setLook t x).Current where
  recorded := current.recorded
  look u := by
    by_cases hu : u = t
    · subst hu
      simpa [World.setLook] using h
    · simpa [World.setLook, hu] using current.look u

section
variable [DecidableEq I] [DecidableEq T]

/-- No file changes. -/
def QuietRun (sha : List UInt8 → Cksum) : World I T → World I T → Prop :=
  Relation.ReflTransGen fun s s' => ∃ a, Step sha s a s' ∧ a ≠ .change

/-- As long as no file changes no lookup takes one for another. -/
theorem Step.current (h : Step sha s a s') (quiet : a ≠ .change) (current : s.Current) :
    s.Careful a ∧ s'.Current := by
  cases h with
  | change d h => exact absurd rfl quiet
  | «open» t path i here names => exact ⟨trivial, current.setLook ⟨names, rfl⟩⟩
  | fstat t path i before here =>
    obtain ⟨names, still⟩ := current.look_eq here
    refine ⟨fun path' i' before' here' => Or.inl ?_, current.setLook ⟨rfl, still⟩⟩
    obtain ⟨rfl, rfl, -⟩ : path = path' ∧ i = i' ∧ _ := by simpa [here] using here'
    exact names
  | hit t l info here cached same => exact ⟨trivial, current.setLook trivial⟩
  | miss t l here other =>
    have now : l.version = s.disk.version l.ino ∧ _ := current.look_eq here
    exact ⟨trivial, current.setLook now⟩
  | inodeHit t l sum here cached =>
    obtain ⟨now, still⟩ := current.look_eq here
    refine ⟨fun l' here' => ?_, current.setLook still⟩
    obtain rfl : l = l' := by simpa [here] using here'
    rw [now, current.recorded l.ino (by simp [cached])]
  | inodeMiss t l here absent =>
    obtain ⟨now, still⟩ := current.look_eq here
    exact ⟨trivial, current.setLook ⟨now, rfl, still⟩⟩
  | read t l version bytes chunk here some there =>
    have now : l.version = s.disk.version l.ino ∧ _ := current.look_eq here
    exact ⟨trivial, current.setLook now⟩
  | eof t l version bytes here end_ =>
    have now : l.version = s.disk.version l.ino ∧ _ := current.look_eq here
    exact ⟨trivial, current.setLook now⟩
  | update t l version sum here =>
    obtain ⟨-, now, still⟩ := current.look_eq here
    refine ⟨trivial, (current.insertIno now).setLook ?_⟩
    rw [insertIno_disk]
    exact still
  | store t l sum here =>
    have stored : (s.setCache l.path ⟨l.size, l.mtime, sum⟩).Current :=
      ⟨current.recorded, current.look⟩
    exact ⟨trivial, stored.setLook trivial⟩
  | throw t => exact ⟨trivial, current.setLook trivial⟩

theorem QuietRun.careful (run : QuietRun sha s0 s) (current : s0.Current) :
    CarefulRun sha s0 s ∧ s.Current := by
  induction run with
  | refl => exact ⟨.refl, current⟩
  | tail _ step ih =>
    obtain ⟨a, step, quiet⟩ := step
    obtain ⟨careful, current⟩ := step.current quiet ih.2
    exact ⟨ih.1.tail ⟨a, step, careful⟩, current⟩

end

end World

namespace Machine

variable {S : Sqlite} {m m' : Machine I D} {source : Option D} {cache : Path → Option FileInfo}

section
variable [DecidableEq I] [DecidableEq D]

theorem Lives.mono {Runs Runs' : ∀ (T : Type) [DecidableEq T], World I T → World I T → Prop}
    (weaker : ∀ (T : Type) [DecidableEq T] d cache s, Runs T (.begin d cache) s →
      Runs' T (.begin d cache) s) (lives : Lives S Runs m m') : Lives S Runs' m m' := by
  induction lives with
  | refl => exact .refl
  | tail _ step ih =>
    cases step with
    | change d h => exact ih.tail (.change d h)
    | quit loads run => exact ih.tail (.quit loads (weaker _ _ _ _ run))
    | dump loads run lists target failing stores =>
      exact ih.tail (.dump loads (weaker _ _ _ _ run) lists target failing stores)
    | torn loads run lists target sub left =>
      exact ih.tail (.torn loads (weaker _ _ _ _ run) lists target sub left)
    | other target db same => exact ih.tail (.other target db same)

variable [DecidableEq T]

/-- If files change only between programs, every lookup of every program returns the
checksum of the file. -/
theorem quiet_lifetimes_serve (pristine : m.Pristine)
    (lives : Lives S (fun _ _ => World.QuietRun sha) m m') (loads : Loads S m' source cache)
    {s s' : World I T} (run : World.QuietRun sha (.begin m'.disk cache) s) {a : World.Action T}
    (step : World.Step sha s a s') {path : Path} {opened : ℕ} {sum : Cksum}
    (ends : s.Returns path opened sum a) :
    ∃ file, s.disk.yields path = some file ∧ sum = checksum sha file.content := by
  have before : Lives S (fun _ _ => World.CarefulRun sha) m m' :=
    lives.mono fun T _ d cache s run => (run.careful World.begin_current).1
  obtain ⟨careful, current⟩ := run.careful World.begin_current
  have acc := careful.accurate (loads.accurate (before.trusted pristine.trusted))
  exact step.returns ends (current.undisturbed ends) acc

end

end Machine

end

/-! ## Two programs -/

/-- The machine with the file, before the first program. -/
def oneFileMachine : Machine ℕ Unit := ⟨oneFile.disk, fun _ => ∅⟩

theorem oneFileMachine_pristine : oneFileMachine.Pristine where
  known := oneFile_initial.seen
  empty _ := rfl

/-- The cache after a lookup of the file. -/
def oneFileMap : CacheMap where
  entries := [(bytes "f", ⟨1, 1, 0xfca7a5fa37e4f786⟩)]
  distinct := List.nodup_singleton _
  plain := by decide +kernel

theorem oneFileMap_lists : oneFileMap.Lists oneFileRead.cache := by
  apply CacheMap.lists_single (p := ["f"]) (by decide) rfl
  intro p
  by_cases here : p = ["f"]
  · subst here
    rfl
  · rw [if_neg here]
    exact Function.update_of_ne here _ _

theorem lifetimes_serve_oneFile : ∃ (m : Machine ℕ Unit) (cache : Path → Option FileInfo),
    m.Loads .lastFirst (some ()) cache ∧ cache ["f"] = some ⟨1, 1, 0xfca7a5fa37e4f786⟩ ∧
      (World.begin m.disk cache : World ℕ Unit).Serves shaOfLetter := by
  obtain ⟨-, dumps⟩ := Machine.lifetimes_serve (S := .lastFirst) oneFileMachine_pristine .refl
    .nothing oneFile_run
  have free : ¬Sql.Database.Referenced (V := Value) ∅ "FileList" := by
    rintro ⟨table, there, -⟩
    exact absurd there (by simp)
  obtain ⟨c', stored⟩ := @storeCksums_on oneFileMap ⟨∅, none, none⟩ rfl rfl free
  have loads := dumps oneFileMap () c' oneFileMap_lists stored
  have lives : Machine.Lives .lastFirst (fun _ _ => World.CarefulRun shaOfLetter) oneFileMachine
      ⟨oneFileRead.disk, Function.update oneFileMachine.db () c'.durable⟩ :=
    .single (.dump .nothing oneFile_run oneFileMap_lists () none (congrArg Prod.snd stored))
  exact ⟨_, _, loads, rfl, (Machine.lifetimes_serve oneFileMachine_pristine lives loads .refl).1⟩

/-- A program reads the file, and no file changes. -/
theorem oneFile_quiet : ∃ s, World.QuietRun shaOfLetter oneFile s ∧ s.disk = oneFile.disk ∧
    s.cache = oneFileRead.cache := by
  have r1 : World.QuietRun shaOfLetter oneFile _ :=
    .single ⟨_, .open () ["f"] 0 rfl rfl, by simp⟩
  have r2 := r1.tail ⟨_, .fstat () _ _ _ rfl, by simp⟩
  have r3 := r2.tail ⟨_, .miss () _ rfl (fun _ h => by cases h), by simp⟩
  have r4 := r3.tail ⟨_, .inodeMiss () _ rfl rfl, by simp⟩
  have r5 := r4.tail ⟨_, .read () _ _ [] [97] rfl (by simp) (List.prefix_refl _), by simp⟩
  have r6 := r5.tail ⟨_, .eof () _ _ _ rfl rfl, by simp⟩
  have r7 := r6.tail ⟨_, .update () _ _ _ rfl, by simp⟩
  exact ⟨_, r7.tail ⟨_, .store () _ _ rfl, by simp⟩, rfl, rfl⟩

/-- The first program dumps what it has read, and the second one finds it. -/
theorem quiet_lifetimes_serve_oneFile : ∃ (m : Machine ℕ Unit) (cache : Path → Option FileInfo)
    (s s' : World ℕ Unit), cache ["f"] = some ⟨1, 1, 0xfca7a5fa37e4f786⟩ ∧
      Machine.Lives .lastFirst (fun _ _ => World.QuietRun shaOfLetter) oneFileMachine m ∧
      m.Loads .lastFirst (some ()) cache ∧ World.QuietRun shaOfLetter (.begin m.disk cache) s ∧
      World.Step shaOfLetter s (.hit ()) s' ∧
      ∃ file, s.disk.yields ["f"] = some file ∧
        0xfca7a5fa37e4f786 = checksum shaOfLetter file.content := by
  obtain ⟨s, quiet, disk, cached⟩ := oneFile_quiet
  have lists : oneFileMap.Lists s.cache := cached ▸ oneFileMap_lists
  have free : ¬Sql.Database.Referenced (V := Value) ∅ "FileList" := by
    rintro ⟨table, there, -⟩
    exact absurd there (by simp)
  obtain ⟨c', stored⟩ := @storeCksums_on oneFileMap ⟨∅, none, none⟩ rfl rfl free
  have lives : Machine.Lives .lastFirst (fun _ _ => World.QuietRun shaOfLetter) oneFileMachine
      ⟨s.disk, Function.update oneFileMachine.db () c'.durable⟩ :=
    .single (.dump .nothing quiet lists () none (congrArg Prod.snd stored))
  have loads : Machine.Loads .lastFirst (⟨s.disk, Function.update oneFileMachine.db () c'.durable⟩ :
      Machine ℕ Unit) (some ()) s.cache :=
    Machine.loads_stored lists stored rfl
  rw [disk] at lives
  rw [disk, cached] at loads
  obtain ⟨s₂, r2, look, known⟩ : ∃ s₂ : World ℕ Unit,
      World.QuietRun shaOfLetter (.begin oneFile.disk oneFileRead.cache) s₂ ∧
      s₂.look () = .statted ⟨["f"], 0, 1, 1, 0, 0⟩ ∧
      s₂.cache ["f"] = some ⟨1, 1, 0xfca7a5fa37e4f786⟩ := by
    have r1 : World.QuietRun shaOfLetter (.begin oneFile.disk oneFileRead.cache) _ :=
      .single ⟨_, .open () ["f"] 0 rfl rfl, by simp⟩
    exact ⟨_, r1.tail ⟨_, .fstat () _ _ _ rfl, by simp⟩, rfl, rfl⟩
  have hit : World.Step shaOfLetter s₂ (.hit ()) _ := .hit () _ _ look known ⟨rfl, rfl⟩
  exact ⟨_, _, s₂, _, rfl, lives, loads, r2, hit,
    Machine.quiet_lifetimes_serve oneFileMachine_pristine lives loads r2 hit
      ⟨_, _, look, known, rfl, rfl, rfl⟩⟩

end Dupa
