import Dupa.Lifetimes

/-!
# Files that are known

A file that is in the cache under its size and mtime is not read, and it stays in the cache.
So once a lookup has returned and the cache has been dumped, programs that begin with the
dumped cache and dump it again never read the file, as long as it stays as it is
(`read_once`).
-/

namespace Dupa

open Session

section
variable {I D T : Type} {sha : List UInt8 → Cksum} {p : Path} {i : I} {stamp : Int64 × Int64}
  {info : FileInfo}

/-! ## One program -/

namespace Disk

/-- The path names an inode of this size and mtime. -/
def Shows (d : Disk I) (p : Path) (i : I) (stamp : Int64 × Int64) : Prop :=
  d.names p = some i ∧ (d.inode i).stamp = stamp

/-- The path keeps its inode, and that its size and its mtime. -/
def Spares (d d' : Disk I) (p : Path) : Prop :=
  d'.names p = d.names p ∧ ∀ i, d.names p = some i → (d'.inode i).stamp = (d.inode i).stamp

theorem Shows.spared {d d' : Disk I} (shows : d.Shows p i stamp) (spares : d.Spares d' p) :
    d'.Shows p i stamp :=
  ⟨spares.1.trans shows.1, (spares.2 i shows.1).trans shows.2⟩

end Disk

/-- A thread in a lookup of the path has found the size and the mtime it has. -/
def Look.Shown (p : Path) (i : I) (stamp : Int64 × Int64) : Look I → Prop
  | .idle => True
  | .opened path j _ => path = p → j = i
  | .statted l | .missed l | .reading l _ _ | .computed l _ _ | .summed l _ =>
    l.path = p → l.stamp = stamp

/-- The thread has not found the path in the cache. -/
def Look.Missed (p : Path) : Look I → Prop
  | .idle | .opened _ _ _ | .statted _ => False
  | .missed l | .reading l _ _ | .computed l _ _ | .summed l _ => l.path = p

namespace World

structure Shows (p : Path) (i : I) (stamp : Int64 × Int64) (s : World I T) : Prop where
  disk : s.disk.Shows p i stamp
  look : ∀ t, (s.look t).Shown p i stamp

/-- The path is cached under this size and mtime. -/
def Caches (p : Path) (stamp : Int64 × Int64) (s : World I T) : Prop :=
  ∃ info, s.cache p = some info ∧ (info.size, info.mtime) = stamp

/-- The path has an entry, and no thread has missed it. -/
structure Knows (p : Path) (info : FileInfo) (s : World I T) : Prop where
  cached : s.cache p = some info
  look : ∀ t, ¬(s.look t).Missed p

variable {s s' s0 : World I T} {t : T} {a : Action T} {opened : ℕ} {sum : Cksum} {d : Disk I}
  {cache : Path → Option FileInfo}

theorem begin_shows (shows : d.Shows p i stamp) :
    (begin d cache : World I T).Shows p i stamp where
  disk := shows
  look _ := trivial

theorem begin_knows (cached : cache p = some info) : (begin d cache : World I T).Knows p info where
  cached := cached
  look _ := id

theorem Shows.look_eq (shows : s.Shows p i stamp) {x : Look I} (here : s.look t = x) :
    x.Shown p i stamp := here ▸ shows.look t

theorem Knows.look_eq (knows : s.Knows p info) {x : Look I} (here : s.look t = x) :
    ¬x.Missed p := here ▸ knows.look t

section
variable [DecidableEq I]

@[simp] theorem insertIno_look (j : I) (version : ℕ) : (s.insertIno j sum version).look = s.look := by
  cases h : s.inoCache j <;> simp [insertIno, h]

@[simp] theorem insertIno_cache (j : I) (version : ℕ) :
    (s.insertIno j sum version).cache = s.cache := by
  cases h : s.inoCache j <;> simp [insertIno, h]

end

section
variable [DecidableEq T]

theorem Shows.setLook (shows : s.Shows p i stamp) {x : Look I} (h : x.Shown p i stamp) :
    (s.setLook t x).Shows p i stamp where
  disk := shows.disk
  look u := by
    by_cases hu : u = t
    · subst hu
      simpa [World.setLook] using h
    · simpa [World.setLook, hu] using shows.look u

theorem Knows.setLook (knows : s.Knows p info) {x : Look I} (h : ¬x.Missed p) :
    (s.setLook t x).Knows p info where
  cached := knows.cached
  look u := by
    by_cases hu : u = t
    · subst hu
      simpa [World.setLook] using h
    · simpa [World.setLook, hu] using knows.look u

variable [DecidableEq I]

theorem Step.shows (step : Step sha s a s') (spares : s.disk.Spares s'.disk p)
    (shows : s.Shows p i stamp) : s'.Shows p i stamp := by
  cases step with
  | change d h => exact ⟨shows.disk.spared spares, shows.look⟩
  | «open» t path j here names =>
    refine shows.setLook fun same => ?_
    exact Option.some.inj ((same ▸ names).symm.trans shows.disk.1)
  | fstat t path j before here =>
    refine shows.setLook fun same => ?_
    obtain rfl : j = i := shows.look_eq here same
    exact shows.disk.2
  | hit | throw => exact shows.setLook trivial
  | miss t l here | inodeHit t l _ here | inodeMiss t l here | read t l _ _ _ here
  | eof t l _ _ here =>
    have found : l.path = p → l.stamp = stamp := shows.look_eq here
    exact shows.setLook found
  | update t l version sum here =>
    have found : l.path = p → l.stamp = stamp := shows.look_eq here
    have same : (s.insertIno l.ino sum version).Shows p i stamp := by
      refine ⟨?_, ?_⟩
      · rw [insertIno_disk]
        exact shows.disk
      · rw [insertIno_look]
        exact shows.look
    exact same.setLook found
  | store t l sum here =>
    have same : (s.setCache l.path ⟨l.size, l.mtime, sum⟩).Shows p i stamp := ⟨shows.disk, shows.look⟩
    exact same.setLook trivial

/-- What is cached under the stamp that the path shows stays so. -/
theorem Step.caches (step : Step sha s a s') (shows : s.Shows p i stamp) (caches : s.Caches p stamp) :
    s'.Caches p stamp := by
  cases step with
  | change | «open» | fstat | hit | miss | inodeHit | inodeMiss | read | eof | throw => exact caches
  | update t l version sum here =>
    obtain ⟨info, cached, same⟩ := caches
    refine ⟨info, ?_, same⟩
    change (s.insertIno l.ino sum version).cache p = some info
    rwa [insertIno_cache]
  | store t l sum here =>
    obtain ⟨info, cached, same⟩ := caches
    rcases eq_or_ne l.path p with rfl | other
    · exact ⟨_, Function.update_self .., shows.look_eq here rfl⟩
    · exact ⟨info, (Function.update_of_ne other.symm ..).trans cached, same⟩

/-- A lookup that returns leaves the path cached under the stamp that it shows. -/
theorem Step.caches_of_returns (step : Step sha s a s') (shows : s.Shows p i stamp)
    (ends : s.Returns p opened sum a) : s'.Caches p stamp := by
  cases step with
  | hit t l info here cached same =>
    obtain ⟨l', info', here', cached', rfl, -, -⟩ := ends
    obtain rfl : l = l' := by simpa [here] using here'
    refine ⟨info, cached, ?_⟩
    rw [same.1, same.2]
    exact shows.look_eq here rfl
  | store t l sum' here =>
    obtain ⟨l', here', rfl, -⟩ := ends
    obtain ⟨rfl, rfl⟩ : l = l' ∧ _ := by simpa [here] using here'
    exact ⟨_, Function.update_self .., shows.look_eq here rfl⟩
  | _ => cases ends

/-- No lookup misses a path that is cached under the stamp that it shows. -/
theorem Step.knows (step : Step sha s a s') (shows : s.Shows p i (info.size, info.mtime))
    (knows : s.Knows p info) : s'.Knows p info := by
  cases step with
  | change => exact ⟨knows.cached, knows.look⟩
  | «open» | fstat | hit | throw => exact knows.setLook id
  | miss t l here other =>
    refine knows.setLook fun path => ?_
    have found : l.stamp = (info.size, info.mtime) := shows.look_eq here path
    obtain ⟨size, mtime⟩ := Prod.mk.inj found
    exact other info (path ▸ knows.cached) ⟨size.symm, mtime.symm⟩
  | inodeHit t l _ here | inodeMiss t l here | read t l _ _ _ here | eof t l _ _ here =>
    have other : ¬l.path = p := knows.look_eq here
    exact knows.setLook other
  | update t l version sum here =>
    have other : ¬l.path = p := knows.look_eq here
    have same : (s.insertIno l.ino sum version).Knows p info := by
      refine ⟨?_, ?_⟩
      · rw [insertIno_cache]
        exact knows.cached
      · rw [insertIno_look]
        exact knows.look
    exact same.setLook other
  | store t l sum here =>
    have other : ¬l.path = p := knows.look_eq here
    have same : (s.setCache l.path ⟨l.size, l.mtime, sum⟩).Knows p info :=
      ⟨(Function.update_of_ne (Ne.symm other) ..).trans knows.cached, knows.look⟩
    exact same.setLook id

theorem Step.spares_of_returns (step : Step sha s a s') (ends : s.Returns p opened sum a) :
    s.disk.Spares s'.disk p := by
  cases step with
  | hit | store => exact ⟨rfl, fun _ _ => rfl⟩
  | _ => cases ends

theorem Knows.returns (step : Step sha s a s') (knows : s.Knows p info)
    (ends : s.Returns p opened sum a) : sum = info.sum := by
  cases step with
  | hit t l info' here cached same =>
    obtain ⟨l', info', here', cached', rfl, -, rfl⟩ := ends
    rw [knows.cached] at cached'
    exact congrArg FileInfo.sum (Option.some.inj cached').symm
  | store t l sum' here =>
    obtain ⟨l', here', same, -⟩ := ends
    have other : ¬l'.path = p := knows.look_eq here'
    exact absurd same other
  | _ => cases ends

end

section
variable [DecidableEq I] [DecidableEq T]

/-- Any interleaving of threads and changes, but what the path shows is kept. -/
def SparingRun (sha : List UInt8 → Cksum) (p : Path) : World I T → World I T → Prop :=
  Relation.ReflTransGen fun s s' => ∃ a, Step sha s a s' ∧ s.disk.Spares s'.disk p

theorem SparingRun.shows (run : SparingRun sha p s s') (shows : s.Shows p i stamp) :
    s'.Shows p i stamp := by
  induction run with
  | refl => exact shows
  | tail _ step ih =>
    obtain ⟨a, step, spares⟩ := step
    exact step.shows spares ih

theorem SparingRun.caches (run : SparingRun sha p s s') (shows : s.Shows p i stamp)
    (caches : s.Caches p stamp) : s'.Caches p stamp := by
  induction run with
  | refl => exact caches
  | tail before step ih =>
    obtain ⟨a, step, -⟩ := step
    exact step.caches (SparingRun.shows before shows) ih

theorem SparingRun.knows (run : SparingRun sha p s s') (shows : s.Shows p i (info.size, info.mtime))
    (knows : s.Knows p info) : s'.Knows p info := by
  induction run with
  | refl => exact knows
  | tail before step ih =>
    obtain ⟨a, step, -⟩ := step
    exact step.knows (SparingRun.shows before shows) ih

end

end World

/-! ## Programs -/

namespace Machine

variable {S : Sqlite} {m m' : Machine I D} {source : Option D} {target : D}
  {cache cache' : Path → Option FileInfo}

/-- A database is read in one way. -/
theorem Loads.unique (loads : Loads S m source cache) (loads' : Loads S m source cache') :
    cache = cache' := by
  cases loads with
  | nothing =>
    cases loads'
    rfl
  | read source found turns reads =>
    cases loads' with
    | read _ found' turns' reads' =>
      have same := (reads (turns + turns' + 1) (by omega)).symm.trans
        (reads' (turns + turns' + 1) (by omega))
      rw [Except.ok.inj same]

theorem Loads.of_same {d : Disk I} {db : D → Sql.Database Value} (same : db target = m.db target)
    (loads : Loads S ⟨d, db⟩ (some target) cache) : Loads S m (some target) cache := by
  cases loads with
  | read _ found turns reads => exact .read target found turns (same ▸ reads)

/-- Programs that begin with the cache in the database know the path. -/
def Remembers (S : Sqlite) (m : Machine I D) (target : D) (p : Path) (info : FileInfo) : Prop :=
  ∀ cache, Loads S m (some target) cache → cache p = some info

section
variable [DecidableEq I] [DecidableEq D]

/-- A program that dumps into the database has begun with it, the dump is complete, and
what the path shows is kept. -/
inductive Round (S : Sqlite) (sha : List UInt8 → Cksum) (p : Path) (target : D) (m : Machine I D) :
    Machine I D → Prop where
  | change (d : Disk I) (h : m.disk.Change d) (spares : m.disk.Spares d p) :
      Round S sha p target m { m with disk := d }
  /-- A program dumps nothing, or into another database. -/
  | elsewhere {T : Type} [DecidableEq T] {source : Option D} {cache : Path → Option FileInfo}
      {s : World I T} (loads : Loads S m source cache)
      (run : World.SparingRun sha p (.begin m.disk cache) s) {db : D → Sql.Database Value}
      (same : db target = m.db target) : Round S sha p target m ⟨s.disk, db⟩
  | again {T : Type} [DecidableEq T] {cache : Path → Option FileInfo} {s : World I T}
      (loads : Loads S m (some target) cache)
      (run : World.SparingRun sha p (.begin m.disk cache) s) {map : CacheMap}
      (lists : map.Lists s.cache) {failing : Option ℕ} {c' : Sql.Connection Value}
      (stored : (storeCksums map.entries).on ⟨m.db target, none, failing⟩ = (.ok (), c')) :
      Round S sha p target m ⟨s.disk, Function.update m.db target c'.durable⟩

theorem Round.remembers (round : Round S sha p target m m')
    (shows : m.disk.Shows p i (info.size, info.mtime)) (remembers : m.Remembers S target p info) :
    m'.disk.Shows p i (info.size, info.mtime) ∧ m'.Remembers S target p info := by
  cases round with
  | change d h spares =>
    exact ⟨shows.spared spares, fun cache loads => remembers cache (loads.of_same rfl)⟩
  | elsewhere loads run same =>
    exact ⟨(run.shows (World.begin_shows shows)).disk,
      fun cache loads => remembers cache (loads.of_same same)⟩
  | again loads run lists stored =>
    have kept := run.knows (World.begin_shows shows) (World.begin_knows (remembers _ loads))
    refine ⟨(run.shows (World.begin_shows shows)).disk, fun cache loads' => ?_⟩
    rw [loads'.unique (loads_stored lists stored (Function.update_self ..))]
    exact kept.cached

theorem Rounds.remembers (rounds : Relation.ReflTransGen (Round S sha p target) m m')
    (shows : m.disk.Shows p i (info.size, info.mtime)) (remembers : m.Remembers S target p info) :
    m'.disk.Shows p i (info.size, info.mtime) ∧ m'.Remembers S target p info := by
  induction rounds with
  | refl => exact ⟨shows, remembers⟩
  | tail _ round ih => exact round.remembers ih.1 ih.2

variable [DecidableEq T]

/-- After a lookup of a file has returned in a program that dumped its cache, no program
that begins with the dumped cache reads the file, whatever programs have run meanwhile and
whichever of them have dumped this cache again, as long as the path shows the same. -/
theorem read_once (shows : m.disk.Shows p i stamp) {s₁ s₂ s₃ : World I T}
    (run : World.SparingRun sha p (.begin m.disk cache) s₁) {a : World.Action T}
    (step : World.Step sha s₁ a s₂) {opened : ℕ} {sum : Cksum}
    (ends : s₁.Returns p opened sum a) (run' : World.SparingRun sha p s₂ s₃) {map : CacheMap}
    (lists : map.Lists s₃.cache) {failing : Option ℕ} {c' : Sql.Connection Value}
    (stored : (storeCksums map.entries).on ⟨m.db target, none, failing⟩ = (.ok (), c')) :
    ∃ info : FileInfo, (info.size, info.mtime) = stamp ∧ ∀ m' : Machine I D,
      Relation.ReflTransGen (Round S sha p target)
        ⟨s₃.disk, Function.update m.db target c'.durable⟩ m' →
      ∀ cache', Loads S m' (some target) cache' → ∀ (T' : Type) [DecidableEq T'] (s : World I T'),
      World.SparingRun sha p (.begin m'.disk cache') s →
        s.Knows p info ∧ ∀ a s' opened' sum', World.Step sha s a s' →
          s.Returns p opened' sum' a → sum' = info.sum := by
  have shows₁ := run.shows (World.begin_shows shows)
  have shows₂ := step.shows (step.spares_of_returns ends) shows₁
  obtain ⟨info, cached, rfl⟩ := run'.caches shows₂ (step.caches_of_returns shows₁ ends)
  refine ⟨info, rfl, fun m' rounds cache' loads' T' _ s later => ?_⟩
  have first :
      Machine.Remembers S ⟨s₃.disk, Function.update m.db target c'.durable⟩ target p info := by
    intro cache'' loads''
    rw [loads''.unique (loads_stored lists stored (Function.update_self ..))]
    exact cached
  obtain ⟨shown, remembers⟩ := Rounds.remembers rounds (run'.shows shows₂).disk first
  have knows := later.knows (World.begin_shows shown) (World.begin_knows (remembers cache' loads'))
  exact ⟨knows, fun a s' opened' sum' step ends => knows.returns step ends⟩

end

end Machine

end

theorem read_once_oneFile : ∃ (m : Machine ℕ Unit) (cache : Path → Option FileInfo),
    m.Loads .lastFirst (some ()) cache ∧ cache ["f"] = some ⟨1, 1, 0xfca7a5fa37e4f786⟩ ∧
      ∀ s : World ℕ Unit, World.SparingRun shaOfLetter ["f"] (.begin m.disk cache) s →
        ∀ t, ¬(s.look t).Missed ["f"] := by
  have kept : ∀ {d : Disk ℕ}, d.Spares d ["f"] := ⟨rfl, fun _ _ => rfl⟩
  have r1 : World.SparingRun shaOfLetter ["f"] (.begin oneFileMachine.disk fun _ => none) _ :=
    .single ⟨_, .open () ["f"] 0 rfl rfl, kept⟩
  have r2 := r1.tail ⟨_, .fstat () _ _ _ rfl, kept⟩
  have r3 := r2.tail ⟨_, .miss () _ rfl (fun _ h => by cases h), kept⟩
  have r4 := r3.tail ⟨_, .inodeMiss () _ rfl rfl, kept⟩
  have r5 := r4.tail ⟨_, .read () _ _ [] [97] rfl (by simp) (List.prefix_refl _), kept⟩
  have r6 := r5.tail ⟨_, .eof () _ _ _ rfl rfl, kept⟩
  have r7 := r6.tail ⟨_, .update () _ _ _ rfl, kept⟩
  have free : ¬Sql.Database.Referenced (V := Value) ∅ "FileList" := by
    rintro ⟨table, there, -⟩
    exact absurd there (by simp)
  obtain ⟨c', stored⟩ : ∃ c', (storeCksums oneFileMap.entries).on
      ⟨oneFileMachine.db (), none, none⟩ = (.ok (), c') :=
    @storeCksums_on oneFileMap ⟨∅, none, none⟩ rfl rfl free
  have shows : oneFileMachine.disk.Shows ["f"] 0 (1, 1) := ⟨rfl, rfl⟩
  obtain ⟨info, same, knows⟩ := Machine.read_once (S := .lastFirst) shows r7 (.store () _ _ rfl)
    ⟨_, rfl, rfl, rfl⟩ .refl oneFileMap_lists stored
  have loads : Machine.Loads .lastFirst
      (⟨oneFileRead.disk, Function.update oneFileMachine.db () c'.durable⟩ : Machine ℕ Unit) (some ())
      oneFileRead.cache :=
    Machine.loads_stored oneFileMap_lists stored rfl
  exact ⟨_, _, loads, rfl, fun s run => (knows _ .refl _ loads Unit s run).1.look⟩

end Dupa
