import Dupa.HashCache
import Dupa.Inputs

/-!
# Lookups while files change

A stamp that a path has shown is never shown there again for another content, so an
entry under such a stamp stays right. The inode cache has no stamps: its entries are
right for the version of the inode that was read.
-/

namespace Dupa

section
variable {I T : Type} {sha : List UInt8 → Cksum}

/-! ## Changes -/

namespace Disk

/-- What the paths yield has been seen there. -/
def Known (d : Disk I) : Prop :=
  ∀ p file, d.yields p = some file → file.stamp ∈ d.seen p

/-- What any number of changes does. -/
structure Evolves (d d' : Disk I) : Prop where
  known : d.Known → d'.Known
  seen : ∀ p, d.seen p ⊆ d'.seen p
  version : ∀ i, d.version i ≤ d'.version i
  inode : ∀ i, d'.version i = d.version i → d'.inode i = d.inode i
  changes : d.changes < d'.changes
  /-- What is not new at a path has not changed. -/
  old : ∀ p file, d'.yields p = some file → file.stamp ∈ d.seen p →
    ∃ i, d'.names p = some i ∧ d.names p = some i ∧ d'.version i = d.version i

variable {d d' : Disk I} {path : Path} {file : Stored} {i : I}

theorem yields_eq_some : d.yields path = some file ↔
    ∃ i, d.names path = some i ∧ d.inode i = file := by
  simp [yields]

theorem Change.evolves [DecidableEq I] (h : d.Change d') : d.Evolves d' := by
  cases h with
  | rewrite i file new fresh =>
    refine ⟨fun known p there h => ?_, fun p => ?_, fun j => ?_, fun j same => ?_,
      Nat.lt_succ_self _, fun p there h old => ?_⟩
    · obtain ⟨j, names, rfl⟩ := yields_eq_some.mp h
      by_cases hj : j = i
      · subst hj
        have names : d.names p = some j := names
        simp [Disk.rewrite, names]
      · have names : d.names p = some j := names
        simpa [Disk.rewrite, names, hj] using known p _ (yields_eq_some.mpr ⟨j, names, rfl⟩)
    · by_cases names : d.names p = some i
      · simp [Disk.rewrite, names]
      · simp [Disk.rewrite, names]
    · by_cases hj : j = i
      · simp [Disk.rewrite, hj]
      · simp [Disk.rewrite, hj]
    · by_cases hj : j = i
      · simp [Disk.rewrite, hj] at same
      · simp [Disk.rewrite, hj]
    · obtain ⟨j, names, rfl⟩ := yields_eq_some.mp h
      by_cases hj : j = i
      · subst hj
        exact absurd (by simpa [Disk.rewrite] using old) (fresh p names)
      · exact ⟨j, names, names, by simp [Disk.rewrite, hj]⟩
  | link path i fresh =>
    refine ⟨fun known p there h => ?_, fun p => ?_, fun j => le_refl _, fun j _ => rfl,
      Nat.lt_succ_self _, fun p there h old => ?_⟩
    · obtain ⟨j, names, rfl⟩ := yields_eq_some.mp h
      by_cases hp : p = path
      · obtain rfl : i = j := by simpa [Disk.link, hp] using names
        simp [Disk.link, hp]
      · have names : d.names p = some j := by simpa [Disk.link, hp] using names
        simpa [Disk.link, hp] using known p _ (yields_eq_some.mpr ⟨j, names, rfl⟩)
    · by_cases hp : p = path
      · simp [Disk.link, hp]
      · simp [Disk.link, hp]
    · obtain ⟨j, names, rfl⟩ := yields_eq_some.mp h
      by_cases hp : p = path
      · obtain rfl : i = j := by simpa [Disk.link, hp] using names
        exact absurd (hp ▸ old) fresh
      · exact ⟨j, names, by simpa [Disk.link, hp] using names, rfl⟩
  | unlink path =>
    have kept : ∀ {p j}, (d.unlink path).names p = some j → d.names p = some j := by
      intro p j names
      by_cases hp : p = path
      · simp [Disk.unlink, hp] at names
      · simpa [Disk.unlink, hp] using names
    refine ⟨fun known p there h => ?_, fun p => subset_rfl, fun j => le_refl _, fun j _ => rfl,
      Nat.lt_succ_self _, fun p there h _ => ?_⟩
    · obtain ⟨j, names, rfl⟩ := yields_eq_some.mp h
      exact known p _ (yields_eq_some.mpr ⟨j, kept names, rfl⟩)
    · obtain ⟨j, names, rfl⟩ := yields_eq_some.mp h
      exact ⟨j, names, kept names, rfl⟩

/-! ## What stays right -/

/-- The sum is right for what the path yields, if that has the stamp. -/
def Holds (sha : List UInt8 → Cksum) (d : Disk I) (path : Path) (stamp : Int64 × Int64)
    (sum : Cksum) : Prop :=
  ∀ file, d.yields path = some file → file.stamp = stamp → sum = checksum sha file.content

/-- `P` is true of the content, unless the inode has changed since `version`. -/
def Since (d : Disk I) (i : I) (version : ℕ) (P : List UInt8 → Prop) : Prop :=
  version ≤ d.version i ∧ (version = d.version i → P (d.inode i).content)

/-- What a lookup found at `fstat` still is what the path yields, unless the path
yields something with another stamp. -/
structure Tracks (d : Disk I) (l : Lookup I) : Prop where
  opened : l.opened ≤ d.changes
  still : l.opened = d.changes → d.names l.path = some l.ino ∧ (d.inode l.ino).stamp = l.stamp
  seen : l.stamp ∈ d.seen l.path
  version : l.version ≤ d.version l.ino
  same : ∀ file, d.yields l.path = some file → file.stamp = l.stamp →
    d.names l.path = some l.ino ∧ d.version l.ino = l.version

variable {stamp : Int64 × Int64} {sum : Cksum} {version : ℕ} {P : List UInt8 → Prop}
  {l : Lookup I}

theorem Evolves.holds (e : d.Evolves d') (seen : stamp ∈ d.seen path)
    (h : d.Holds sha path stamp sum) : d'.Holds sha path stamp sum := by
  rintro file there rfl
  obtain ⟨i, names', names, version⟩ := e.old path file there seen
  obtain ⟨j, names'', rfl⟩ := yields_eq_some.mp there
  obtain rfl := Option.some.inj (names'.symm.trans names'')
  rw [e.inode i version] at seen ⊢
  exact h _ (yields_eq_some.mpr ⟨i, names, rfl⟩) (by rw [e.inode i version])

theorem Evolves.since (e : d.Evolves d') (h : d.Since i version P) : d'.Since i version P := by
  refine ⟨h.1.trans (e.version i), fun same => ?_⟩
  have unchanged : d'.version i = d.version i :=
    le_antisymm (same ▸ h.1) (e.version i)
  rw [e.inode i unchanged]
  exact h.2 (same.trans unchanged)

theorem Evolves.tracks (e : d.Evolves d') (h : d.Tracks l) : d'.Tracks l where
  opened := h.opened.trans e.changes.le
  still same := absurd (same ▸ h.opened) (Nat.not_le.mpr e.changes)
  seen := e.seen _ h.seen
  version := h.version.trans (e.version _)
  same := by
    intro file there stamp
    obtain ⟨i, names', names, version⟩ := e.old _ file there (stamp ▸ h.seen)
    obtain ⟨j, names'', rfl⟩ := yields_eq_some.mp there
    obtain rfl := Option.some.inj (names'.symm.trans names'')
    rw [e.inode i version] at stamp
    obtain ⟨named, current⟩ := h.same _ (yields_eq_some.mpr ⟨i, names, rfl⟩) stamp
    obtain rfl := Option.some.inj (names.symm.trans named)
    exact ⟨names', version.trans current⟩

/-- A sum that was read after `fstat` is right for the stamp. -/
theorem Tracks.holds (h : d.Tracks l) (later : l.version ≤ version)
    (read : d.Since l.ino version fun content => sum = checksum sha content) :
    d.Holds sha l.path l.stamp sum := by
  intro file there stamp
  obtain ⟨names, current⟩ := h.same file there stamp
  obtain ⟨j, names', rfl⟩ := yields_eq_some.mp there
  obtain rfl := Option.some.inj (names.symm.trans names')
  exact read.2 (le_antisymm read.1 (current ▸ later))

theorem Tracks.yields (h : d.Tracks l) (undisturbed : l.opened = d.changes) :
    d.yields l.path = some (d.inode l.ino) ∧ (d.inode l.ino).stamp = l.stamp := by
  obtain ⟨names, stamp⟩ := h.still undisturbed
  exact ⟨yields_eq_some.mpr ⟨_, names, rfl⟩, stamp⟩

end Disk

/-! ## Lookups -/

/-- What is true of a thread in a lookup. -/
def Look.Right (sha : List UInt8 → Cksum) (d : Disk I) : Look I → Prop
  | .idle => True
  | .opened path i before => before ≤ d.changes ∧ (before = d.changes → d.names path = some i)
  | .statted l => d.Tracks l
  | .missed l => d.Tracks l
  | .reading l version bytes =>
      d.Tracks l ∧ l.version ≤ version ∧ d.Since l.ino version (bytes <+: ·)
  | .computed l version sum =>
      d.Tracks l ∧ l.version ≤ version ∧ d.Since l.ino version (sum = checksum sha ·)
  | .summed l sum => d.Tracks l ∧ d.Holds sha l.path l.stamp sum

theorem Disk.Evolves.right {d d' : Disk I} (e : d.Evolves d') {x : Look I}
    (h : x.Right sha d) : x.Right sha d' := by
  cases x with
  | idle => trivial
  | opened path i before =>
    exact ⟨h.1.trans e.changes.le, fun same => absurd (same ▸ h.1) (Nat.not_le.mpr e.changes)⟩
  | statted l => exact e.tracks (l := l) h
  | missed l => exact e.tracks (l := l) h
  | reading l version bytes | computed l version sum =>
    exact ⟨e.tracks h.1, h.2.1, e.since h.2.2⟩
  | summed l sum => exact ⟨e.tracks h.1, e.holds h.1.seen h.2⟩

namespace World

structure Accurate (sha : List UInt8 → Cksum) (s : World I T) : Prop where
  known : s.disk.Known
  seen : ∀ p info, s.cache p = some info → (info.size, info.mtime) ∈ s.disk.seen p
  cache : ∀ p info, s.cache p = some info →
    s.disk.Holds sha p (info.size, info.mtime) info.sum
  inoCache : ∀ i sum, s.inoCache i = some sum →
    s.disk.Since i (s.recorded i) (sum = checksum sha ·)
  look : ∀ t, (s.look t).Right sha s.disk

variable {s s' s0 : World I T} {t : T} {a : Action T} {path : Path} {opened : ℕ} {sum : Cksum}

theorem Initial.accurate_all (h : s.Initial sha) : s.Accurate sha where
  known := h.seen
  seen := h.cached
  cache p info cached file there stamp := h.accurate p info file cached there stamp
  inoCache i sum cached := by simp [h.inoCache i] at cached
  look t := by
    rw [h.idle t]
    exact True.intro

theorem Accurate.look_eq (acc : s.Accurate sha) {x : Look I} (here : s.look t = x) :
    x.Right sha s.disk := here ▸ acc.look t

theorem Accurate.change (acc : s.Accurate sha) {d : Disk I} (e : s.disk.Evolves d) :
    Accurate sha { s with disk := d } where
  known := e.known acc.known
  seen p info cached := e.seen p (acc.seen p info cached)
  cache p info cached := e.holds (acc.seen p info cached) (acc.cache p info cached)
  inoCache i sum cached := e.since (acc.inoCache i sum cached)
  look t := e.right (acc.look t)

theorem Accurate.setCache (acc : s.Accurate sha) {info : FileInfo}
    (seen : (info.size, info.mtime) ∈ s.disk.seen path)
    (holds : s.disk.Holds sha path (info.size, info.mtime) info.sum) :
    (s.setCache path info).Accurate sha where
  known := acc.known
  seen p info' cached := by
    by_cases hp : p = path
    · subst hp
      obtain rfl : info = info' := by simpa [World.setCache] using cached
      exact seen
    · exact acc.seen p info' (by simpa [World.setCache, hp] using cached)
  cache p info' cached := by
    by_cases hp : p = path
    · subst hp
      obtain rfl : info = info' := by simpa [World.setCache] using cached
      exact holds
    · exact acc.cache p info' (by simpa [World.setCache, hp] using cached)
  inoCache := acc.inoCache
  look := acc.look

theorem Accurate.insertIno [DecidableEq I] (acc : s.Accurate sha) {i : I} {version : ℕ}
    (read : s.disk.Since i version (sum = checksum sha ·)) :
    (s.insertIno i sum version).Accurate sha := by
  rw [World.insertIno]
  split
  · exact acc
  · refine ⟨acc.known, acc.seen, acc.cache, fun j sum' cached => ?_, acc.look⟩
    by_cases hj : j = i
    · subst hj
      obtain rfl : sum = sum' := by simpa using cached
      simpa using read
    · simpa [hj] using acc.inoCache j sum' (by simpa [hj] using cached)

section
variable [DecidableEq T]

theorem Accurate.setLook (acc : s.Accurate sha) {x : Look I} (h : x.Right sha s.disk) :
    (s.setLook t x).Accurate sha where
  known := acc.known
  seen := acc.seen
  cache := acc.cache
  inoCache := acc.inoCache
  look u := by
    by_cases hu : u = t
    · subst hu
      simpa [World.setLook] using h
    · simpa [World.setLook, hu] using acc.look u

variable [DecidableEq I]

theorem Step.accurate (h : Step sha s a s') (careful : s.Careful a) (acc : s.Accurate sha) :
    s'.Accurate sha := by
  cases h with
  | change d h => exact acc.change h.evolves
  | «open» t path i here names => exact acc.setLook ⟨le_refl _, fun _ => names⟩
  | fstat t path i before here =>
    obtain ⟨started, still⟩ := acc.look_eq here
    refine acc.setLook ⟨started, fun same => ⟨still same, rfl⟩, ?_, le_refl _, ?_⟩
    · rcases careful path i before here with names | ⟨seen, -⟩
      · exact acc.known path _ (Disk.yields_eq_some.mpr ⟨i, names, rfl⟩)
      · exact seen
    · intro file there stamp
      rcases careful path i before here with names | ⟨-, other⟩
      · exact ⟨names, rfl⟩
      · exact absurd stamp (other file there)
  | hit t l info here cached same => exact acc.setLook trivial
  | miss t l here other =>
    have tracks : s.disk.Tracks l := acc.look_eq here
    exact acc.setLook tracks
  | inodeHit t l sum here cached =>
    have tracks : s.disk.Tracks l := acc.look_eq here
    exact acc.setLook ⟨tracks, tracks.holds (careful l here) (acc.inoCache _ sum cached)⟩
  | inodeMiss t l here absent =>
    have tracks : s.disk.Tracks l := acc.look_eq here
    exact acc.setLook ⟨tracks, tracks.version, le_refl _, fun _ => List.nil_prefix⟩
  | read t l version bytes chunk here some there =>
    obtain ⟨tracks, later, since, begun⟩ := acc.look_eq here
    refine acc.setLook ⟨tracks, later, since, fun same => ?_⟩
    have whole := List.prefix_append_drop (begun same)
    change bytes ++ chunk <+: (s.disk.inode l.ino).content
    rw [whole]
    exact (List.prefix_append_right_inj bytes).mpr there
  | eof t l version bytes here end_ =>
    obtain ⟨tracks, later, since, begun⟩ := acc.look_eq here
    refine acc.setLook ⟨tracks, later, since, fun same => ?_⟩
    have whole := List.prefix_append_drop (begun same)
    rw [end_, List.append_nil] at whole
    rw [whole]
  | update t l version sum here =>
    obtain ⟨tracks, later, read⟩ := acc.look_eq here
    apply (acc.insertIno read).setLook
    rw [insertIno_disk]
    exact ⟨tracks, tracks.holds later read⟩
  | store t l sum here =>
    obtain ⟨tracks, holds⟩ := acc.look_eq here
    exact (acc.setCache tracks.seen holds).setLook trivial
  | throw t => exact acc.setLook trivial

/-- A lookup that ends undisturbed returns the checksum of the file. -/
theorem Step.returns (h : Step sha s a s') (ends : s.Returns path opened sum a)
    (undisturbed : opened = s.disk.changes) (acc : s.Accurate sha) :
    ∃ file, s.disk.yields path = some file ∧ sum = checksum sha file.content := by
  cases h with
  | hit t l info here cached same =>
    obtain ⟨l', info', here', cached', rfl, rfl, rfl⟩ := ends
    obtain rfl : l = l' := by simpa [here] using here'
    obtain rfl : info = info' := by simpa [cached] using cached'
    have tracks : s.disk.Tracks l := acc.look_eq here
    obtain ⟨there, stamp⟩ := tracks.yields undisturbed
    refine ⟨_, there, acc.cache _ _ cached _ there (stamp.trans ?_)⟩
    rw [Lookup.stamp, same.1, same.2]
  | store t l sum' here =>
    obtain ⟨l', here', rfl, rfl⟩ := ends
    obtain ⟨rfl, rfl⟩ : l = l' ∧ sum' = sum := by simpa [here] using here'
    obtain ⟨tracks, holds⟩ := acc.look_eq here
    obtain ⟨there, stamp⟩ := tracks.yields undisturbed
    exact ⟨_, there, holds _ there stamp⟩
  | _ => cases ends

theorem CarefulRun.accurate (run : CarefulRun sha s0 s) (acc : s0.Accurate sha) :
    s.Accurate sha := by
  induction run with
  | refl => exact acc
  | tail _ step ih =>
    obtain ⟨a, step, careful⟩ := step
    exact step.accurate careful ih

/-- What is cached, or stored, for a file as it is now, is its checksum, and so is
what a lookup returns that nothing disturbs. -/
structure Serves (sha : List UInt8 → Cksum) (s : World I T) : Prop where
  cache : ∀ path info file, s.cache path = some info → s.disk.yields path = some file →
    file.stamp = (info.size, info.mtime) → info.sum = checksum sha file.content
  rows : ∀ db : Db, db.Dumps s.cache → ∀ path info file, (path, info) ∈ db.entries →
    s.disk.yields path = some file → file.stamp = (info.size, info.mtime) →
    info.sum = checksum sha file.content
  returns : ∀ a s' path sum, Step sha s a s' → s.Returns path s.disk.changes sum a →
    ∃ file, s.disk.yields path = some file ∧ sum = checksum sha file.content

/-- Runs in which no lookup takes one file for another serve the checksums of the files. -/
theorem cache_accurate (initial : s0.Initial sha) (run : CarefulRun sha s0 s) :
    s.Serves sha := by
  have acc := run.accurate initial.accurate_all
  refine ⟨fun path info file cached => acc.cache path info cached file,
    fun db dumps path info file row => acc.cache path info ((dumps path info).mp row) file,
    fun a s' path sum step ends => step.returns ends rfl acc⟩

/-! ## Whole lookups -/

theorem CarefulRun.run (h : CarefulRun sha s0 s) : Run sha s0 s :=
  Relation.ReflTransGen.mono (fun _ _ ⟨a, step, _⟩ => ⟨a, step⟩) _ _ h

variable {i : I}

def Misses (s : World I T) (path : Path) (i : I) : Prop :=
  s.disk.names path = some i ∧ ∀ info, s.cache path = some info →
    ¬(info.size = (s.disk.inode i).size ∧ info.mtime = (s.disk.inode i).mtime)

/-- The entry of a lookup that returns `sum`. -/
def remember (s : World I T) (t : T) (path : Path) (i : I) (sum : Cksum) : World I T :=
  (s.setCache path ⟨(s.disk.inode i).size, (s.disk.inode i).mtime, sum⟩).setLook t .idle

def missed (s : World I T) (t : T) (path : Path) (i : I) : World I T :=
  s.setLook t (.missed ⟨path, i, (s.disk.inode i).size, (s.disk.inode i).mtime,
    s.disk.version i, s.disk.changes⟩)

theorem missed_run (t : T) (path : Path) (i : I) (idle : s.look t = .idle) (misses : s.Misses path i) :
    CarefulRun sha s (s.missed t path i) := by
  refine .head ⟨_, .open t path i idle misses.1, trivial⟩ ?_
  refine .head ⟨_, .fstat t path i _ setLook_look, fun path' i' opened' here => ?_⟩ ?_
  · obtain ⟨rfl, rfl, -⟩ : path = path' ∧ i = i' ∧ _ := by simpa using here
    exact .inl misses.1
  refine .head ⟨_, .miss t _ setLook_look misses.2, trivial⟩ ?_
  rw [setLook_setLook, setLook_setLook]
  exact .refl

/-- A file that neither cache knows is read. -/
theorem lookup_run (t : T) (path : Path) (i : I) (idle : s.look t = .idle)
    (misses : s.Misses path i) (absent : s.inoCache i = none)
    (content : (s.disk.inode i).content ≠ []) :
    CarefulRun sha s ((s.insertIno i (checksum sha (s.disk.inode i).content)
      (s.disk.version i)).remember t path i (checksum sha (s.disk.inode i).content)) := by
  apply (missed_run t path i idle misses).trans
  refine .head ⟨_, .inodeMiss t _ setLook_look absent, trivial⟩ ?_
  refine .head ⟨_, .read t _ _ [] _ setLook_look content (List.prefix_refl _), trivial⟩ ?_
  refine .head ⟨_, .eof t _ _ _ setLook_look (List.drop_length ..), trivial⟩ ?_
  refine .head ⟨_, .update t _ _ _ setLook_look, trivial⟩ ?_
  refine .head ⟨_, .store t _ _ setLook_look, trivial⟩ ?_
  simp only [missed, remember, setLook_setLook, insertIno_setLook, setCache_setLook, insertIno_disk,
    setLook_disk, List.nil_append]
  exact .refl

/-- A file that the cache does not know, or knows with another size or mtime, gets the
sum that the inode cache has for its inode. -/
theorem lookup_inode_run (t : T) (path : Path) (i : I) (idle : s.look t = .idle)
    (misses : s.Misses path i) (cached : s.inoCache i = some sum) :
    Run sha s (s.remember t path i sum) := by
  apply (missed_run t path i idle misses).run.trans
  refine .head ⟨_, .inodeHit t _ sum setLook_look cached⟩ ?_
  refine .head ⟨_, .store t _ sum setLook_look⟩ ?_
  simp only [missed, remember, setLook_setLook, setCache_setLook]
  exact .refl

end

end World

end

/-! ## A file that is rewritten -/

/-- What SHA1 begins with, for the contents below. -/
def shaOfLetter : List UInt8 → Cksum
  | [97] => 0xfca7a5fa37e4f786
  | [98] => 0x6d2dc9e75e1fd7e9
  | _ => 0

/-- One file, and caches that are empty. -/
def oneFile : World ℕ Unit where
  disk := {
    names := Function.update (fun _ => none) ["f"] (some 0)
    inode := fun _ => ⟨[97], 1, 1⟩
    seen := fun _ => {(1, 1)}
    seenInode := fun _ => {(1, 1)}
    version := fun _ => 0
    changes := 0 }
  cache := fun _ => none
  inoCache := fun _ => none
  recorded := fun _ => 0
  look := fun _ => .idle

theorem oneFile_initial : oneFile.Initial shaOfLetter where
  idle _ := rfl
  inoCache _ := rfl
  seen p file h := by
    obtain ⟨i, -, rfl⟩ := Disk.yields_eq_some.mp h
    rfl
  seenInode _ := rfl
  cached p info h := nomatch h
  accurate p info file h := nomatch h

def oneFileRead : World ℕ Unit :=
  (oneFile.insertIno 0 (checksum shaOfLetter [97]) 0).remember () ["f"] 0
    (checksum shaOfLetter [97])

theorem oneFile_run : World.CarefulRun shaOfLetter oneFile oneFileRead :=
  World.lookup_run () ["f"] 0 rfl ⟨rfl, nofun⟩ rfl (by decide)

theorem cache_accurate_oneFile :
    ∃ info, oneFileRead.cache ["f"] = some info ∧ info.sum = checksum shaOfLetter [97] :=
  ⟨⟨1, 1, 0xfca7a5fa37e4f786⟩, rfl, (World.cache_accurate oneFile_initial oneFile_run).cache
    ["f"] _ ⟨[97], 1, 1⟩ rfl rfl rfl⟩

/-- A file that is rewritten between two lookups gets its old checksum under its new
mtime. -/
theorem rewritten_stale : ¬∀ s0 s : World ℕ Unit, s0.Initial shaOfLetter →
    World.Run shaOfLetter s0 s → s.Serves shaOfLetter := by
  intro all
  have fresh : ((1, 2) : Int64 × Int64) ∉ ({(1, 1)} : Set (Int64 × Int64)) := by simp
  have change : oneFileRead.disk.Change (oneFileRead.disk.rewrite 0 ⟨[98], 1, 2⟩) :=
    .rewrite 0 _ fresh fun _ _ => fresh
  have rewritten := oneFile_run.run.tail ⟨_, .change _ change⟩
  have misses : World.Misses { oneFileRead with
      disk := oneFileRead.disk.rewrite 0 ⟨[98], 1, 2⟩ } ["f"] 0 := by
    refine ⟨rfl, fun info cached => ?_⟩
    obtain rfl : (⟨1, 1, 0xfca7a5fa37e4f786⟩ : FileInfo) = info := Option.some.inj cached
    decide
  have again := rewritten.trans (World.lookup_inode_run () ["f"] 0 rfl misses rfl)
  exact absurd ((all _ _ oneFile_initial again).cache ["f"] ⟨1, 2, 0xfca7a5fa37e4f786⟩
    ⟨[98], 1, 2⟩ rfl rfl rfl) (by decide)

end Dupa
