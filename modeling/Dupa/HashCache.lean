import Mathlib.Data.List.Basic
import Mathlib.Data.Set.Insert
import Mathlib.Logic.Function.Basic
import Mathlib.Logic.Relation
import Dupa.Path

/-!
# `HashCache`

Threads look up checksums while files change. A lookup is a sequence of steps, one
for each system call and for each critical section of a cache's mutex. What the
code does not keep, but a proof follows, is marked as history.
-/

namespace Dupa

/-- What an inode holds. -/
structure Stored where
  content : List UInt8
  size : Int64
  mtime : Int64
  deriving DecidableEq

def Stored.stamp (file : Stored) : Int64 × Int64 := (file.size, file.mtime)

/-- The checksum of what `ComputeCksum` has read; `sha` is the first word of SHA1. -/
def checksum (sha : List UInt8 → Cksum) (content : List UInt8) : Cksum :=
  if content = [] then 0 else sha content

/-- Paths name inodes. History: the stamps each path has yielded and each inode has
had, how often each inode has changed, and how many changes there were at all. -/
structure Disk (I : Type) where
  names : Path → Option I
  inode : I → Stored
  seen : Path → Set (Int64 × Int64)
  seenInode : I → Set (Int64 × Int64)
  version : I → ℕ
  changes : ℕ

/-- What the path yields. -/
def Disk.yields {I : Type} (d : Disk I) (path : Path) : Option Stored :=
  (d.names path).map d.inode

/-- A lookup that has got as far as `fstat`. History: the version of the inode
then, and the number of changes before the file was opened. -/
structure Lookup (I : Type) where
  path : Path
  ino : I
  size : Int64
  mtime : Int64
  version : ℕ
  opened : ℕ

def Lookup.stamp {I : Type} (l : Lookup I) : Int64 × Int64 := (l.size, l.mtime)

/-- Where a thread is in `HashCache::operator()`. -/
inductive Look (I : Type) where
  | idle
  | opened (path : Path) (ino : I) (opened : ℕ)
  /-- About to look into the cache. -/
  | statted (l : Lookup I)
  /-- About to look into the inode cache. -/
  | missed (l : Lookup I)
  /-- In the loop that reads; history: the version of the inode when it began. -/
  | reading (l : Lookup I) (version : ℕ) (bytes : List UInt8)
  /-- About to update the inode cache. -/
  | computed (l : Lookup I) (version : ℕ) (sum : Cksum)
  /-- About to update the cache. -/
  | summed (l : Lookup I) (sum : Cksum)

/-- The file system, both caches and the threads. History: for an entry of the
inode cache, the version of the inode when the reading for it began. -/
structure World (I T : Type) where
  disk : Disk I
  cache : Path → Option FileInfo
  inoCache : I → Option Cksum
  recorded : I → ℕ
  look : T → Look I

section
variable {I T : Type}

namespace Disk

variable [DecidableEq I]

def rewrite (d : Disk I) (i : I) (file : Stored) : Disk I where
  names := d.names
  inode := Function.update d.inode i file
  seen p := if d.names p = some i then insert file.stamp (d.seen p) else d.seen p
  seenInode := Function.update d.seenInode i (insert file.stamp (d.seenInode i))
  version := Function.update d.version i (d.version i + 1)
  changes := d.changes + 1

def link (d : Disk I) (path : Path) (i : I) : Disk I :=
  { d with
    names := Function.update d.names path (some i)
    seen := Function.update d.seen path (insert (d.inode i).stamp (d.seen path))
    changes := d.changes + 1 }

def unlink (d : Disk I) (path : Path) : Disk I :=
  { d with names := Function.update d.names path none, changes := d.changes + 1 }

/-- What a path yields changes only to what has a new stamp there. An inode number
is reused by rewriting an inode that has no name. -/
inductive Change (d : Disk I) : Disk I → Prop where
  | rewrite (i : I) (file : Stored) (new : file.stamp ∉ d.seenInode i)
      (fresh : ∀ p, d.names p = some i → file.stamp ∉ d.seen p) : Change d (d.rewrite i file)
  | link (path : Path) (i : I) (fresh : (d.inode i).stamp ∉ d.seen path) :
      Change d (d.link path i)
  | unlink (path : Path) : Change d (d.unlink path)

end Disk

namespace World

variable {s : World I T} {t : T} {x : Look I}

def setCache (s : World I T) (path : Path) (info : FileInfo) : World I T :=
  { s with cache := Function.update s.cache path (some info) }

section
variable [DecidableEq T]

def setLook (s : World I T) (t : T) (x : Look I) : World I T :=
  { s with look := Function.update s.look t x }

@[simp] theorem setLook_look : (s.setLook t x).look t = x := Function.update_self ..

@[simp] theorem setLook_disk : (s.setLook t x).disk = s.disk := rfl

@[simp] theorem setLook_setLook (y : Look I) : (s.setLook t x).setLook t y = s.setLook t y := by
  simp [setLook]

@[simp] theorem setCache_setLook (path : Path) (info : FileInfo) :
    (s.setLook t x).setCache path info = (s.setCache path info).setLook t x := rfl

end

section
variable [DecidableEq I]

/-- `InodeCache::Update` does not replace an entry. -/
def insertIno (s : World I T) (i : I) (sum : Cksum) (version : ℕ) : World I T :=
  match s.inoCache i with
  | some _ => s
  | none =>
    { s with
      inoCache := Function.update s.inoCache i (some sum)
      recorded := Function.update s.recorded i version }

@[simp] theorem insertIno_disk (i : I) (sum : Cksum) (version : ℕ) :
    (s.insertIno i sum version).disk = s.disk := by
  cases h : s.inoCache i <;> simp [insertIno, h]

@[simp] theorem insertIno_setLook [DecidableEq T] (i : I) (sum : Cksum) (version : ℕ) :
    (s.setLook t x).insertIno i sum version = (s.insertIno i sum version).setLook t x := by
  cases h : s.inoCache i <;> simp [insertIno, setLook, h]

end

/-- Which thread does what. -/
inductive Action (T : Type) where
  | change
  | open (t : T)
  | fstat (t : T)
  | hit (t : T)
  | miss (t : T)
  | inodeHit (t : T)
  | inodeMiss (t : T)
  | read (t : T)
  | eof (t : T)
  | update (t : T)
  | store (t : T)
  | throw (t : T)

variable [DecidableEq I] [DecidableEq T]

inductive Step (sha : List UInt8 → Cksum) (s : World I T) : Action T → World I T → Prop where
  | change (d : Disk I) (h : s.disk.Change d) : Step sha s .change { s with disk := d }
  | open (t : T) (path : Path) (i : I) (here : s.look t = .idle)
      (names : s.disk.names path = some i) :
      Step sha s (.open t) (s.setLook t (.opened path i s.disk.changes))
  | fstat (t : T) (path : Path) (i : I) (opened : ℕ) (here : s.look t = .opened path i opened) :
      Step sha s (.fstat t) (s.setLook t (.statted
        ⟨path, i, (s.disk.inode i).size, (s.disk.inode i).mtime, s.disk.version i, opened⟩))
  | hit (t : T) (l : Lookup I) (info : FileInfo) (here : s.look t = .statted l)
      (cached : s.cache l.path = some info) (same : info.size = l.size ∧ info.mtime = l.mtime) :
      Step sha s (.hit t) (s.setLook t .idle)
  | miss (t : T) (l : Lookup I) (here : s.look t = .statted l)
      (other : ∀ info, s.cache l.path = some info → ¬(info.size = l.size ∧ info.mtime = l.mtime)) :
      Step sha s (.miss t) (s.setLook t (.missed l))
  | inodeHit (t : T) (l : Lookup I) (sum : Cksum) (here : s.look t = .missed l)
      (cached : s.inoCache l.ino = some sum) :
      Step sha s (.inodeHit t) (s.setLook t (.summed l sum))
  | inodeMiss (t : T) (l : Lookup I) (here : s.look t = .missed l)
      (absent : s.inoCache l.ino = none) :
      Step sha s (.inodeMiss t) (s.setLook t (.reading l (s.disk.version l.ino) []))
  | read (t : T) (l : Lookup I) (version : ℕ) (bytes chunk : List UInt8)
      (here : s.look t = .reading l version bytes) (some : chunk ≠ [])
      (there : chunk <+: (s.disk.inode l.ino).content.drop bytes.length) :
      Step sha s (.read t) (s.setLook t (.reading l version (bytes ++ chunk)))
  | eof (t : T) (l : Lookup I) (version : ℕ) (bytes : List UInt8)
      (here : s.look t = .reading l version bytes)
      (end_ : (s.disk.inode l.ino).content.drop bytes.length = []) :
      Step sha s (.eof t) (s.setLook t (.computed l version (checksum sha bytes)))
  | update (t : T) (l : Lookup I) (version : ℕ) (sum : Cksum)
      (here : s.look t = .computed l version sum) :
      Step sha s (.update t) ((s.insertIno l.ino sum version).setLook t (.summed l sum))
  | store (t : T) (l : Lookup I) (sum : Cksum) (here : s.look t = .summed l sum) :
      Step sha s (.store t) ((s.setCache l.path ⟨l.size, l.mtime, sum⟩).setLook t .idle)
  /-- `fstat` or `read` fails, or the file is not a regular one. -/
  | throw (t : T) : Step sha s (.throw t) (s.setLook t .idle)

/-- The step ends a lookup of `path` with the result `sum`; the file had been
opened after `opened` changes. -/
def Returns (s : World I T) (path : Path) (opened : ℕ) (sum : Cksum) : Action T → Prop
  | .hit t => ∃ l info, s.look t = .statted l ∧ s.cache l.path = some info ∧
      l.path = path ∧ l.opened = opened ∧ info.sum = sum
  | .store t => ∃ l, s.look t = .summed l sum ∧ l.path = path ∧ l.opened = opened
  | _ => False

/-- No lookup has begun, and the entries that are there are right. -/
structure Initial (sha : List UInt8 → Cksum) (s : World I T) : Prop where
  idle : ∀ t, s.look t = .idle
  inoCache : ∀ i, s.inoCache i = none
  seen : ∀ p file, s.disk.yields p = some file → file.stamp ∈ s.disk.seen p
  seenInode : ∀ i, (s.disk.inode i).stamp ∈ s.disk.seenInode i
  cached : ∀ p info, s.cache p = some info → (info.size, info.mtime) ∈ s.disk.seen p
  accurate : ∀ p info file, s.cache p = some info → s.disk.yields p = some file →
    file.stamp = (info.size, info.mtime) → info.sum = checksum sha file.content

def Run (sha : List UInt8 → Cksum) : World I T → World I T → Prop :=
  Relation.ReflTransGen fun s s' => ∃ a, Step sha s a s'

/-- The step does not take one file for another. At `fstat` the path still names the
file that was opened, or at least what it yields once had the size and the mtime of
that file and no longer has. An entry found in the inode cache was read after the
last change of the inode before `fstat`. -/
def Careful (s : World I T) : Action T → Prop
  | .fstat t => ∀ path i opened, s.look t = .opened path i opened →
      s.disk.names path = some i ∨ (s.disk.inode i).stamp ∈ s.disk.seen path ∧
        ∀ file, s.disk.yields path = some file → file.stamp ≠ (s.disk.inode i).stamp
  | .inodeHit t => ∀ l, s.look t = .missed l → l.version ≤ s.recorded l.ino
  | _ => True

def CarefulRun (sha : List UInt8 → Cksum) : World I T → World I T → Prop :=
  Relation.ReflTransGen fun s s' => ∃ a, Step sha s a s' ∧ s.Careful a

end World

end

end Dupa
