import Dupa.FillPathHashes
import Dupa.Layout
import Dupa.ScanDb
import Dupa.ScanDirectory
import Dupa.TreeCtor

/-!
# Inputs

An input is a directory or a database that an earlier run dumped. A directory is
scanned without its files of checksum 0; a database is scanned as it is.
-/

namespace Dupa

/-- `ReadCacheFromDb` returns this map, in some order, for a database into which
`StoreCksums` put `cache`. -/
def Db.Dumps (db : Db) (cache : Path → Option FileInfo) : Prop :=
  ∀ path info, (path, info) ∈ db.entries ↔ cache path = some info

inductive Input where
  | directory (files : FileSystem) (root : Path)
  /-- Dumped after a scan of a directory that began with `cache`. -/
  | dumped (files : FileSystem) (root : Path) (cache : Path → Option FileInfo)

namespace Input

/-- `ScanDirectoryOrDb` makes these calls to its processor. -/
inductive Tells : Input → List Call → Prop where
  | directory {files : FileSystem} {root : Path} {σ H : Type} [Inhabited H] {n : ℕ}
      {P : ScanProcessor (StateM σ) H} {processor : σ} {cache : Path → Option FileInfo}
      {calls : List Call} {s : Scan files σ H n}
      (run : Scan.Run P root processor cache calls s) (returned : s.pc = .returned) :
      Tells (.directory files root) calls
  | dumped {files : FileSystem} {root : Path} {σ H : Type} [Inhabited H] {n : ℕ}
      {P : ScanProcessor (StateM σ) H} {processor : σ} {cache : Path → Option FileInfo}
      {calls : List Call} {s : Scan files σ H n}
      (run : Scan.Run P root processor cache calls s) (returned : s.pc = .returned)
      (db : Db) (dumps : db.Dumps s.cache) : Tells (.dumped files root cache) (dbCalls db.entries)

/-- The tree that `FuzzyDedup` is given. -/
def tree (calls : List Call) : Except Fault TreeCtor :=
  (issued TreeCtor.processor (.ok .start) calls).2

theorem tree_atLeast {calls : List Call} {least : Int} {t : TreeCtor}
    (files : ∀ path info, .file path info ∈ calls → least ≤ info.size.toInt)
    (made : tree calls = .ok t) : t.AtLeast least := by
  apply Call.issueAll_keeps (TreeCtor.processor_atLeast least) (fun _ => default) files _ t made
  rintro _ ⟨⟩ n file
  cases file

/-- A tree of files whose sizes are not negative. -/
theorem tree_sized {calls : List Call} {t : TreeCtor}
    (files : ∀ path info, .file path info ∈ calls → 0 ≤ info.size.toInt)
    (made : tree calls = .ok t) (E : Env) : E.Sized t.heap.layout :=
  fun _ n file => tree_atLeast files made n file.2

/-- The map that `DirCompare` is given. -/
def pathHashes (calls : List Call) : PathHashes Path :=
  (issued pathHashesFiller .empty calls).2

/-- No file of checksum 0 gets through. -/
structure Ignored (calls : List Call) : Prop where
  files : ∀ path info, .file path info ∈ calls → info.sum ≠ 0
  nodes : ∀ t, tree calls = .ok t → ∀ entry ∈ t.sum2Node, entry.1 ≠ 0
  entries : ∀ entry ∈ (pathHashes calls).entries, entry.2 ≠ 0

/-- No file of checksum 0 was left in the dumped cache: the scan came across none
that it could read, and none was there from the start for another path. -/
def Clean : Input → Prop
  | directory _ _ => True
  | dumped files root cache =>
    (∀ path info, files.Regular root path → files.hash path = some info → info.sum ≠ 0) ∧
      ∀ path info, cache path = some info →
        ¬(files.Regular root path ∧ (files.hash path).isSome) → info.sum ≠ 0

variable {input : Input} {calls : List Call}

theorem Ignored.of_files (files : ∀ path info, .file path info ∈ calls → info.sum ≠ 0) :
    Ignored calls where
  files := files
  nodes := by
    apply Call.issueAll_keeps (TreeCtor.processor_keeps (· ≠ 0)) _ files
    intro t ht entry he
    cases ht
    cases he
  entries := by
    apply Call.issueAll_keeps (pathHashesFiller_keeps (· ≠ 0)) _ files
    intro entry he
    cases he

theorem file_mem_dbCalls {db : Db} {path : Path} {info : FileInfo} :
    .file path info ∈ dbCalls db.entries ↔ (path, info) ∈ db.entries := by
  cases h : db.entries with
  | nil => simp [dbCalls]
  | cons first rest =>
    have describes := dbCalls_describe db h
    rw [← h]
    exact describes.files path info

/-- Files of checksum 0 are ignored just if no dumped cache holds one. -/
theorem ignored_iff (tells : input.Tells calls) : Ignored calls ↔ input.Clean := by
  cases tells with
  | @directory files root σ H _ n P processor cache calls s run returned =>
    refine ⟨fun _ => trivial, fun _ => .of_files fun path info hc => ?_⟩
    exact ((run.scanned returned).reports path info).mp hc |>.2.2
  | @dumped files root σ H _ n P processor cache calls s run returned db dumps =>
    have cached := run.cache_eq returned
    have told : ∀ path info, .file path info ∈ dbCalls db.entries ↔ s.cache path = some info :=
      fun path info => file_mem_dbCalls.trans (dumps path info)
    constructor
    · rintro ⟨ignored, -, -⟩
      refine ⟨fun path info regular known => ?_, fun path info old other => ?_⟩
      · refine ignored path info ((told path info).mpr ?_)
        rw [(cached path).1 regular (by simp [known]), known]
      · refine ignored path info ((told path info).mpr ?_)
        rw [(cached path).2 other, old]
    · rintro ⟨scanned, before⟩
      refine .of_files fun path info hc => ?_
      have held := (told path info).mp hc
      by_cases new : files.Regular root path ∧ (files.hash path).isSome
      · exact scanned path info new.1 (((cached path).1 new.1 new.2).symm.trans held)
      · exact before path info (((cached path).2 new).symm.trans held) new

end Input

/-! ## A database of one file -/

def deepDb (info : FileInfo) : Db where
  entries := [(["r", "d", "x"], info)]
  distinct := List.nodup_singleton _
  named := by simp

theorem deepFile_regular (info : FileInfo) :
    (deepFile info).Regular ["r"] ["r", "d", "x"] := by
  have top : (deepFile info).Listed ["r"] ["r"] := .root rfl
  have inner : (deepFile info).Listed ["r"] (["r"] ++ ["d"]) :=
    .child top rfl (List.mem_singleton_self _) rfl rfl
  exact ⟨⟨["r", "d"], ["x"], "x", inner, rfl, List.mem_singleton_self _, rfl⟩, rfl⟩

theorem deepDb_dumps {σ H : Type} [Inhabited H] {n : ℕ} {info : FileInfo}
    {P : ScanProcessor (StateM σ) H} {processor : σ} {calls : List Call}
    {s : Scan (deepFile info) σ H n} (run : Scan.Run P ["r"] processor (fun _ => none) calls s)
    (returned : s.pc = .returned) : (deepDb info).Dumps s.cache := by
  intro path info'
  have cached := run.cache_eq returned path
  by_cases here : path = ["r", "d", "x"]
  · subst here
    rw [cached.1 (deepFile_regular info) rfl]
    simp [deepDb, deepFile, eq_comm]
  · have unknown : (deepFile info).hash path = none := by simp [deepFile, here]
    rw [cached.2 (by simp [unknown])]
    simp [deepDb, here]

theorem deepDb_tells (info : FileInfo) :
    (Input.dumped (deepFile info) ["r"] fun _ => none).Tells
      [.rootDir ["r", "d"], .file ["r", "d", "x"] info] := by
  obtain ⟨s, returned, run⟩ := deepFile_run info pathHashesFiller .empty fun _ => none
  exact .dumped run returned (deepDb info) (deepDb_dumps run returned)

theorem ignored_iff_deepDb :
    Input.Ignored [.rootDir ["r", "d"], .file ["r", "d", "x"] ⟨1, 2, 3⟩] := by
  refine (Input.ignored_iff (deepDb_tells ⟨1, 2, 3⟩)).mpr ⟨?_, by simp⟩
  intro path info _ known
  by_cases here : path = ["r", "d", "x"] <;> simp [deepFile, here] at known
  simp [← known]

/-- An empty file, which a scan of its directory ignores, comes back from the
database that the scan leaves behind. -/
theorem empty_file_comes_back :
    ¬∀ (input : Input) (calls : List Call), input.Tells calls → Input.Ignored calls := by
  intro all
  have ignored := all _ _ (deepDb_tells ⟨0, 7, 0⟩)
  exact ignored.files ["r", "d", "x"] ⟨0, 7, 0⟩ (by simp) rfl

end Dupa
