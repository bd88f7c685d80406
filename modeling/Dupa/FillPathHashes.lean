import Mathlib.Data.List.Induction
import Dupa.DirCompare
import Dupa.Scanner

/-! The processor that fills the map from relative paths to checksums. -/

namespace Dupa

namespace PathHashes

variable {K : Type} [LinearOrder K]

def empty : PathHashes K := ⟨[], List.nodup_nil⟩

/-- A path that is there already keeps its checksum. -/
def insert (m : PathHashes K) (path : K) (hash : Cksum) : PathHashes K :=
  if h : path ∈ m.entries.map Prod.fst then m
  else
    { entries := m.entries ++ [(path, hash)]
      distinct := by
        rw [List.map_append]
        exact m.distinct.append (List.nodup_singleton path) (by simpa using h) }

theorem mem_insert {m : PathHashes K} {path : K} {hash : Cksum} {entry : K × Cksum}
    (h : entry ∈ (m.insert path hash).entries) : entry ∈ m.entries ∨ entry = (path, hash) := by
  rw [insert] at h
  split at h
  · exact Or.inl h
  · simpa using h

/-- The map of a list of files. -/
def collect (files : List (K × FileInfo)) : PathHashes K :=
  files.foldl (fun m file => m.insert file.1 file.2.sum) empty

theorem collect_snoc (files : List (K × FileInfo)) (file : K × FileInfo) :
    collect (files ++ [file]) = (collect files).insert file.1 file.2.sum := by
  rw [collect, List.foldl_append]
  rfl

theorem collect_entries {files : List (K × FileInfo)} (distinct : (files.map Prod.fst).Nodup) :
    (collect files).entries = files.map fun file => (file.1, file.2.sum) := by
  induction files using List.reverseRecOn with
  | nil => rfl
  | append_singleton files file ih =>
    rw [List.map_append, List.nodup_append] at distinct
    obtain ⟨before, -, apart⟩ := distinct
    have absent : file.1 ∉ (collect files).entries.map Prod.fst := by
      rw [ih before, List.map_map]
      intro old
      exact apart file.1 old file.1 (by simp) rfl
    rw [collect_snoc, insert, dif_neg absent]
    change (collect files).entries ++ _ = _
    rw [ih before, List.map_append]
    rfl

theorem find_collect {files : List (K × FileInfo)} (distinct : (files.map Prod.fst).Nodup)
    {path : K} {hash : Cksum} : (collect files).find path = some hash ↔
      ∃ info, (path, info) ∈ files ∧ info.sum = hash := by
  rw [← mem_entries, collect_entries distinct]
  simp

end PathHashes

/-- `PathHashesFiller`. -/
def pathHashesFiller : ScanProcessor (StateM (PathHashes Path)) Path where
  file := fun name parent info => modify fun hashes => hashes.insert (parent ++ [name]) info.sum
  rootDir := fun _ => pure []
  dir := fun name parent => pure (parent ++ [name])

theorem pathHashesFiller_keeps (good : Cksum → Prop) :
    Call.Keeps pathHashesFiller (fun info => good info.sum)
      fun hashes => ∀ entry ∈ hashes.entries, good entry.2 where
  file name parent info hashes told before entry h := by
    rcases PathHashes.mem_insert h with old | rfl
    · exact before entry old
    · exact told
  rootDir path hashes before := before
  dir name parent hashes before := before

/-- The filler collects the files that are found by following handles. -/
theorem pathHashesFiller_abstracts :
    Call.Abstracts (Call.locator fun _ => []) pathHashesFiller PathHashes.collect where
  file name parent info files := by
    change ((), _) = ((), PathHashes.collect (files ++ [(parent ++ [name], info)]))
    rw [PathHashes.collect_snoc]
  rootDir path files := rfl
  dir name parent files := rfl

end Dupa
