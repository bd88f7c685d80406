import Dupa.CompareDb
import Dupa.LoadedDb
import Dupa.Rescan

/-!
# Relative paths as strings

`DirCompare` knows files by the strings of their relative paths. As no name of a file is
empty or has a separator, different paths are different strings (`native_inj`), and the
map that is keyed by strings is the map that is keyed by paths (`NativeHashes.find`).
-/

namespace Dupa

/-! ## Strings -/

theorem toList_loop (a : ByteArray) (i : ℕ) (r : List UInt8) :
    ByteArray.toList.loop a i r = r.reverse ++ a.data.toList.drop i := by
  fun_induction ByteArray.toList.loop a i r with
  | case1 i r inside ih =>
    have next : i < a.data.toList.length := inside
    have here : a.get! i = a.data.toList[i] := by
      simp only [ByteArray.get!, getElem!_pos a.data i inside, Array.getElem_toList]
    rw [ih, List.drop_eq_getElem_cons next, here, List.reverse_cons, List.append_assoc,
      List.singleton_append]
  | case2 i r outside =>
    have past : a.data.toList.length ≤ i := Nat.le_of_not_lt outside
    rw [List.drop_eq_nil_of_le past, List.append_nil]

theorem bytes_eq (s : String) : bytes s = s.toByteArray.data.toList :=
  toList_loop s.toByteArray 0 []

theorem bytes_inj {s t : String} (same : bytes s = bytes t) : s = t := by
  rw [bytes_eq, bytes_eq, Array.toList_inj] at same
  exact String.toByteArray_inj.mp (ByteArray.ext same)

namespace Path

/-- A path of names, as it leads from a directory to a file inside it. -/
def Inner (p : Path) : Prop := ∀ name ∈ p, IsName name

theorem Inner.relative {p : Path} (inner : p.Inner) : p.head? ≠ some "/" := by
  intro top
  obtain ⟨rest, rfl⟩ := List.head?_eq_some_iff.mp top
  have slash := (inner "/" List.mem_cons_self).2
  exact slash (by decide)

theorem intercalate_inj {p q : Path} (hp : p.Inner) (hq : q.Inner)
    (same : "/".intercalate p = "/".intercalate q) : p = q := by
  have split : ∀ {p : Path}, p.Inner → p ≠ [] →
      ("/".intercalate p).toList.splitOn '/' = p.map String.toList := by
    intro p inner ne
    rw [String.toList_intercalate]
    apply List.splitOn_intercalate
    · intro l hl
      obtain ⟨name, hname, rfl⟩ := List.mem_map.mp hl
      exact (inner name hname).2
    · simpa using ne
  have empty : ∀ {p : Path}, p.Inner → p ≠ [] → "/".intercalate p ≠ "" := fun inner ne =>
    (intercalate_end ne inner).1
  by_cases top : p = []
  · subst top
    by_contra ne
    exact empty hq (Ne.symm ne) (same.symm.trans rfl)
  by_cases top' : q = []
  · subst top'
    exact absurd same (empty hp top)
  have names : p.map String.toList = q.map String.toList := by
    rw [← split hp top, ← split hq top', same]
  exact List.map_injective_iff.mpr (fun s t => String.toList_inj.mp) names

theorem native_inj {p q : Path} (hp : p.Inner) (hq : q.Inner) (same : p.native = q.native) :
    p = q := by
  rw [native_relative hp.relative, native_relative hq.relative] at same
  exact intercalate_inj hp hq same

instance : DecidablePred IsName := fun name =>
  inferInstanceAs (Decidable (name ≠ "" ∧ '/' ∉ name.toList))

instance : DecidablePred OfFile := fun p =>
  inferInstanceAs (Decidable (p.names ≠ [] ∧ ∀ name ∈ p.names, IsName name))

/-- Joined names do not begin like an absolute path. -/
theorem intercalate_begin {p : Path} (inner : p.Inner) (rest : List String) :
    "/".intercalate p ≠ "/" ++ "/".intercalate rest := by
  intro same
  have chars := congrArg (fun s => s.toList.head?) same
  rw [String.toList_append] at chars
  cases p with
  | nil => simp at chars
  | cons first tail =>
    obtain ⟨ne, slash⟩ := inner first List.mem_cons_self
    have some : first.toList ≠ [] := by simpa using ne
    have begins : ("/".intercalate (first :: tail)).toList.head? = first.toList.head? := by
      rw [String.toList_intercalate]
      cases tail with
      | nil => simp
      | cons second tail =>
        rw [List.map_cons, List.map_cons, List.intercalate_cons_cons, List.append_assoc,
          List.head?_append_of_ne_nil _ some]
    rw [begins] at chars
    exact slash (List.mem_of_head? chars)

/-- Different paths of names are different strings, absolute or not. -/
theorem native_inj_names {p q : Path} (hp : ∀ name ∈ p.names, IsName name)
    (hq : ∀ name ∈ q.names, IsName name) (same : p.native = q.native) : p = q := by
  have split : ∀ {p : Path}, (∀ name ∈ p.names, IsName name) →
      (∃ rest, p = "/" :: rest ∧ Inner rest) ∨ p.head? ≠ some "/" ∧ p.Inner := by
    intro p all
    by_cases absolute : p.head? = some "/"
    · obtain ⟨rest, rfl⟩ := List.head?_eq_some_iff.mp absolute
      exact Or.inl ⟨rest, rfl, all⟩
    · rw [names_relative absolute] at all
      exact Or.inr ⟨absolute, all⟩
  rcases split hp with ⟨rest, rfl, inner⟩ | ⟨relative, inner⟩ <;>
    rcases split hq with ⟨rest', rfl, inner'⟩ | ⟨relative', inner'⟩
  · rw [native_absolute, native_absolute] at same
    have chars := congrArg String.toList same
    rw [String.toList_append, String.toList_append] at chars
    have tails := String.toList_inj.mp (List.append_cancel_left chars)
    rw [intercalate_inj inner inner' tails]
  · rw [native_absolute, native_relative relative'] at same
    exact absurd same.symm (intercalate_begin inner' rest)
  · rw [native_relative relative, native_absolute] at same
    exact absurd same (intercalate_begin inner rest')
  · rw [native_relative relative, native_relative relative'] at same
    exact intercalate_inj inner inner' same

theorem OfFile.native_inj {p q : Path} (hp : p.OfFile) (hq : q.OfFile)
    (same : p.native = q.native) : p = q := native_inj_names hp.2 hq.2 same

end Path

/-! ## The map -/

/-- `PathHashesFiller`, which inserts `relative.native()`. -/
def nativeFiller : ScanProcessor (StateM (PathHashes Bytes)) Path where
  file := fun name parent info =>
    modify fun hashes => hashes.insert (bytes (Path.native (parent ++ [name]))) info.sum
  rootDir := fun _ => pure []
  dir := fun name parent => pure (parent ++ [name])

namespace PathHashes

variable {K L : Type} [LinearOrder K] [LinearOrder L]

theorem find_insert (m : PathHashes K) (path : K) (hash : Cksum) (p : K) :
    (m.insert path hash).find p = (m.find p).or (if p = path then some hash else none) := by
  rw [insert]
  split
  · next known =>
    by_cases same : p = path
    · subst same
      obtain ⟨entry, member, rfl⟩ := List.mem_map.mp known
      rw [mem_entries.mp member, Option.some_or]
    · rw [if_neg same, Option.or_none]
  · next new =>
    rw [find, List.lookup_append, List.lookup_cons, List.lookup_nil]
    by_cases same : p = path
    · simp [find, same]
    · simp [find, same, beq_eq_false_iff_ne.mpr same]

/-- Of the files of one path the first counts. -/
theorem find_collect_eq (files : List (K × FileInfo)) (p : K) :
    (collect files).find p = (files.lookup p).map FileInfo.sum := by
  induction files using List.reverseRecOn with
  | nil => rfl
  | append_singleton files file ih =>
    rw [collect_snoc, find_insert, ih, List.lookup_append, List.lookup_cons, List.lookup_nil]
    by_cases same : p = file.1
    · subst same
      cases files.lookup file.1 <;> simp
    · cases files.lookup p <;> simp [same, beq_eq_false_iff_ne.mpr same]

theorem lookup_map_inj {V : Type} (f : K → L)
    (entries : List (K × V)) {p : K} (inj : ∀ e ∈ entries, f e.1 = f p → e.1 = p) :
    (entries.map fun e => (f e.1, e.2)).lookup (f p) = entries.lookup p := by
  induction entries with
  | nil => rfl
  | cons e entries ih =>
    have later := ih fun e' he' => inj e' (List.mem_cons_of_mem _ he')
    rw [List.map_cons, List.lookup_cons, List.lookup_cons, later]
    by_cases same : p = e.1
    · simp [same]
    · have other : f p ≠ f e.1 := fun h => same (inj e List.mem_cons_self h.symm).symm
      rw [beq_eq_false_iff_ne.mpr same, beq_eq_false_iff_ne.mpr other]

theorem mem_collect {files : List (K × FileInfo)} {entry : K × Cksum}
    (h : entry ∈ (collect files).entries) : ∃ file ∈ files, file.1 = entry.1 := by
  have found : (collect files).find entry.1 = some entry.2 := mem_entries.mp h
  rw [find_collect_eq, Option.map_eq_some_iff] at found
  obtain ⟨info, found, -⟩ := found
  obtain ⟨before, after, rfl, -⟩ := List.lookup_eq_some_iff.mp found
  exact ⟨(entry.1, info), by simp, rfl⟩

end PathHashes

/-- The filler collects the files that are found by following handles, by the strings of
their paths. -/
theorem nativeFiller_abstracts :
    Call.Abstracts (Call.locator fun _ => []) nativeFiller
      fun files => .collect (files.map fun file => (bytes file.1.native, file.2)) where
  file name parent info files := by
    change ((), _) = ((), PathHashes.collect ((files ++ [(parent ++ [name], info)]).map _))
    rw [List.map_append, List.map_singleton, PathHashes.collect_snoc]
  rootDir path files := rfl
  dir name parent files := rfl

namespace Input

/-- The map that `DirCompare` is given, as it is. -/
def nativeHashes (calls : List Call) : PathHashes Bytes := (issued nativeFiller .empty calls).2

variable {calls : List Call} {common : Path}

/-- The map knows the files by the strings of their paths. -/
theorem nativeHashes_find (rooted : Justified Call.Rooted calls)
    (roots : ∀ p, .rootDir p ∈ calls → p = common)
    (inner : ∀ p info, .file p info ∈ calls → Path.Inner (p.drop common.length)) {k : Bytes}
    {hash : Cksum} : (nativeHashes calls).find k = some hash ↔
      ∃ p : Path, p.Inner ∧ k = bytes p.native ∧ (pathHashes calls).find p = some hash := by
  obtain ⟨files, located⟩ : ∃ files, files = calls.filterMap (Call.fileAt [] common) := ⟨_, rfl⟩
  have follow := (Call.locator_files (fun _ => []) rooted roots).trans located.symm
  have byPath : pathHashes calls = .collect files := by
    rw [← follow]
    exact congrArg Prod.snd
      (Call.issueAll_abstracts pathHashesFiller_abstracts (fun _ => default) calls [])
  have byString : nativeHashes calls =
      .collect (files.map fun file => (bytes file.1.native, file.2)) := by
    rw [← follow]
    exact congrArg Prod.snd
      (Call.issueAll_abstracts nativeFiller_abstracts (fun _ => default) calls [])
  have names : ∀ file ∈ files, file.1.Inner := by
    intro file member
    rw [located] at member
    obtain ⟨call, told, at_eq⟩ := List.mem_filterMap.mp member
    cases call with
    | rootDir | dir => cases at_eq
    | file p info =>
      obtain rfl := Option.some.inj at_eq
      exact inner p info told
  have same : ∀ {p : Path}, p.Inner →
      (nativeHashes calls).find (bytes p.native) = (pathHashes calls).find p := by
    intro p hp
    rw [byPath, byString, PathHashes.find_collect_eq, PathHashes.find_collect_eq]
    rw [PathHashes.lookup_map_inj (fun q : Path => bytes q.native)]
    intro file member h
    exact Path.native_inj (names file member) hp (bytes_inj h)
  constructor
  · intro found
    have member : (k, hash) ∈ (nativeHashes calls).entries := PathHashes.mem_entries.mpr found
    rw [byString] at member
    obtain ⟨_, hentry, rfl⟩ := PathHashes.mem_collect member
    obtain ⟨file, hfile, rfl⟩ := List.mem_map.mp hentry
    exact ⟨file.1, names file hfile, rfl, (same (names file hfile)).symm.trans found⟩
  · rintro ⟨p, hp, rfl, found⟩
    rw [same hp, found]

end Input

/-! ## The map of a directory -/

namespace FileSystem

variable {files files' : FileSystem} {root dir : Path} {k : Bytes} {hash : Cksum}

/-- What a `directory_iterator` lists are names. -/
def Named (files : FileSystem) : Prop :=
  ∀ dir names, files.list dir = some names → Path.Inner names

/-- The directory has a file of this checksum, which is not 0, at this relative path. -/
def Contains (files : FileSystem) (root : Path) (k : Bytes) (hash : Cksum) : Prop :=
  ∃ p info, k = bytes (Path.native p) ∧ files.Regular root (root ++ p) ∧
    files.hash (root ++ p) = some info ∧ info.sum ≠ 0 ∧ info.sum = hash

theorem Listed.inner (named : files.Named) (h : files.Listed root dir) :
    Path.Inner (dir.drop root.length) := by
  induction h with
  | root => simp [Path.Inner]
  | @child dir names name parent listing member kind listed ih =>
    rw [List.drop_append_of_le_length parent.below_root.length_le]
    intro e he
    rcases List.mem_append.mp he with he | he
    · exact ih e he
    · exact List.mem_singleton.mp he ▸ named dir names listing name member

theorem Regular.inner (named : files.Named) {path : Path} (h : files.Regular root path) :
    Path.Inner (path.drop root.length) := by
  obtain ⟨⟨dir, names, name, listed, listing, member, rfl⟩, -⟩ := h
  rw [List.drop_append_of_le_length listed.below_root.length_le]
  intro e he
  rcases List.mem_append.mp he with he | he
  · exact listed.inner named e he
  · exact List.mem_singleton.mp he ▸ named dir names listing name member

theorem AgreeOn.contains (agree : files.AgreeOn files' fun _ => True)
    (h : files.Contains root k hash) : files'.Contains root k hash := by
  obtain ⟨p, info, key, ⟨entry, kind⟩, known, kept⟩ := h
  obtain ⟨sameKind, sameHash, -⟩ := agree (root ++ p) trivial
  have entry' := agree.entry (fun _ _ _ => trivial) trivial entry
  exact ⟨p, info, key, ⟨entry', sameKind ▸ kind⟩, sameHash ▸ known, kept⟩

theorem Named.of_agree (named : files.Named) (agree : files.AgreeOn files' fun _ => True) :
    files'.Named := by
  intro dir names listing name member
  obtain ⟨names', listing', perm⟩ := agree.symm.listing trivial listing
  exact named dir names' listing' name (perm.mem_iff.mp member)

end FileSystem

theorem deepFile_named (info : FileInfo) : (deepFile info).Named := by
  intro dir names listing name member
  simp only [deepFile] at listing
  split_ifs at listing
  all_goals
    obtain rfl := Option.some.inj listing
    obtain rfl := List.mem_singleton.mp member
    exact ⟨by decide, by decide⟩

theorem Scanned.find_nativeHashes {files : FileSystem} {root : Path} {calls : List Call}
    (named : files.Named) (h : Scanned files root calls) {k : Bytes} {hash : Cksum} :
    (Input.nativeHashes calls).find k = some hash ↔ files.Contains root k hash := by
  rw [Input.nativeHashes_find h.rooted (fun p hp => ((h.roots p).mp hp).1)]
  · simp only [h.find_pathHashes]
    constructor
    · rintro ⟨p, inner, key, info, file⟩
      exact ⟨p, info, key, file⟩
    · rintro ⟨p, info, key, regular, known⟩
      have inner := regular.inner named
      rw [List.drop_left] at inner
      exact ⟨p, inner, key, info, regular, known⟩
  · intro p info hc
    exact ((h.reports p info).mp hc).1.inner named

end Dupa
