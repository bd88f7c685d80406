import Mathlib.Data.List.Nodup
import Dupa.Library.Worklist
import Dupa.Scanner

/-!
# What there is to scan

A file system as a scan sees it, and the scan of a directory as a worklist: each
item to do stands for at most one call and leads to the items inside it.
-/

namespace Dupa

inductive FileKind where
  | directory
  | regular
  | symlink
  | other
  deriving DecidableEq

/-- A function is `none` where asking the file system throws. -/
structure FileSystem where
  /-- What a `directory_iterator` lists, in its order. -/
  list : Path → Option (List String)
  kind : Path → Option FileKind
  /-- What `HashCache` returns, from its entry or from the file. -/
  hash : Path → Option FileInfo
  distinct : ∀ dir names, list dir = some names → names.Nodup

namespace FileSystem

variable {files files' : FileSystem} {root path : Path}

/-- Directories that can be listed, reached from the root through directories
that can be listed. Only the root may be a symlink. -/
inductive Listed (files : FileSystem) (root : Path) : Path → Prop where
  | root (listed : (files.list root).isSome) : Listed files root root
  | child {dir : Path} {names : List String} {name : String} (parent : Listed files root dir)
      (listing : files.list dir = some names) (member : name ∈ names)
      (kind : files.kind (dir ++ [name]) = some .directory)
      (listed : (files.list (dir ++ [name])).isSome) : Listed files root (dir ++ [name])

/-- What is directly inside these directories. -/
def Entry (files : FileSystem) (root path : Path) : Prop :=
  ∃ dir names name, files.Listed root dir ∧ files.list dir = some names ∧ name ∈ names ∧
    path = dir ++ [name]

def Regular (files : FileSystem) (root path : Path) : Prop :=
  files.Entry root path ∧ files.kind path = some .regular

theorem Listed.isSome (h : files.Listed root path) : (files.list path).isSome := by
  cases h with
  | root listed => exact listed
  | child parent listing member kind listed => exact listed

theorem Listed.below_root (h : files.Listed root path) : root <+: path := by
  induction h with
  | root => exact List.prefix_refl root
  | child parent listing member kind listed ih => exact ih.trans (List.prefix_append _ _)

theorem Entry.below_root (h : files.Entry root path) : root <+: path ∧ path ≠ root := by
  obtain ⟨dir, names, name, listed, -, -, rfl⟩ := h
  refine ⟨listed.below_root.trans (List.prefix_append _ _), fun same => ?_⟩
  have := listed.below_root.length_le
  rw [← same, List.length_append, List.length_singleton] at this
  omega

theorem listed_iff : files.Listed root path ↔ (files.list path).isSome ∧
    (path = root ∨ files.Entry root path ∧ files.kind path = some .directory) := by
  constructor
  · intro h
    refine ⟨h.isSome, ?_⟩
    cases h with
    | root => exact Or.inl rfl
    | child parent listing member kind listed =>
      exact Or.inr ⟨⟨_, _, _, parent, listing, member, rfl⟩, kind⟩
  · rintro ⟨listed, rfl | ⟨⟨dir, names, name, parent, listing, member, rfl⟩, kind⟩⟩
    · exact .root listed
    · exact .child parent listing member kind listed

/-- Where `seen` holds, the file systems differ at most in the order of listings. -/
def AgreeOn (files files' : FileSystem) (seen : Path → Prop) : Prop :=
  ∀ path, seen path → files.kind path = files'.kind path ∧ files.hash path = files'.hash path ∧
    Option.Rel List.Perm (files.list path) (files'.list path)

namespace AgreeOn

variable {seen : Path → Prop}

theorem symm (h : files.AgreeOn files' seen) : files'.AgreeOn files seen := by
  intro path hp
  obtain ⟨kind, hash, list⟩ := h path hp
  refine ⟨kind.symm, hash.symm, ?_⟩
  generalize files.list path = names, files'.list path = names' at list ⊢
  cases list with
  | some perm => exact .some perm.symm
  | none => exact .none

theorem listing (h : files.AgreeOn files' seen) (hp : seen path) {names : List String}
    (listing : files.list path = some names) :
    ∃ names', files'.list path = some names' ∧ names.Perm names' := by
  obtain ⟨-, -, list⟩ := h path hp
  rw [listing] at list
  generalize files'.list path = names' at list ⊢
  cases list with
  | some perm => exact ⟨_, rfl, perm⟩

theorem isSome (h : files.AgreeOn files' seen) (hp : seen path)
    (listed : (files.list path).isSome) : (files'.list path).isSome := by
  obtain ⟨names, listing⟩ := Option.isSome_iff_exists.mp listed
  obtain ⟨names', listing', -⟩ := h.listing hp listing
  simp [listing']

theorem listed (h : files.AgreeOn files' seen) (up : ∀ path name, seen (path ++ [name]) → seen path)
    (hp : seen path) (listed : files.Listed root path) : files'.Listed root path := by
  induction listed with
  | root listed => exact .root (h.isSome hp listed)
  | @child dir names name parent listing member kind listed ih =>
    obtain ⟨names', listing', perm⟩ := h.listing (up dir name hp) listing
    exact .child (ih (up dir name hp)) listing' (perm.mem_iff.mp member)
      ((h _ hp).1 ▸ kind) (h.isSome hp listed)

theorem entry (h : files.AgreeOn files' seen) (up : ∀ path name, seen (path ++ [name]) → seen path)
    (hp : seen path) (entry : files.Entry root path) : files'.Entry root path := by
  obtain ⟨dir, names, name, listed, listing, member, rfl⟩ := entry
  obtain ⟨names', listing', perm⟩ := h.listing (up dir name hp) listing
  exact ⟨dir, names', name, h.listed up (up dir name hp) listed, listing',
    perm.mem_iff.mp member, rfl⟩

end AgreeOn

end FileSystem

/-- What a call is about. -/
def Call.path : Call → Path
  | rootDir path => path
  | dir path => path
  | file path _ => path

inductive Work where
  | root (path : Path)
  | dir (path : Path)
  /-- An entry of a listing, not looked at yet. -/
  | entry (path : Path)
  | file (path : Path)

namespace Work

variable {files : FileSystem} {root : Path} {work : Work} {call : Call}

def path : Work → Path
  | .root path => path
  | .dir path => path
  | .entry path => path
  | .file path => path

def emits (files : FileSystem) : Work → List Call
  | .root path => if (files.list path).isSome then [.rootDir path] else []
  | .dir path => if (files.list path).isSome then [.dir path] else []
  | .entry _ => []
  | .file path =>
    match files.hash path with
    | some info => if info.sum ≠ 0 then [.file path info] else []
    | none => []

def listing (files : FileSystem) (path : Path) : List Work :=
  ((files.list path).getD []).map fun name => .entry (path ++ [name])

def children (files : FileSystem) : Work → List Work
  | .root path => listing files path
  | .dir path => listing files path
  | .entry path =>
    match files.kind path with
    | some .directory => [.dir path]
    | some .regular => [.file path]
    | _ => []
  | .file _ => []

end Work

def traversal (files : FileSystem) : Worklist Work Call where
  emits := Work.emits files
  children := Work.children files

namespace Work

variable {files : FileSystem} {root path : Path} {work : Work} {call : Call}

theorem rootDir_mem_emits : .rootDir path ∈ emits files work ↔
    work = .root path ∧ (files.list path).isSome := by
  cases work <;> grind [emits]

theorem dir_mem_emits : .dir path ∈ emits files work ↔
    work = .dir path ∧ (files.list path).isSome := by
  cases work <;> grind [emits]

theorem file_mem_emits {info : FileInfo} : .file path info ∈ emits files work ↔
    work = .file path ∧ files.hash path = some info ∧ info.sum ≠ 0 := by
  cases work <;> grind [emits]

/-- What a traversal comes across. -/
def Found (files : FileSystem) (top : Path) : Work → Prop
  | .root path => path = top
  | .dir path => files.Entry top path ∧ files.kind path = some .directory
  | .entry path => files.Entry top path
  | .file path => files.Regular top path

theorem mem_listing : work ∈ listing files path ↔
    ∃ names, files.list path = some names ∧ ∃ name ∈ names, work = .entry (path ++ [name]) := by
  cases h : files.list path with
  | none => simp [listing, h]
  | some names => simp [listing, h, eq_comm]

theorem found_listing (listed : (files.list path).isSome → files.Listed root path)
    (h : work ∈ listing files path) : Found files root work := by
  obtain ⟨names, listing, name, member, rfl⟩ := mem_listing.mp h
  exact ⟨path, names, name, listed (by simp [listing]), listing, member, rfl⟩

theorem found_child {child : Work} (h : Found files root work)
    (hc : child ∈ children files work) : Found files root child := by
  cases work with
  | root path =>
    obtain rfl : path = root := h
    exact found_listing .root hc
  | dir path =>
    exact found_listing (fun listed => FileSystem.listed_iff.mpr ⟨listed, Or.inr h⟩) hc
  | entry path =>
    rw [children] at hc
    split at hc
    · next kind =>
      obtain rfl := List.mem_singleton.mp hc
      exact ⟨h, kind⟩
    · next kind =>
      obtain rfl := List.mem_singleton.mp hc
      exact ⟨h, kind⟩
    · simp at hc
  | file path => simp [children] at hc

theorem reach_inside (h : files.Listed root path) {child : Work}
    (hc : child ∈ listing files path) : (traversal files).Reach (.root root) child := by
  induction h generalizing child with
  | root => exact .single hc
  | @child dir names name parent listing member kind listed ih =>
    have entry : (traversal files).Reach (.root root) (.entry (dir ++ [name])) :=
      ih (mem_listing.mpr ⟨names, listing, name, member, rfl⟩)
    have dir : Work.dir (dir ++ [name]) ∈ children files (.entry (dir ++ [name])) := by
      simp [children, kind]
    exact (entry.tail dir).tail hc

theorem reach_iff : (traversal files).Reach (.root root) work ↔ Found files root work := by
  constructor
  · intro h
    induction h with
    | refl => exact rfl
    | tail _ child ih => exact found_child ih child
  · have entry : ∀ {path}, files.Entry root path →
        (traversal files).Reach (.root root) (.entry path) := by
      rintro path ⟨dir, names, name, listed, listing, member, rfl⟩
      exact reach_inside listed (mem_listing.mpr ⟨names, listing, name, member, rfl⟩)
    intro h
    cases work with
    | root path => exact h ▸ .refl
    | dir path => exact (entry h.1).tail (by simp [traversal, children, h.2])
    | entry path => exact entry h
    | file path => exact (entry h.1).tail (by simp [traversal, children, h.2])

/-! ## Nothing is emitted twice -/

/-- One if the item may lead to the call. -/
def weight (call : Call) (work : Work) : ℕ := if work.path <+: call.path then 1 else 0

theorem sum_indicator (names : List String) (x : String) :
    (names.map fun name => if name = x then 1 else 0).sum = names.count x := by
  induction names with
  | nil => rfl
  | cons name names ih => rw [List.map_cons, List.sum_cons, ih, List.count_cons, add_comm]; simp

/-- At most one entry of a directory leads to the call, and only if the
directory does and the call is not about the directory itself. -/
theorem weight_listing (call : Call) (path : Path) :
    ((listing files path).map (weight call)).sum ≤
      if path <+: call.path ∧ path ≠ call.path then 1 else 0 := by
  rw [listing, List.map_map]
  by_cases inside : path <+: call.path ∧ path ≠ call.path
  · obtain ⟨⟨tail, htail⟩, ne⟩ := inside
    cases tail with
    | nil => exact absurd (by simpa using htail) ne
    | cons x tail =>
      have only : ∀ name, (weight call ∘ fun name => Work.entry (path ++ [name])) name =
          if name = x then 1 else 0 := by
        intro name
        simp [weight, Work.path, ← htail, List.cons_prefix_cons]
      have distinct : ((files.list path).getD []).Nodup := by
        cases h : files.list path with
        | none => exact List.nodup_nil
        | some names => exact files.distinct path names h
      rw [List.map_congr_left fun name _ => only name, sum_indicator]
      exact (List.nodup_iff_count_le_one.mp distinct x).trans (by simp [← htail])
  · rw [if_neg inside, Nat.le_zero, List.sum_eq_zero]
    intro n hn
    obtain ⟨name, -, rfl⟩ := List.mem_map.mp hn
    refine if_neg fun below => inside ⟨(List.prefix_append _ _).trans below, ?_⟩
    rintro rfl
    have := below.length_le
    simp only [List.length_append, List.length_singleton] at this
    omega

theorem count_emits (call : Call) (work : Work) :
    (emits files work).count call ≤ if work.path = call.path then 1 else 0 := by
  have single : ∀ other : Call, other.path = work.path → List.count call [other] ≤
      if work.path = call.path then 1 else 0 := by
    rintro other same
    rw [List.count_singleton]
    by_cases eq : other = call
    · simp [eq, ← same]
    · simp [eq]
  cases work with
  | root path | dir path =>
    rw [emits]
    split
    · exact single _ rfl
    · simp
  | entry path => simp [emits]
  | file path =>
    rw [emits]
    split
    · split
      · exact single _ rfl
      · simp
    · simp

/-- The weight of an item pays for its call and for its children. -/
theorem weight_falls (call : Call) (work : Work) :
    (emits files work).count call + ((children files work).map (weight call)).sum ≤
      weight call work := by
  have here : (emits files work).count call ≤ _ := count_emits call work
  have self : (if work.path = call.path then 1 else 0) ≤ weight call work := by
    by_cases same : work.path = call.path
    · simp [weight, same]
    · simp [same]
  cases work with
  | root path | dir path =>
    apply (Nat.add_le_add here (weight_listing call path)).trans
    by_cases below : path <+: call.path
    · by_cases same : path = call.path <;> simp [weight, Work.path, same, below]
    · have other : path ≠ call.path := fun same => below (same ▸ List.prefix_refl _)
      simp [Work.path, other, below]
  | entry path =>
    rw [emits, List.count_nil, zero_add, children]
    split
    · exact le_of_eq List.sum_singleton
    · exact le_of_eq List.sum_singleton
    · exact Nat.zero_le _
  | file path => exact here.trans self

end Work

end Dupa
