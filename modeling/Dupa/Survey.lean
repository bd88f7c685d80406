import Dupa.LoadedDb
import Dupa.NativePaths

/-!
# The tree of an input

What is told of a directory or of a database is a survey of it: its directories, its
files and nothing else. `FuzzyDedup` builds a node for each of them, at the path at which
it was found, and no assert of the construction fails (`Told.depicted`).
-/

namespace Dupa

namespace Path

variable {root p : Path} {name : String}

/-- The path of a directory that a scan can start from. -/
def OfDir (root : Path) : Prop := root ≠ [] ∧ ∀ name ∈ root.names, IsName name

theorem names_append (ne : root ≠ []) (p : Path) : Path.names (root ++ p) = root.names ++ p := by
  obtain ⟨first, rest, rfl⟩ := List.exists_cons_of_ne_nil ne
  by_cases absolute : first = "/"
  · subst absolute
    rfl
  · rw [List.cons_append, names_relative (by simpa using absolute),
      names_relative (by simpa using absolute), List.cons_append]

theorem names_of_append (all : ∀ e ∈ Path.names (root ++ p), IsName e) :
    ∀ e ∈ root.names, IsName e := by
  by_cases ne : root = []
  · subst ne
    simp [names]
  · rw [names_append ne] at all
    exact fun e he => all e (List.mem_append_left _ he)

end Path

/-! ## Surveys -/

/-- There is one call about a path if no file is a directory and no file comes twice. -/
theorem Call.path_inj {calls : List Call} {root : Path} (top : ∀ p, .rootDir p ∈ calls → p = root)
    (inner : ∀ p, .dir p ∈ calls → p ≠ root)
    (apart : ∀ p info, .file p info ∈ calls → ¬Call.Opened calls p)
    (once : ∀ p info info', .file p info ∈ calls → .file p info' ∈ calls → info = info') :
    ∀ call ∈ calls, ∀ call' ∈ calls, call.path = call'.path → call = call' := by
  intro call hc call' hc' same
  cases call with
  | rootDir p =>
    cases call' with
    | rootDir p' => exact congrArg Call.rootDir same
    | dir p' => exact absurd (same.symm.trans (top p hc)) (inner p' hc')
    | file p' info' => exact absurd (Or.inl ((show p = p' from same) ▸ hc)) (apart p' info' hc')
  | dir p =>
    cases call' with
    | rootDir p' => exact absurd (same.trans (top p' hc')) (inner p hc)
    | dir p' => exact congrArg Call.dir same
    | file p' info' => exact absurd (Or.inr ((show p = p' from same) ▸ hc)) (apart p' info' hc')
  | file p info =>
    cases call' with
    | rootDir p' => exact absurd (Or.inl ((show p = p' from same) ▸ hc')) (apart p info hc)
    | dir p' => exact absurd (Or.inr ((show p = p' from same) ▸ hc')) (apart p info hc)
    | file p' info' =>
      obtain rfl : p = p' := same
      rw [once p info info' hc hc']

theorem Call.Opened.call {calls : List Call} {p : Path} (opened : Call.Opened calls p) :
    ∃ call ∈ calls, call.path = p ∧ call.nodeType = .dir :=
  opened.elim (fun hc => ⟨_, hc, rfl, rfl⟩) fun hc => ⟨_, hc, rfl, rfl⟩

/-- What is in a directory, or in a database. -/
structure Survey where
  root : Path
  dirs : Path → Prop
  files : Path → FileInfo → Prop

namespace Survey

/-- Where files count by their sizes, none that is there has a negative one. -/
def Sized (v : Survey) (E : Env) : Prop :=
  E.useSize = true → ∀ path info, v.files path info → 0 ≤ info.size.toInt

/-- The calls tell of the directories and of the files, one call about each path and
the root first. -/
structure Told (v : Survey) (calls : List Call) : Prop where
  first : calls.head? = some (.rootDir v.root)
  nodup : calls.Nodup
  root : ∀ p, .rootDir p ∈ calls → p = v.root
  root_ne : v.root ≠ []
  dirs : ∀ p, Call.Opened calls p ↔ v.dirs p
  files : ∀ p info, .file p info ∈ calls ↔ v.files p info
  below : ∀ call ∈ calls, v.root <+: call.path
  single : ∀ call ∈ calls, ∀ call' ∈ calls, call.path = call'.path → call = call'
  names : ∀ call ∈ calls, ∀ name ∈ call.path.names, Path.IsName name
  rooted : Justified Call.Rooted calls

variable {v : Survey} {calls : List Call} {call call' : Call}

namespace Told

variable (told : v.Told calls)
include told

/-- Different paths are told by different strings. -/
theorem native_inj (hc : call ∈ calls) (hc' : call' ∈ calls)
    (same : call.path.native = call'.path.native) : call = call' :=
  told.single call hc call' hc'
    (Path.native_inj_names (told.names call hc) (told.names call' hc') same)

theorem opened_below {p : Path} (opened : Call.Opened calls p) : v.root <+: p :=
  opened.elim (told.below _) (told.below _)

/-- Every call but the first is about a name inside a directory. -/
theorem inner (hc : call ∈ calls) {dir : Path} (above : call.above = some dir) :
    Call.Opened calls dir ∧ dir ≠ [] ∧ (∀ e ∈ dir.names, Path.IsName e) ∧
      Path.IsName call.nodeName ∧ call.path = dir ++ [call.nodeName] := by
  obtain ⟨before, after, split⟩ := List.append_of_mem hc
  have rooted := told.rooted before call after split
  have path : call.path = dir ++ [call.nodeName] ∧ Call.Opened before dir := by
    cases call with
    | rootDir p => cases above
    | dir p | file p info =>
      obtain ⟨ne, opened⟩ := rooted
      obtain rfl := Option.some.inj above
      exact ⟨(Path.parentPath_filename ne).symm, opened⟩
  obtain ⟨path, opened⟩ := path
  have opened : Call.Opened calls dir := split ▸ opened.append _
  have ne : dir ≠ [] := fun none =>
    told.root_ne (List.prefix_nil.mp (none ▸ told.opened_below opened))
  have names := told.names call hc
  rw [path] at names
  refine ⟨opened, ne, Path.names_of_append names, ?_, path⟩
  rw [Path.names_append ne] at names
  exact names _ (by simp)

theorem follows : ∃ tail, calls = .rootDir v.root :: tail ∧
    Justified (fun done call => Call.Follows ([.rootDir v.root] ++ done) call) tail := by
  obtain ⟨tail, split⟩ := List.head?_eq_some_iff.mp told.first
  refine ⟨tail, split, ?_⟩
  rintro done call after rfl
  have mem : call ∈ calls := by simp [split]
  have earlier : ∀ {c}, c ∈ [.rootDir v.root] ++ done → c ∈ calls := by
    intro c hc
    rw [split]
    exact List.mem_append_left (call :: after) hc
  have apart : call ∉ [.rootDir v.root] ++ done := by
    have nodup := told.nodup
    rw [split, ← List.cons_append, List.nodup_append] at nodup
    exact fun again => nodup.2.2 call again call List.mem_cons_self rfl
  have inner : ∀ p, call ≠ .rootDir p := by
    rintro p rfl
    obtain rfl := told.root p mem
    exact apart (by simp)
  refine ⟨inner, told.rooted _ call after split, ?_, ?_⟩
  · obtain ⟨dir, above⟩ : ∃ dir, call.above = some dir := by
      cases call with
      | rootDir p => exact absurd rfl (inner p)
      | dir | file => exact ⟨_, rfl⟩
    obtain ⟨-, -, -, name, path⟩ := told.inner mem above
    rw [path, Path.filename_append]
    exact name.1
  · rintro p rfl (hp | hp)
    · cases told.single _ mem _ (earlier hp) rfl
    · exact apart hp

end Told

end Survey

/-! ## The tree -/

/-- Classifying leaves the paths of the nodes alone. -/
theorem Heap.buildPath_of_layout {h h' : Heap} (same : h'.layout = h.layout) (n : NodeId) :
    h'.buildPath n = h.buildPath n := by
  have size : h'.numNodes = h.numNodes := congrArg Layout.size same
  have entry : ∀ m, (h'.node m).toEntry = (h.node m).toEntry := fun m =>
    congrFun (congrArg Layout.entry same) m
  have up : ∀ fuel m, h'.buildPathUp fuel m = h.buildPathUp fuel m := by
    intro fuel
    induction fuel with
    | zero =>
      intro m
      exact congrArg Entry.name (entry m)
    | succ fuel ih =>
      intro m
      unfold buildPathUp
      rw [entry m]
      cases (h.node m).parent with
      | none => rfl
      | some p => simp only [ih]
  rw [buildPath, buildPath, size, up]

/-- The tree has a node for each call, at the path that the call is about. -/
structure TreeCtor.Depicts (calls : List Call) (t : TreeCtor) : Prop where
  fresh : t.heap.Fresh 0
  root : t.root = some 0
  size : t.heap.numNodes = calls.length
  type : ∀ k call, calls[k]? = some call → (t.heap.node k).type = call.nodeType
  path : ∀ k call, calls[k]? = some call → t.heap.buildPath k = call.path.native
  /-- A child is directly inside its parent. -/
  parent : ∀ k l call call', calls[k]? = some call → calls[l]? = some call' →
    (l ∈ t.heap.layout.children k ↔ call'.above = some call.path ∧ call.nodeType = .dir)
  holds : ∀ s : Sum2Node, s.Orders t.sum2Node → s.Holds t.heap.layout (TreeCtor.callSum calls)
  sizes : ∀ least : Int, (∀ path info, .file path info ∈ calls → least ≤ info.size.toInt) →
    t.AtLeast least

namespace Survey.Told

variable {v : Survey} {calls : List Call} {handles : Path → NodeId} {t : TreeCtor}

theorem opened_of_dir {call : Call} (hc : call ∈ calls) (dir : call.nodeType = .dir) :
    Call.Opened calls call.path := by
  cases call with
  | rootDir p => exact Or.inl hc
  | dir p => exact Or.inr hc
  | file => cases dir

theorem parent (told : v.Told calls) (mirrors : TreeCtor.Mirrors calls handles t) {k l : NodeId}
    {call call' : Call} (here : calls[k]? = some call) (here' : calls[l]? = some call') :
    l ∈ t.heap.layout.children k ↔ call'.above = some call.path ∧ call.nodeType = .dir := by
  have linked : l ∈ t.heap.layout.children k ↔ (t.heap.node l).parent = some k :=
    mirrors.growing.parent_iff k l
  rw [linked, mirrors.parent l call' here', Option.map_eq_some_iff]
  have mem := List.mem_of_getElem? here
  constructor
  · rintro ⟨dir, above, rfl⟩
    obtain ⟨opener, there, rfl, isDir⟩ :=
      mirrors.opened dir (mirrors.closed call' (List.mem_of_getElem? here') dir above)
    obtain rfl := Option.some.inj (there.symm.trans here)
    exact ⟨above, isDir⟩
  · rintro ⟨above, dir⟩
    refine ⟨call.path, above, ?_⟩
    obtain ⟨opener, there, same, -⟩ := mirrors.opened call.path (opened_of_dir mem dir)
    obtain rfl := told.single opener (List.mem_of_getElem? there) call mem same
    have inside := (List.getElem?_eq_some_iff.mp there).1
    exact (List.getElem?_inj inside told.nodup).mp (there.trans here.symm)

/-- The tree of what is told is built. -/
theorem depicted (told : v.Told calls) : ∃ t, Input.tree calls = .ok t ∧ t.Depicts calls := by
  obtain ⟨tail, split, follows⟩ := told.follows
  have names := told.names (.rootDir v.root) (by rw [split]; exact List.mem_cons_self)
  obtain ⟨t₀, ran₀, mirrors₀⟩ := TreeCtor.mirrors_root (Path.native_ne told.root_ne names)
  obtain ⟨handles, t, ran, mirrors⟩ := mirrors₀.issueAll tail follows
  rw [List.singleton_append, ← split] at mirrors
  have made : Input.tree calls = .ok t := by
    rw [split]
    unfold Input.tree issued
    rw [Call.issueAll, List.foldlM_cons, StateT.run_bind, ran₀]
    exact congrArg Prod.snd ran
  have some : 0 < t.heap.numNodes := by
    rw [mirrors.size, split]
    exact Nat.succ_pos _
  refine ⟨t, made, mirrors.growing.fresh some, mirrors.root, mirrors.size, mirrors.type,
    mirrors.buildPath fun call hc dir above => ?_, fun _ _ _ _ => told.parent mirrors,
    fun _ => mirrors.holds, fun least files => Input.tree_atLeast files made⟩
  obtain ⟨-, ne, all, name, path⟩ := told.inner hc above
  rw [path]
  exact Path.native_child ne all name

end Survey.Told

/-! ## Directories -/

namespace FileSystem

/-- A file that is read and has a checksum other than 0. -/
def Readable (files : FileSystem) (root path : Path) (info : FileInfo) : Prop :=
  files.Regular root path ∧ files.hash path = some info ∧ info.sum ≠ 0

def survey (files : FileSystem) (root : Path) : Survey :=
  ⟨root, files.Listed root, files.Readable root⟩

variable {files : FileSystem} {root p : Path}

theorem Listed.directory (listed : files.Listed root p) (ne : p ≠ root) :
    files.kind p = some .directory := by
  cases listed with
  | root listed => exact absurd rfl ne
  | child parent listing member kind listed => exact kind

theorem Named.names (named : files.Named) (ofDir : root.OfDir)
    (found : files.Listed root p ∨ files.Regular root p) : ∀ name ∈ p.names, Path.IsName name := by
  have below : root <+: p :=
    found.elim FileSystem.Listed.below_root fun regular => regular.1.below_root.1
  have inner : Path.Inner (p.drop root.length) :=
    found.elim (FileSystem.Listed.inner named) (FileSystem.Regular.inner named)
  rw [← List.prefix_iff_eq_append.mp below, Path.names_append ofDir.1]
  exact fun name member => (List.mem_append.mp member).elim (ofDir.2 name) (inner name)

end FileSystem

namespace Scanned

variable {files : FileSystem} {root : Path} {calls : List Call} {call call' : Call}

/-- A scan tells of listed directories and of regular files. -/
theorem found (h : Scanned files root calls) (hc : call ∈ calls) :
    files.Listed root call.path ∨ files.Regular root call.path := by
  cases call with
  | rootDir p =>
    obtain ⟨rfl, listed⟩ := (h.roots p).mp hc
    exact Or.inl (.root listed)
  | dir p => exact Or.inl ((h.dirs p).mp hc).2
  | file p info => exact Or.inr ((h.reports p info).mp hc).1

theorem opened_iff (h : Scanned files root calls) (p : Path) :
    Call.Opened calls p ↔ files.Listed root p := by
  rw [Call.Opened, h.roots, h.dirs]
  constructor
  · rintro (⟨rfl, listed⟩ | ⟨-, listed⟩)
    · exact .root listed
    · exact listed
  · intro listed
    by_cases top : p = root
    · subst top
      exact Or.inl ⟨rfl, listed.isSome⟩
    · exact Or.inr ⟨top, listed⟩

theorem told (h : Scanned files root calls) (named : files.Named) (ofDir : root.OfDir)
    (listed : (files.list root).isSome) : (files.survey root).Told calls where
  first := by
    have mem := (h.roots root).mpr ⟨rfl, listed⟩
    obtain ⟨first, tail, split⟩ := List.exists_cons_of_ne_nil (List.ne_nil_of_mem mem)
    have rooted := h.rooted [] first tail split
    rw [split]
    cases first with
    | rootDir p =>
      rw [((h.roots p).mp (by rw [split]; exact List.mem_cons_self)).1]
      rfl
    | dir p | file p info => simp [Call.Rooted, Call.Opened] at rooted
  nodup := h.nodup
  root p hp := ((h.roots p).mp hp).1
  root_ne := ofDir.1
  dirs := h.opened_iff
  files := h.reports
  below call hc := (h.found hc).elim FileSystem.Listed.below_root
    fun regular => regular.1.below_root.1
  single := by
    have file : ∀ p info, .file p info ∈ calls → files.kind p = some .regular ∧
        p ≠ root ∧ files.hash p = some info := by
      intro p info hc
      obtain ⟨regular, known, -⟩ := (h.reports p info).mp hc
      exact ⟨regular.2, regular.1.below_root.2, known⟩
    apply Call.path_inj (fun p hp => ((h.roots p).mp hp).1) fun p hp => ((h.dirs p).mp hp).1
    · intro p info hc opened
      obtain ⟨kind, ne, -⟩ := file p info hc
      have directory := ((h.opened_iff p).mp opened).directory ne
      rw [kind] at directory
      cases directory
    · intro p info info' hc hc'
      exact Option.some.inj ((file p info hc).2.2.symm.trans (file p info' hc').2.2)
  names call hc := named.names ofDir (h.found hc)
  rooted := h.rooted

end Scanned

/-! ## Databases -/

namespace Db

/-- The directories on the way to the files, from the one that all have in common. -/
def survey (db : Db) (common : Path) : Survey :=
  ⟨common, fun p => common <+: p ∧ ∃ entry ∈ db.entries, p <+: entry.1.parentPath,
    fun p info => (p, info) ∈ db.entries⟩

/-- No file is in another one. -/
def Flat (db : Db) : Prop :=
  ∀ entry ∈ db.entries, ∀ entry' ∈ db.entries, ¬entry.1 <+: entry'.1.parentPath

end Db

namespace Describes

variable {db : Db} {common : Path} {calls : List Call} {call call' : Call}

theorem opened_iff (describes : Describes db.entries common calls)
    (some : ∃ entry ∈ db.entries, common <+: entry.1.parentPath) (p : Path) :
    Call.Opened calls p ↔ common <+: p ∧ ∃ entry ∈ db.entries, p <+: entry.1.parentPath := by
  rw [Call.Opened, describes.root, describes.dirs]
  constructor
  · rintro (rfl | ⟨below, -, down⟩)
    · exact ⟨List.prefix_refl _, some⟩
    · exact ⟨below, down⟩
  · rintro ⟨below, down⟩
    by_cases top : p = common
    · exact Or.inl top
    · exact Or.inr ⟨below, top, down⟩

theorem told (describes : Describes db.entries common calls)
    (files : ∀ entry ∈ db.entries, entry.1.OfFile) (flat : db.Flat) (ne : common ≠ [])
    (below : ∀ entry ∈ db.entries, common <+: entry.1.parentPath)
    (some : ∃ entry ∈ db.entries, common <+: entry.1.parentPath) :
    (db.survey common).Told calls := by
  have opened := describes.opened_iff some
  have found : ∀ call ∈ calls, common <+: call.path ∧
      ∃ entry ∈ db.entries, call.path <+: entry.1 := by
    intro call hc
    have dir : Call.Opened calls call.path →
        common <+: call.path ∧ ∃ entry ∈ db.entries, call.path <+: entry.1 := by
      intro h
      obtain ⟨below, entry, he, down⟩ := (opened _).mp h
      exact ⟨below, entry, he, down.trans (List.dropLast_prefix _)⟩
    cases call with
    | rootDir p => exact dir (Or.inl hc)
    | dir p => exact dir (Or.inr hc)
    | file p info =>
      have entry := (describes.files p info).mp hc
      exact ⟨(below _ entry).trans (List.dropLast_prefix _), (p, info), entry, List.prefix_refl p⟩
  refine ⟨describes.first, describes.nodup, fun p => (describes.root p).mp, ne, opened,
    describes.files, fun call hc => (found call hc).1, ?_, fun call hc => ?_, describes.rooted⟩
  · apply Call.path_inj (fun p => (describes.root p).mp) fun p hp => ((describes.dirs p).mp hp).2.1
    · intro p info hc h
      obtain ⟨-, entry, he, down⟩ := (opened p).mp h
      exact flat _ ((describes.files p info).mp hc) entry he down
    · intro p info info' hc hc'
      exact congrArg Prod.snd (List.inj_on_of_nodup_map db.distinct
        ((describes.files p info).mp hc) ((describes.files p info').mp hc') rfl)
  · obtain ⟨-, entry, he, down⟩ := found call hc
    exact (files entry he).upto down

end Describes

end Dupa
