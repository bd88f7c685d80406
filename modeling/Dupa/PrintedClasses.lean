import Dupa.Returns
import Dupa.Scattered
import Dupa.Survey

/-!
# What is printed about one input

Given one directory or database, `dupa` prints the classes of similar files and
directories and the directories whose files are scattered elsewhere. Both parts speak of
what is there, and no duplicate is left out (`directory_printed`). Nothing is printed
where the sum of a distance is too large.
-/

namespace Dupa

open Checked

/-! ## Printing -/

namespace Heap

/-- The paths in a line of `PrintEqClassses`, which are sorted. -/
def printedPaths (h : Heap) (c : ClassId) : List Bytes :=
  ((h.eqClass c).nodes.map fun n => bytes (h.buildPath n)).insertionSort (· ≤ ·)

end Heap

/-- The lines of `PrintEqClassses`. -/
def classesText (lines : List (List Bytes)) : Bytes :=
  bytes "*** Classes of similar directories or files:\n" ++
    lines.flatMap fun paths => (bytes " ").intercalate paths ++ bytes "\n"

def Heap.printEqClassses (h : Heap) (eqClasses : List ClassId) : Bytes :=
  classesText (eqClasses.map h.printedPaths)

def linesText (lines : List String) : Bytes := lines.flatMap fun line => bytes line ++ bytes "\n"

/-- What `main` prints about one input, of which `ScanDirectoryOrDb` has made `t`. -/
def printFuzzyDedup (E : Env) (S T : ClassSort) (sum2Node : Sum2Node) (t : TreeCtor) :
    Except Fault Bytes :=
  match t.root with
  | none => return bytes "No files in specified location\n"
  | some root => do
    let res ← fuzzyDedup E S t.heap root sum2Node
    let eqClasses ← res.heap.getInteresingEqClasses res.eqClasses
    let scattered ← res.heap.printScatteredDirectories E T root res.uniqueFraction
    return res.heap.printEqClassses eqClasses ++ linesText scattered

/-! ## What is meant -/

/-- Lines of classes, each given by its paths, and scattered directories. -/
structure Survey.Reported (v : Survey) (lines : List (List Bytes)) (scattered : List Bytes) :
    Prop where
  several : ∀ line ∈ lines, 2 ≤ line.length
  sorted : ∀ line ∈ lines, line.Pairwise (· < ·)
  /-- No path is in two lines. -/
  apart : lines.Pairwise List.Disjoint
  found : ∀ line ∈ lines, ∀ x ∈ line, ∃ path, x = bytes (Path.native path) ∧
    (v.dirs path ∨ ∃ info, v.files path info)
  /-- In a line with a file there are all files with its checksum and nothing else. -/
  alike : ∀ line ∈ lines, ∀ path info, v.files path info → bytes (Path.native path) ∈ line →
    ∀ x, x ∈ line ↔
      ∃ copy info', v.files copy info' ∧ info'.sum = info.sum ∧ x = bytes (Path.native copy)
  /-- A file that has a copy is there, or a directory that it is in. -/
  covered : ∀ path copy info info', v.files path info → v.files copy info' → copy ≠ path →
    info'.sum = info.sum →
      ∃ line ∈ lines, ∃ dir, v.root <+: dir ∧ dir <+: path ∧ bytes (Path.native dir) ∈ line
  scattered_nodup : scattered.Nodup
  scattered_dir : ∀ x ∈ scattered, ∃ dir, v.dirs dir ∧ x = bytes (Path.native dir)
  /-- A scattered directory is similar to no other. -/
  scattered_alone : ∀ x ∈ scattered, ∀ line ∈ lines, x ∉ line

/-! ## The nodes of a classified tree -/

namespace TreeCtor.Depicts

variable {v : Survey} {calls : List Call} {call call' : Call} {t : TreeCtor} {h : Heap}
  {n m : NodeId}
variable (depicts : t.Depicts calls)
include depicts

/-- What is below a node is inside it. -/
theorem below (here : calls[n]? = some call) (here' : calls[m]? = some call')
    (below : Forest.Below t.heap.layout.children n m) : call.path <+: call'.path := by
  induction below generalizing call' with
  | refl =>
    obtain rfl := Option.some.inj (here.symm.trans here')
    exact List.prefix_refl _
  | @tail m l below child ih =>
    have inside : m < calls.length :=
      depicts.size ▸ (depicts.fresh.tree.inside m l child).1
    have there : calls[m]? = some calls[m] := List.getElem?_eq_getElem inside
    obtain ⟨above, -⟩ := (depicts.parent m l _ _ there here').mp child
    have step : calls[m].path <+: call'.path := by
      cases call' with
      | rootDir p => cases above
      | dir p | file p info =>
        rw [← Option.some.inj above]
        exact List.dropLast_prefix _
    exact (ih there).trans step

variable (layout : h.layout = t.heap.layout)
include layout

theorem node (hn : n < h.numNodes) : ∃ call, calls[n]? = some call ∧
    (h.node n).type = call.nodeType ∧ h.buildPath n = call.path.native := by
  have size : h.numNodes = t.heap.numNodes := congrArg Layout.size layout
  have entry : (h.node n).toEntry = (t.heap.node n).toEntry :=
    congrFun (congrArg Layout.entry layout) n
  have lt : n < calls.length := by rw [← depicts.size, ← size]; exact hn
  have here : calls[n]? = some calls[n] := List.getElem?_eq_getElem lt
  refine ⟨_, here, ?_, ?_⟩
  · rw [entry, depicts.type n _ here]
  · rw [Heap.buildPath_of_layout layout, depicts.path n _ here]

theorem of_call (here : calls[n]? = some call) : n < h.numNodes ∧
    (h.node n).type = call.nodeType ∧ h.buildPath n = call.path.native := by
  have size : h.numNodes = t.heap.numNodes := congrArg Layout.size layout
  have inside : n < h.numNodes := by
    rw [size, depicts.size]
    exact (List.getElem?_eq_some_iff.mp here).1
  obtain ⟨call', here', type, path⟩ := depicts.node layout inside
  obtain rfl := Option.some.inj (here.symm.trans here')
  exact ⟨inside, type, path⟩

/-- The files of the tree are the files that the calls tell of. -/
theorem isFile_iff : h.layout.IsFile n ↔ ∃ path info, calls[n]? = some (.file path info) := by
  constructor
  · rintro ⟨inside, file⟩
    obtain ⟨call, here, type, -⟩ := depicts.node layout inside
    have isFile : call.nodeType = .file := type.symm.trans file
    cases call with
    | rootDir | dir => cases isFile
    | file path info => exact ⟨path, info, here⟩
  · rintro ⟨path, info, here⟩
    obtain ⟨inside, type, -⟩ := depicts.of_call layout here
    exact ⟨inside, type⟩

variable (told : v.Told calls)
include told

/-- Different nodes are printed differently. -/
theorem buildPath_inj (hn : n < h.numNodes) (hm : m < h.numNodes)
    (same : bytes (h.buildPath n) = bytes (h.buildPath m)) : n = m := by
  obtain ⟨call, here, -, path⟩ := depicts.node layout hn
  obtain ⟨call', here', -, path'⟩ := depicts.node layout hm
  rw [path, path'] at same
  obtain rfl := told.native_inj (List.mem_of_getElem? here) (List.mem_of_getElem? here')
    (bytes_inj same)
  have inside := (List.getElem?_eq_some_iff.mp here).1
  exact (List.getElem?_inj inside told.nodup).mp (here.trans here'.symm)

theorem file_iff {path : Path} {info : FileInfo} : v.files path info ↔
    ∃ n, h.layout.IsFile n ∧ calls[n]? = some (.file path info) := by
  rw [← told.files]
  constructor
  · intro told
    obtain ⟨n, here⟩ := List.mem_iff_getElem?.mp told
    exact ⟨n, (depicts.isFile_iff layout).mpr ⟨path, info, here⟩, here⟩
  · rintro ⟨n, -, here⟩
    exact List.mem_of_getElem? here

theorem dir_iff {path : Path} : v.dirs path ↔ ∃ n call, h.layout.IsDir n ∧
    calls[n]? = some call ∧ call.path = path := by
  rw [← told.dirs]
  constructor
  · intro opened
    obtain ⟨call, hc, same, dir⟩ := opened.call
    obtain ⟨n, here⟩ := List.mem_iff_getElem?.mp hc
    obtain ⟨inside, type, -⟩ := depicts.of_call layout here
    exact ⟨n, call, ⟨inside, type.trans dir⟩, here, same⟩
  · rintro ⟨n, call, ⟨-, dir⟩, here, rfl⟩
    obtain ⟨-, type, -⟩ := depicts.of_call layout here
    exact Survey.Told.opened_of_dir (List.mem_of_getElem? here) (type.symm.trans dir)

theorem found_node (hn : n < h.numNodes) : ∃ path, h.buildPath n = path.native ∧
    (v.dirs path ∨ ∃ info, v.files path info) := by
  obtain ⟨call, here, type, path⟩ := depicts.node layout hn
  refine ⟨call.path, path, ?_⟩
  cases call with
  | rootDir p => exact Or.inl ((depicts.dir_iff layout told).mpr ⟨n, _, ⟨hn, type⟩, here, rfl⟩)
  | dir p => exact Or.inl ((depicts.dir_iff layout told).mpr ⟨n, _, ⟨hn, type⟩, here, rfl⟩)
  | file p info => exact Or.inr ⟨info, (told.files p info).mp (List.mem_of_getElem? here)⟩

end TreeCtor.Depicts

namespace Heap

variable {h : Heap} {eqClasses res : List ClassId}

theorem mem_printedPaths {c : ClassId} {x : Bytes} :
    x ∈ h.printedPaths c ↔ ∃ n ∈ (h.eqClass c).nodes, bytes (h.buildPath n) = x := by
  simp [printedPaths, List.mem_insertionSort]

/-- What is interesting keeps its order. -/
theorem getInteresingEqClasses_sublist (run : h.getInteresingEqClasses eqClasses = .ok res) :
    res.Sublist eqClasses := by
  induction eqClasses generalizing res with
  | nil =>
    obtain rfl := Except.ok.inj run
    exact List.Sublist.refl _
  | cons c rest ih =>
    rw [getInteresingEqClasses] at run
    obtain ⟨b, -, run⟩ := of_bind_ok run
    obtain ⟨some, later, run⟩ := of_bind_ok run
    obtain rfl := Except.ok.inj run
    cases b with
    | true => exact (ih later).cons_cons c
    | false => exact (ih later).cons c

end Heap

/-! ## The report -/

namespace TreeCtor.Depicts

variable {v : Survey} {calls : List Call} {t : TreeCtor} {h : Heap}
  {eqClasses res : List ClassId} {c : ClassId} {n : NodeId}
variable (depicts : t.Depicts calls) (layout : h.layout = t.heap.layout) (told : v.Told calls)
include depicts layout told

theorem printedPaths_sorted (part : h.Partitioned eqClasses) (hc : c ∈ eqClasses) :
    (h.printedPaths c).Pairwise (· < ·) := by
  have inside : ∀ n ∈ (h.eqClass c).nodes, n < h.numNodes := fun n hn =>
    ((part.member c hc n).mp hn).1
  have distinct : (h.printedPaths c).Nodup := by
    rw [Heap.printedPaths, (List.perm_insertionSort _ _).nodup_iff]
    apply List.Nodup.map_on _ (part.nodes_nodup c hc)
    intro n hn m hm same
    exact depicts.buildPath_inj layout told (inside n hn) (inside m hm) same
  have ordered : (h.printedPaths c).Pairwise (· ≤ ·) := List.pairwise_insertionSort _ _
  exact (ordered.and distinct).imp fun ⟨le, ne⟩ => lt_of_le_of_ne le ne

/-- A path is in the line of the class of its node. -/
theorem printed_iff (part : h.Partitioned eqClasses) (hc : c ∈ eqClasses) (hn : n < h.numNodes) :
    bytes (h.buildPath n) ∈ h.printedPaths c ↔ (h.node n).eqClass = some c := by
  rw [Heap.mem_printedPaths]
  constructor
  · rintro ⟨m, hm, same⟩
    obtain ⟨inside, ofC⟩ := (part.member c hc m).mp hm
    obtain rfl := depicts.buildPath_inj layout told inside hn same
    exact ofC
  · intro ofC
    exact ⟨n, (part.member c hc n).mpr ⟨hn, ofC⟩, rfl⟩

theorem printedPaths_apart (part : h.Partitioned eqClasses) {d : ClassId} (hc : c ∈ eqClasses)
    (hd : d ∈ eqClasses) (ne : c ≠ d) : List.Disjoint (h.printedPaths c) (h.printedPaths d) := by
  intro x inC inD
  obtain ⟨n, hn, rfl⟩ := Heap.mem_printedPaths.mp inC
  obtain ⟨inside, ofC⟩ := (part.member c hc n).mp hn
  have ofD := (depicts.printed_iff layout told part hd inside).mp inD
  exact ne (Option.some.inj (ofC.symm.trans ofD))

theorem printedPaths_alike (full : h.FullyClassified (TreeCtor.callSum calls) 0 eqClasses)
    (hc : c ∈ eqClasses) {path : Path} {info : FileInfo} (file : v.files path info)
    (member : bytes path.native ∈ h.printedPaths c) (x : Bytes) :
    x ∈ h.printedPaths c ↔ ∃ copy info', v.files copy info' ∧ info'.sum = info.sum ∧
      x = bytes (Path.native copy) := by
  have sum : ∀ {n path info}, calls[n]? = some (.file path info) →
      TreeCtor.callSum calls n = info.sum := fun here => by simp [TreeCtor.callSum, here]
  have printed : ∀ {n path info}, calls[n]? = some (.file path info) →
      h.buildPath n = path.native := fun here => (depicts.of_call layout here).2.2
  obtain ⟨n, isFile, here⟩ := (depicts.file_iff layout told).mp file
  rw [← printed here] at member
  have ofC := (depicts.printed_iff layout told full.toPartitioned hc isFile.1).mp member
  have members : ∀ k, k ∈ (h.eqClass c).nodes ↔ h.layout.IsFile k ∧
      TreeCtor.callSum calls k = info.sum := by
    intro k
    rw [full.mem_nodes isFile ofC, sum here]
  rw [Heap.mem_printedPaths]
  constructor
  · rintro ⟨k, hk, rfl⟩
    obtain ⟨isFile', same⟩ := (members k).mp hk
    obtain ⟨copy, info', here'⟩ := (depicts.isFile_iff layout).mp isFile'
    rw [sum here'] at same
    exact ⟨copy, info', (depicts.file_iff layout told).mpr ⟨k, isFile', here'⟩, same,
      congrArg bytes (printed here')⟩
  · rintro ⟨copy, info', file', same, rfl⟩
    obtain ⟨k, isFile', here'⟩ := (depicts.file_iff layout told).mp file'
    exact ⟨k, (members k).mpr ⟨isFile', (sum here').trans same⟩, congrArg bytes (printed here')⟩

/-- Above a node that has duplicates there is one in a class that is printed. -/
theorem printed_above (part : h.Partitioned eqClasses) (tree : h.layout.IsTree 0)
    (mem : ∀ c, c ∈ eqClasses ∧ h.Interesting 0 c → c ∈ res) {call : Call}
    (here : calls[n]? = some call) (ofC : (h.node n).eqClass = some c)
    (several : 2 ≤ (h.eqClass c).nodes.length) : ∃ a d above, calls[a]? = some above ∧
      (h.node a).eqClass = some d ∧ d ∈ res ∧ v.root <+: above.path ∧ above.path <+: call.path ∧
      bytes above.path.native ∈ h.printedPaths d := by
  obtain ⟨inside, -⟩ := depicts.of_call layout here
  obtain ⟨a, d, up, ofD, interesting⟩ :=
    part.interesting_above tree (tree.below_root inside) ofC several
  have inside' : a < h.numNodes := by
    rcases Forest.below_iff.mp up with rfl | ⟨x, hx, -⟩
    · exact inside
    · exact (tree.inside a x hx).1
  obtain ⟨e, he, ofE⟩ := part.classified a inside'
  obtain rfl := Option.some.inj (ofD.symm.trans ofE)
  obtain ⟨above, there, -, print⟩ := depicts.node layout inside'
  refine ⟨a, d, above, there, ofD, mem d ⟨he, interesting⟩,
    told.below above (List.mem_of_getElem? there), depicts.below there here (layout ▸ up), ?_⟩
  rw [← print]
  exact (depicts.printed_iff layout told part he inside').mpr ofD

/-- Of two files of one checksum the first, or a directory it is in, is in a class that
is printed. -/
theorem printedPaths_covered (full : h.FullyClassified (TreeCtor.callSum calls) 0 eqClasses)
    (mem : ∀ c, c ∈ eqClasses ∧ h.Interesting 0 c → c ∈ res) {path copy : Path}
    {info info' : FileInfo} (file : v.files path info) (file' : v.files copy info')
    (ne : copy ≠ path) (same : info'.sum = info.sum) :
    ∃ c ∈ res, ∃ dir, v.root <+: dir ∧ dir <+: path ∧
      bytes (Path.native dir) ∈ h.printedPaths c := by
  have sum : ∀ {n path info}, calls[n]? = some (.file path info) →
      TreeCtor.callSum calls n = info.sum := fun here => by simp [TreeCtor.callSum, here]
  obtain ⟨n, isFile, here⟩ := (depicts.file_iff layout told).mp file
  obtain ⟨m, isFile', here'⟩ := (depicts.file_iff layout told).mp file'
  obtain ⟨c, hc, ofC⟩ := full.classified n isFile.1
  have two : ¬h.IsSingle c := by
    rw [full.isSingle_iff isFile ofC, not_not]
    refine ⟨m, ?_, isFile', by rw [sum here, sum here', same]⟩
    rintro rfl
    cases here.symm.trans here'
    exact ne rfl
  have several : 2 ≤ (h.eqClass c).nodes.length := by
    have some := List.length_pos_of_ne_nil (full.nonempty c hc)
    have : (h.eqClass c).nodes.length ≠ 1 := two
    omega
  obtain ⟨a, d, above, -, -, listed, below, up, printed⟩ :=
    depicts.printed_above layout told full.toPartitioned full.tree mem here ofC several
  exact ⟨d, listed, above.path, below, up, printed⟩

/-- The lines of the interesting classes report the input. -/
theorem reported (full : h.FullyClassified (TreeCtor.callSum calls) 0 eqClasses)
    (nodup : eqClasses.Nodup) (run : h.getInteresingEqClasses eqClasses = .ok res)
    (mem : ∀ c, c ∈ res ↔ c ∈ eqClasses ∧ h.Interesting 0 c) {dirs : List NodeId}
    (dirs_nodup : dirs.Nodup) (alone : ∀ n ∈ dirs, h.AloneDir n) :
    v.Reported (res.map h.printedPaths) (dirs.map fun n => bytes (h.buildPath n)) where
  several := by
    rw [List.forall_mem_map]
    intro c hc
    rw [Heap.printedPaths, List.length_insertionSort, List.length_map]
    exact ((mem c).mp hc).2.1
  sorted := by
    rw [List.forall_mem_map]
    intro c hc
    exact depicts.printedPaths_sorted layout told full.toPartitioned ((mem c).mp hc).1
  apart := by
    have distinct := (Heap.getInteresingEqClasses_sublist run).nodup nodup
    rw [List.pairwise_map]
    apply distinct.imp_of_mem
    intro c d hc hd ne
    exact depicts.printedPaths_apart layout told full.toPartitioned ((mem c).mp hc).1
      ((mem d).mp hd).1 ne
  found := by
    rw [List.forall_mem_map]
    intro c hc x hx
    obtain ⟨n, hn, rfl⟩ := Heap.mem_printedPaths.mp hx
    have inside := ((full.member c ((mem c).mp hc).1 n).mp hn).1
    obtain ⟨path, print, found⟩ := depicts.found_node layout told inside
    exact ⟨path, congrArg bytes print, found⟩
  alike := by
    rw [List.forall_mem_map]
    intro c hc path info file member
    exact depicts.printedPaths_alike layout told full ((mem c).mp hc).1 file member
  covered := by
    intro path copy info info' file file' ne same
    obtain ⟨c, hc, dir, below, above, member⟩ :=
      depicts.printedPaths_covered layout told full (fun c => (mem c).mpr) file file' ne same
    exact ⟨_, List.mem_map_of_mem hc, dir, below, above, member⟩
  scattered_nodup := by
    apply List.Nodup.map_on _ dirs_nodup
    intro n hn m hm same
    exact depicts.buildPath_inj layout told (alone n hn).1.1 (alone m hm).1.1 same
  scattered_dir := by
    rw [List.forall_mem_map]
    intro n hn
    have dir := (alone n hn).1
    obtain ⟨call, here, -, print⟩ := depicts.node layout dir.1
    exact ⟨call.path, (depicts.dir_iff layout told).mpr ⟨n, call, dir, here, rfl⟩,
      congrArg bytes print⟩
  scattered_alone := by
    rw [List.forall_mem_map]
    intro n hn line hl member
    obtain ⟨c, hc, rfl⟩ := List.mem_map.mp hl
    obtain ⟨listed, several, -⟩ := (mem c).mp hc
    obtain ⟨⟨inside, -⟩, d, ofD, single⟩ := alone n hn
    have ofC := (depicts.printed_iff layout told full.toPartitioned listed inside).mp member
    obtain rfl := Option.some.inj (ofD.symm.trans ofC)
    have one : (h.eqClass d).nodes.length = 1 := single
    omega

end TreeCtor.Depicts

/-! ## Runs -/

/-- The classes and the directories that are printed of a result. -/
structure FuzzyDedupRes.Shown (E : Env) (T : ClassSort) (root : NodeId) (res : FuzzyDedupRes)
    (eqClasses : List ClassId) (dirs : List NodeId) : Prop where
  classes : res.heap.getInteresingEqClasses res.eqClasses = .ok eqClasses
  mem : ∀ c, c ∈ eqClasses ↔ c ∈ res.eqClasses ∧ res.heap.Interesting root c
  scattered : res.heap.printScatteredDirectories E T root res.uniqueFraction =
    .ok (Heap.scatteredHeading :: dirs.map res.heap.buildPath)
  nodup : dirs.Nodup
  alone : ∀ n, n ∈ dirs ↔ res.heap.AloneDir n ∧ Heap.BelowTolerance E (res.uniqueFraction n)

theorem FuzzyDedupRes.Sound.shown {E : Env} {root : NodeId} {res : FuzzyDedupRes}
    (sound : res.Sound E root) (T : ClassSort) :
    ∃ eqClasses dirs, res.Shown E T root eqClasses dirs := by
  obtain ⟨eqClasses, classes, mem⟩ :=
    Heap.getInteresingEqClasses_ok sound.tree sound.partitioned (List.Subset.refl _)
  obtain ⟨dirs, listed, nodup, alone⟩ :=
    Heap.scatteredDirs_ok (E := E) sound.tree sound.partitioned res.uniqueFraction
  have perm := T.perm (fun n => (res.uniqueFraction n).getD 0) dirs
  refine ⟨eqClasses, _, classes, mem, ?_, perm.nodup_iff.mpr nodup,
    fun n => perm.mem_iff.trans (alone n)⟩
  rw [Heap.printScatteredDirectories, listed]
  rfl

theorem FuzzyDedupRes.Shown.printed {E : Env} {S T : ClassSort} {root : NodeId} {res : FuzzyDedupRes}
    {eqClasses : List ClassId} {dirs : List NodeId} (shown : res.Shown E T root eqClasses dirs)
    {t : TreeCtor} (top : t.root = some root) {sum2Node : Sum2Node}
    (run : fuzzyDedup E S t.heap root sum2Node = .ok res) : printFuzzyDedup E S T sum2Node t =
      .ok (classesText (eqClasses.map res.heap.printedPaths) ++
        linesText (Heap.scatteredHeading :: dirs.map res.heap.buildPath)) := by
  rw [printFuzzyDedup, top]
  change (fuzzyDedup E S t.heap root sum2Node >>= _) = _
  rw [run, ok_bind, shown.classes, ok_bind, shown.scattered]
  rfl

theorem of_printFuzzyDedup {E : Env} {S T : ClassSort} {sum2Node : Sum2Node} {t : TreeCtor}
    {root : NodeId} {text : Bytes} (top : t.root = some root)
    (run : printFuzzyDedup E S T sum2Node t = .ok text) :
    ∃ res, fuzzyDedup E S t.heap root sum2Node = .ok res := by
  rw [printFuzzyDedup, top] at run
  obtain ⟨res, dedup, -⟩ := of_bind_ok run
  exact ⟨res, dedup⟩

/-! ## Trees that have been built -/

namespace TreeCtor.Depicts

variable {v : Survey} {calls : List Call} {t : TreeCtor} {E : Env} {S T : ClassSort}
  {sum2Node : Sum2Node}
variable (depicts : t.Depicts calls) (told : v.Told calls) (sized : v.Sized E)
  (orders : sum2Node.Orders t.sum2Node)
include depicts told sized

theorem layout_sized : E.Sized t.heap.layout := by
  intro counts n file
  have files : ∀ path info, .file path info ∈ calls → 0 ≤ info.size.toInt := fun path info hc =>
    sized counts path info ((told.files path info).mp hc)
  exact depicts.sizes 0 files n file.2

include orders

theorem fuzzyDedup_iff : (∃ res, fuzzyDedup E S t.heap 0 sum2Node = .ok res) ↔
    Propagation.SumsFit E t.heap 0 sum2Node :=
  fuzzyDedup_ok_iff depicts.fresh (depicts.holds sum2Node orders) (depicts.layout_sized told sized)

theorem fuzzyDedup_exact (exact : E.rounding = .exact) :
    ∃ res, fuzzyDedup E S t.heap 0 sum2Node = .ok res :=
  Dupa.fuzzyDedup_exact S exact depicts.fresh (depicts.holds sum2Node orders)
    (depicts.layout_sized told sized)

/-- What is printed about a result. -/
theorem printed (T : ClassSort) {res : FuzzyDedupRes}
    (dedup : fuzzyDedup E S t.heap 0 sum2Node = .ok res) :
    ∃ (eqClasses : List ClassId) (dirs : List NodeId), res.Shown E T 0 eqClasses dirs ∧
      printFuzzyDedup E S T sum2Node t = .ok (classesText (eqClasses.map res.heap.printedPaths) ++
        linesText (Heap.scatteredHeading :: dirs.map res.heap.buildPath)) ∧
      v.Reported (eqClasses.map res.heap.printedPaths)
        ((dirs.map res.heap.buildPath).map bytes) := by
  have holds := depicts.holds sum2Node orders
  obtain ⟨layout, -⟩ := fuzzyDedup_sound depicts.fresh holds dedup
  obtain ⟨full, sound⟩ := fuzzyDedup_full depicts.fresh holds (depicts.layout_sized told sized) dedup
  obtain ⟨eqClasses, dirs, shown⟩ := sound.shown T
  refine ⟨eqClasses, dirs, shown, shown.printed depicts.root dedup, ?_⟩
  rw [List.map_map]
  exact depicts.reported layout told full sound.nodup shown.classes shown.mem shown.nodup
    fun n hn => ((shown.alone n).mp hn).1

/-- Something is printed just where every sum fits. -/
theorem printed_iff_fits : (∃ text, printFuzzyDedup E S T sum2Node t = .ok text) ↔
    Propagation.SumsFit E t.heap 0 sum2Node := by
  rw [← depicts.fuzzyDedup_iff (S := S) told sized orders]
  constructor
  · rintro ⟨text, run⟩
    exact of_printFuzzyDedup depicts.root run
  · rintro ⟨res, dedup⟩
    obtain ⟨eqClasses, dirs, -, prints, -⟩ := depicts.printed told sized orders T dedup
    exact ⟨_, prints⟩

theorem printed_exact (exact : E.rounding = .exact) :
    ∃ text, printFuzzyDedup E S T sum2Node t = .ok text := by
  obtain ⟨res, dedup⟩ := depicts.fuzzyDedup_exact (S := S) told sized orders exact
  obtain ⟨eqClasses, dirs, -, prints, -⟩ := depicts.printed told sized orders T dedup
  exact ⟨_, prints⟩

/-- A text is about some result. -/
theorem of_printed {text : Bytes} (run : printFuzzyDedup E S T sum2Node t = .ok text) :
    ∃ res eqClasses dirs, fuzzyDedup E S t.heap 0 sum2Node = .ok res ∧
      res.Shown E T 0 eqClasses dirs ∧
      text = classesText (eqClasses.map res.heap.printedPaths) ++
        linesText (Heap.scatteredHeading :: dirs.map res.heap.buildPath) ∧
      v.Reported (eqClasses.map res.heap.printedPaths)
        ((dirs.map res.heap.buildPath).map bytes) := by
  obtain ⟨res, dedup⟩ := of_printFuzzyDedup depicts.root run
  obtain ⟨eqClasses, dirs, shown, prints, reported⟩ := depicts.printed told sized orders T dedup
  exact ⟨res, eqClasses, dirs, dedup, shown, Except.ok.inj (run.symm.trans prints), reported⟩

end TreeCtor.Depicts

namespace Sum2Node

/-- `insert`, which keeps equal keys adjacent. -/
def insertInto (k : Cksum) (n : NodeId) : List (Cksum × List NodeId) → List (Cksum × List NodeId)
  | [] => [(k, [n])]
  | group :: rest =>
    if group.1 = k then (group.1, group.2 ++ [n]) :: rest else group :: insertInto k n rest

theorem insertInto_keys (k : Cksum) (n : NodeId) (groups : List (Cksum × List NodeId)) :
    (insertInto k n groups).map Prod.fst =
      if k ∈ groups.map Prod.fst then groups.map Prod.fst else groups.map Prod.fst ++ [k] := by
  induction groups with
  | nil => rfl
  | cons group rest ih =>
    by_cases here : group.1 = k
    · simp [insertInto, here]
    · have other : k ≠ group.1 := Ne.symm here
      rw [insertInto, if_neg here, List.map_cons, ih]
      by_cases known : k ∈ rest.map Prod.fst <;> simp [known, other]

theorem insertInto_nonempty {k : Cksum} {n : NodeId} {groups : List (Cksum × List NodeId)}
    (nonempty : ∀ group ∈ groups, group.2 ≠ []) : ∀ group ∈ insertInto k n groups, group.2 ≠ [] := by
  induction groups with
  | nil => simp [insertInto]
  | cons group rest ih =>
    have later := ih fun g hg => nonempty g (List.mem_cons_of_mem _ hg)
    have first := nonempty group List.mem_cons_self
    rw [insertInto]
    split
    · simpa using fun a b hab => nonempty (a, b) (List.mem_cons_of_mem _ hab)
    · exact List.forall_mem_cons.mpr ⟨first, later⟩

theorem insertInto_perm (k : Cksum) (n : NodeId) (groups : List (Cksum × List NodeId)) :
    ((insertInto k n groups).flatMap fun group => group.2.map fun m => (group.1, m)).Perm
      ((groups.flatMap fun group => group.2.map fun m => (group.1, m)) ++ [(k, n)]) := by
  induction groups with
  | nil => exact List.Perm.refl _
  | cons group rest ih =>
    rw [insertInto]
    split
    · next here =>
      subst here
      simp only [List.flatMap_cons, List.map_append, List.map_cons, List.map_nil,
        List.append_assoc]
      exact List.Perm.append_left _ List.perm_append_comm
    · rw [List.flatMap_cons, List.flatMap_cons, List.append_assoc]
      exact ih.append_left _

def insert (s : Sum2Node) (entry : Cksum × NodeId) : Sum2Node where
  groups := insertInto entry.1 entry.2 s.groups
  keys := by
    rw [insertInto_keys]
    split
    · exact s.keys
    · next new =>
      rw [List.nodup_append]
      refine ⟨s.keys, List.nodup_singleton _, ?_⟩
      rintro k hk _ hn rfl
      exact new (List.mem_singleton.mp hn ▸ hk)
  nonempty := insertInto_nonempty s.nonempty

/-- The multimap that iterates its keys in the order of their first insertion. -/
def ofInserted (inserted : List (Cksum × NodeId)) : Sum2Node :=
  inserted.foldl insert ⟨[], List.nodup_nil, by simp⟩

theorem ofInserted_orders (inserted : List (Cksum × NodeId)) :
    (ofInserted inserted).Orders inserted := by
  induction inserted using List.reverseRecOn with
  | nil => exact List.Perm.refl _
  | append_singleton inserted entry ih =>
    rw [ofInserted, List.foldl_append]
    exact (insertInto_perm _ _ _).trans (ih.append_right [entry])

end Sum2Node

/-- Whatever the directory and however the threads were scheduled, a text is printed just
where the sums of the distances fit, and it reports the directory, unless that could not
be listed. -/
theorem directory_printed {files : FileSystem} {root : Path} {n : ℕ}
    {cache : Path → Option FileInfo} {calls : List Call}
    {s : Scan files (Except Fault TreeCtor) NodeId n} (named : files.Named) (ofDir : root.OfDir)
    (run : Scan.Run TreeCtor.processor root (.ok .start) cache calls s)
    (returned : s.pc = .returned) : ∃ t, s.processor = .ok t ∧
      ∀ (E : Env) (S T : ClassSort) (sum2Node : Sum2Node), sum2Node.Orders t.sum2Node →
        (files.list root = none →
          printFuzzyDedup E S T sum2Node t = .ok (bytes "No files in specified location\n")) ∧
        ((files.list root).isSome → (files.survey root).Sized E →
          ((∃ text, printFuzzyDedup E S T sum2Node t = .ok text) ↔
            Propagation.SumsFit E t.heap 0 sum2Node) ∧
          (E.rounding = .exact → ∃ text, printFuzzyDedup E S T sum2Node t = .ok text) ∧
          ∀ text, printFuzzyDedup E S T sum2Node t = .ok text → ∃ lines scattered,
            text = classesText lines ++ linesText (Heap.scatteredHeading :: scattered) ∧
            (files.survey root).Reported lines (scattered.map bytes)) := by
  have scanned := run.scanned returned
  have built : Input.tree calls = s.processor := run.told.2.state
  cases listing : files.list root with
  | none =>
    rw [scanned.unlisted listing] at built
    exact ⟨.start, built.symm, fun E S T sum2Node _ => ⟨fun _ => rfl, fun some => by simp at some⟩⟩
  | some names =>
    have told := scanned.told named ofDir (by simp [listing])
    obtain ⟨t, made, depicts⟩ := told.depicted
    refine ⟨t, built.symm.trans made, fun E S T sum2Node orders => ⟨fun none => by simp at none, ?_⟩⟩
    intro _ sized
    refine ⟨depicts.printed_iff_fits told sized orders, depicts.printed_exact told sized orders, ?_⟩
    intro text run
    obtain ⟨res, eqClasses, dirs, -, -, same, reported⟩ := depicts.of_printed told sized orders run
    exact ⟨_, _, same, reported⟩

/-- Two directories with the same file. -/
def twinDirs (info : FileInfo) : FileSystem where
  list p :=
    if p = ["r"] then some ["a", "b"]
    else if p = ["r", "a"] ∨ p = ["r", "b"] then some ["x"] else none
  kind p :=
    if p = ["r", "a"] ∨ p = ["r", "b"] then some .directory
    else if p = ["r", "a", "x"] ∨ p = ["r", "b", "x"] then some .regular else none
  hash p := if p = ["r", "a", "x"] ∨ p = ["r", "b", "x"] then some info else none
  distinct := by
    intro dir names h
    split_ifs at h <;> obtain rfl := Option.some.inj h <;> decide

theorem twinDirs_named (info : FileInfo) : (twinDirs info).Named := by
  intro dir names listing name member
  simp only [twinDirs] at listing
  split_ifs at listing <;> obtain rfl := Option.some.inj listing
  · rcases List.mem_pair.mp member with rfl | rfl <;> exact ⟨by decide, by decide⟩
  · obtain rfl := List.mem_singleton.mp member
    exact ⟨by decide, by decide⟩

theorem twinDirs_shallow (info : FileInfo) : (twinDirs info).Shallow ["r"] 2 := by
  intro dir listed
  have here : ((twinDirs info).list dir).isSome := listed.isSome
  simp only [twinDirs] at here
  split_ifs at here with top inner
  · simp [top]
  · rcases inner with rfl | rfl <;> simp
  · cases here

theorem twinDirs_listed (info : FileInfo) {name : String} (member : name ∈ ["a", "b"]) :
    (twinDirs info).Listed ["r"] (["r"] ++ [name]) := by
  have top : (twinDirs info).Listed ["r"] ["r"] := .root rfl
  apply FileSystem.Listed.child top rfl member
  all_goals rcases List.mem_pair.mp member with rfl | rfl <;> rfl

theorem twinDirs_file {info : FileInfo} (some : info.sum ≠ 0) {name : String}
    (member : name ∈ ["a", "b"]) :
    ((twinDirs info).survey ["r"]).files (["r", name] ++ ["x"]) info := by
  have dir := twinDirs_listed info member
  refine ⟨⟨⟨["r", name], ["x"], "x", dir, ?_, List.mem_cons_self, rfl⟩, ?_⟩, ?_, some⟩
  all_goals rcases List.mem_pair.mp member with rfl | rfl <;> rfl

theorem root_ofDir : Path.OfDir ["r"] := by
  simp only [Path.OfDir, Path.IsName, Path.names]
  decide

/-- The equal files are in a line, or the directory of the first is. -/
theorem directory_printed_twinDirs : ∃ text lines scattered, ∃ t sum2Node,
    printFuzzyDedup (.counting 20) .insertion .insertion sum2Node t = .ok text ∧
      text = classesText lines ++ linesText (Heap.scatteredHeading :: scattered) ∧
      ((twinDirs ⟨1, 2, 3⟩).survey ["r"]).Reported lines (scattered.map bytes) ∧
      ∃ line ∈ lines, ∃ dir, ["r"] <+: dir ∧ dir <+: ["r", "a", "x"] ∧
        bytes (Path.native dir) ∈ line := by
  obtain ⟨calls, s, run, returned⟩ := Scan.exists_returned (n := 1) (twinDirs_shallow ⟨1, 2, 3⟩)
    (Or.inl Nat.one_pos) TreeCtor.processor (.ok .start) fun _ => none
  obtain ⟨t, -, prints⟩ := directory_printed (twinDirs_named _) root_ofDir run returned
  obtain ⟨-, listed⟩ := prints (.counting 20) .insertion .insertion _
    (Sum2Node.ofInserted_orders t.sum2Node)
  obtain ⟨-, exact, reports⟩ := listed rfl fun counts => by cases counts
  obtain ⟨text, printed⟩ := exact rfl
  obtain ⟨lines, scattered, same, reported⟩ := reports text printed
  exact ⟨text, lines, scattered, t, _, printed, same, reported,
    reported.covered _ ["r", "b", "x"] _ _ (twinDirs_file (by decide) (by decide))
      (twinDirs_file (by decide) (by decide)) (by decide) rfl⟩

/-- Two equal files in a directory with another one, which is empty. -/
example : Returns (fun t => Returns (fun text => text =
      classesText [[bytes "r/x", bytes "r/y"]] ++ linesText [Heap.scatteredHeading, "r/d"])
    (printFuzzyDedup (.counting 20) .insertion .insertion (.ofInserted t.sum2Node) t))
    (Input.tree [.rootDir ["r"], .file ["r", "y"] ⟨1, 2, 3⟩, .dir ["r", "d"],
      .file ["r", "x"] ⟨1, 2, 3⟩]) := by
  decide +kernel

end Dupa
