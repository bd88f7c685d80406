import Dupa.Content
import Dupa.PrintedClasses
import Dupa.Returns

/-!
# Copied directories

A directory that has been copied is found: in exact arithmetic there is a line with both,
or with a directory above (`directory_copies_printed`, `database_printed`).
-/

namespace Dupa

open Checked

/-! ## Copies -/

namespace Survey

variable {v : Survey} {d d' : Path} {calls : List Call} {call : Call}

/-- The files of `d` are at the same places in `d'`. -/
def Within (v : Survey) (d d' : Path) : Prop :=
  ∀ q info, v.files (d ++ q) info → ∃ info', v.files (d' ++ q) info' ∧ info'.sum = info.sum

/-- Different directories with files of the same checksums at the same places. -/
structure Copied (v : Survey) (d d' : Path) : Prop where
  dir : v.dirs d
  dir' : v.dirs d'
  ne : d ≠ d'
  within : v.Within d d'
  within' : v.Within d' d
  some : ∃ q info, v.files (d ++ q) info

namespace Told

variable (told : v.Told calls)
include told

/-- Whatever is not the root is in a directory. -/
theorem climb (hc : call ∈ calls) (ne : call.path ≠ v.root) : ∃ up ∈ calls,
    up.nodeType = .dir ∧ call.above = some up.path ∧ call.path = up.path ++ [call.nodeName] := by
  obtain ⟨dir, above⟩ : ∃ dir, call.above = some dir := by
    cases call with
    | rootDir p => exact absurd (told.root p hc) ne
    | dir p | file p info => exact ⟨_, rfl⟩
  obtain ⟨opened, -, -, -, path⟩ := told.inner hc above
  obtain ⟨up, hup, rfl, dir⟩ := opened.call
  exact ⟨up, hup, dir, above, path⟩

/-- Between the root and a file or directory there are directories only. -/
theorem opened_above {p : Path} (hc : call ∈ calls) (below : v.root <+: p) (inside : p <+: call.path)
    (ne : p ≠ call.path) : Call.Opened calls p := by
  induction len : call.path.length generalizing call with
  | zero =>
    rw [List.length_eq_zero_iff] at len
    rw [len] at inside ne
    exact absurd (List.prefix_nil.mp inside) ne
  | succ k ih =>
    have top : call.path ≠ v.root := fun top => ne (inside.eq_of_length_le (top ▸ below.length_le))
    obtain ⟨up, hup, dir, -, path⟩ := told.climb hc top
    rw [path] at inside ne len
    rw [List.length_append, List.length_singleton] at len
    have inside := (List.prefix_concat_iff.mp inside).resolve_left ne
    by_cases here : p = up.path
    · exact here ▸ opened_of_dir hup dir
    · exact ih hup inside here (by omega)

end Told

end Survey

namespace TreeCtor

/-- Nodes of directories at the same place in `d` and in `d'`. -/
def Counterparts (calls : List Call) (d d' : Path) (x y : NodeId) : Prop :=
  ∃ q call call', calls[x]? = some call ∧ calls[y]? = some call' ∧ call.nodeType = .dir ∧
    call'.nodeType = .dir ∧ call.path = d ++ q ∧ call'.path = d' ++ q

theorem Counterparts.symm {calls : List Call} {d d' : Path} {x y : NodeId}
    (parts : Counterparts calls d d' x y) : Counterparts calls d' d y x := by
  obtain ⟨q, call, call', here, here', dir, dir', path, path'⟩ := parts
  exact ⟨q, call', call, here', here, dir', dir, path', path⟩

namespace Depicts

variable {v : Survey} {calls : List Call} {call call' : Call} {t : TreeCtor} {d d' : Path}
  {n m x y : NodeId}
variable (depicts : t.Depicts calls)
include depicts

theorem child_call (child : m ∈ t.heap.layout.children n) : ∃ call, calls[m]? = some call := by
  have inside : m < calls.length := depicts.size ▸ (depicts.fresh.tree.inside n m child).2
  exact ⟨_, List.getElem?_eq_getElem inside⟩

variable (told : v.Told calls)
include told

theorem child_iff (here : calls[n]? = some call) (here' : calls[m]? = some call')
    (dir : call.nodeType = .dir) :
    m ∈ t.heap.layout.children n ↔ ∃ name, call'.path = call.path ++ [name] := by
  rw [depicts.parent n m call call' here here']
  constructor
  · rintro ⟨above, -⟩
    obtain ⟨-, -, -, -, path⟩ := told.inner (List.mem_of_getElem? here') above
    exact ⟨_, path⟩
  · rintro ⟨name, path⟩
    refine ⟨?_, dir⟩
    have below := (told.below call (List.mem_of_getElem? here)).length_le
    have top : call'.path ≠ v.root := by
      intro top
      have := congrArg List.length (path.symm.trans top)
      rw [List.length_append, List.length_singleton] at this
      omega
    obtain ⟨up, -, -, above, path'⟩ := told.climb (List.mem_of_getElem? here') top
    rw [above, (List.append_inj' (path'.symm.trans path) rfl).1]

/-- Below a node is what is inside it. -/
theorem below_iff (here : calls[n]? = some call) (here' : calls[m]? = some call') :
    Forest.Below t.heap.layout.children n m ↔ call.path <+: call'.path := by
  refine ⟨depicts.below here here', fun inside => ?_⟩
  have mem := List.mem_of_getElem? here
  induction len : call'.path.length generalizing m call' with
  | zero =>
    rw [List.length_eq_zero_iff] at len
    have none := List.prefix_nil.mp (len ▸ (told.below call mem).trans inside)
    exact absurd none told.root_ne
  | succ k ih =>
    have mem' := List.mem_of_getElem? here'
    by_cases same : call.path = call'.path
    · obtain rfl := told.single call mem call' mem' same
      have lt := (List.getElem?_eq_some_iff.mp here).1
      obtain rfl := (List.getElem?_inj lt told.nodup).mp (here.trans here'.symm)
      exact Forest.below_refl n
    · have top : call'.path ≠ v.root := fun top =>
        same (inside.eq_of_length_le (top ▸ (told.below call mem).length_le))
      obtain ⟨up, hup, dir, -, path⟩ := told.climb mem' top
      obtain ⟨u, there⟩ := List.mem_iff_getElem?.mp hup
      rw [path] at inside same len
      rw [List.length_append, List.length_singleton] at len
      have inside := (List.prefix_concat_iff.mp inside).resolve_left same
      exact Forest.below_child (ih there inside (by omega))
        ((depicts.child_iff told there here' dir).mpr ⟨_, path⟩)

theorem bears_iff (here : calls[n]? = some call) : t.heap.layout.Bears n ↔
    ∃ q info, v.files (call.path ++ q) info := by
  have inside := (depicts.of_call rfl here).1
  constructor
  · rintro ⟨m, below, file⟩
    have lt := depicts.fresh.tree.below_lt inside below
    obtain ⟨path, info, here'⟩ := (depicts.isFile_iff rfl).mp ⟨lt, file⟩
    obtain ⟨q, rfl⟩ := (depicts.below_iff told here here').mp below
    exact ⟨q, info, (depicts.file_iff rfl told).mpr ⟨m, ⟨lt, file⟩, here'⟩⟩
  · rintro ⟨q, info, file⟩
    obtain ⟨m, isFile, here'⟩ := (depicts.file_iff rfl told).mp file
    exact ⟨m, (depicts.below_iff told here here').mpr (List.prefix_append _ _), isFile.2⟩

/-! ## Counterparts -/

theorem counterparts_files (within : v.Within d d') (parts : Counterparts calls d d' x y) (k : Cksum)
    (file : t.heap.layout.HasFile (callSum calls) x k) :
    t.heap.layout.HasFile (callSum calls) y k := by
  obtain ⟨q, call, call', here, here', dir, dir', path, path'⟩ := parts
  obtain ⟨z, child, type, rfl⟩ := file
  have lt := (depicts.fresh.tree.inside x z child).2
  obtain ⟨p, info, there⟩ := (depicts.isFile_iff rfl).mp ⟨lt, type⟩
  obtain ⟨name, inner⟩ := (depicts.child_iff told here there dir).mp child
  obtain rfl : p = d ++ (q ++ [name]) := by rw [← List.append_assoc, ← path]; exact inner
  have isFile := (depicts.file_iff rfl told).mpr ⟨z, ⟨lt, type⟩, there⟩
  obtain ⟨info', isFile', same⟩ := within _ info isFile
  obtain ⟨w, ⟨-, type'⟩, there'⟩ := (depicts.file_iff rfl told).mp isFile'
  refine ⟨w, (depicts.child_iff told here' there' dir').mpr ⟨name, ?_⟩, type', ?_⟩
  · rw [path', List.append_assoc]
    rfl
  · simp [callSum, there, there', same]

theorem counterparts_dirs (within : v.Within d d') (below : v.root <+: d')
    (parts : Counterparts calls d d' x y) {z : NodeId} (child : z ∈ t.heap.layout.children x)
    (bearing : t.heap.layout.BearingDir z) :
    ∃ w ∈ t.heap.layout.children y, t.heap.layout.BearingDir w ∧ Counterparts calls d d' z w := by
  obtain ⟨q, call, call', here, here', dir, dir', path, path'⟩ := parts
  obtain ⟨type, bears⟩ := bearing
  obtain ⟨inner, there⟩ := depicts.child_call child
  have isDir : inner.nodeType = .dir := (depicts.type z inner there).symm.trans type
  obtain ⟨name, isChild⟩ := (depicts.child_iff told here there dir).mp child
  have place : inner.path = d ++ (q ++ [name]) := by rw [isChild, path, List.append_assoc]
  obtain ⟨r, info, file⟩ := (depicts.bears_iff told there).mp bears
  obtain ⟨info', file', -⟩ := within (q ++ [name] ++ r) info (by
    rwa [← List.append_assoc, ← place])
  rw [← List.append_assoc] at file'
  have ne : d' ++ (q ++ [name]) ≠ d' ++ (q ++ [name]) ++ r := by
    intro same
    obtain rfl := List.append_right_eq_self.mp same.symm
    rw [List.append_nil] at file
    have := told.single _ ((told.files _ _).mpr file) _ (List.mem_of_getElem? there) rfl
    rw [← this] at isDir
    cases isDir
  have opened := told.opened_above ((told.files _ _).mpr file') (below.trans (List.prefix_append _ _))
    (List.prefix_append _ _) ne
  obtain ⟨outer, hc, place', isDir'⟩ := opened.call
  obtain ⟨w, there'⟩ := List.mem_iff_getElem?.mp hc
  refine ⟨w, (depicts.child_iff told here' there' dir').mpr ⟨name, ?_⟩, ⟨?_, ?_⟩,
    q ++ [name], inner, outer, there, there', isDir, isDir', place, place'⟩
  · rw [place', path', List.append_assoc]
  · exact (depicts.type w outer there').trans isDir'
  · exact (depicts.bears_iff told there').mpr ⟨r, info', place'.symm ▸ file'⟩

theorem contentIdentical (copied : v.Copied d d') (parts : Counterparts calls d d' x y) :
    t.heap.layout.ContentIdentical (callSum calls) x y := by
  have below := told.opened_below ((told.dirs d).mpr copied.dir)
  have below' := told.opened_below ((told.dirs d').mpr copied.dir')
  refine ⟨Counterparts calls d d', ⟨?_, ?_, ?_⟩, parts⟩
  · intro a b parts k
    exact ⟨depicts.counterparts_files told copied.within parts k,
      depicts.counterparts_files told copied.within' parts.symm k⟩
  · intro a b parts z child bearing
    exact depicts.counterparts_dirs told copied.within below' parts child bearing
  · intro a b parts w child bearing
    obtain ⟨z, hz, dir, back⟩ :=
      depicts.counterparts_dirs told copied.within' below parts.symm child bearing
    exact ⟨z, hz, dir, back.symm⟩

end Depicts

end TreeCtor

/-! ## Lines with copies -/

/-- Content-identical file-bearing directories are in one class of the result. -/
theorem fuzzyDedup_together {E : Env} {S : ClassSort} {cksum : NodeId → Cksum} {h : Heap}
    {root a b : NodeId} {sum2Node : Sum2Node} (fresh : h.Fresh root)
    (holds : sum2Node.Holds h.layout cksum) (weighs : E.Weighs h.layout)
    (positive : 1 ≤ E.tolerableDiffPct) {res : FuzzyDedupRes}
    (run : fuzzyDedup E S h root sum2Node = .ok res) (ha : a < h.numNodes) (hb : b < h.numNodes)
    (bearing : h.layout.BearingDir a) (bearing' : h.layout.BearingDir b)
    (identical : h.layout.ContentIdentical cksum a b) : res.heap.SameClass a b := by
  obtain ⟨eqClasses, files, classified, -⟩ := fuzzyDedup_classified run
  have done := Propagation.of_classify fresh holds classified
  obtain ⟨steady, tight⟩ := Heap.Moves.keep (fresh.steady weighs)
    (fun steady tight move => move.tight positive steady tight) fresh.tight done.moves
  have layout := done.moves.layout
  exact tight.sameClass steady ((done.evaluated a).mpr ha) ((done.evaluated b).mpr hb)
    (layout ▸ bearing) (layout ▸ bearing') (layout ▸ identical)

namespace TreeCtor.Depicts

variable {v : Survey} {calls : List Call} {t : TreeCtor}
variable (depicts : t.Depicts calls) (told : v.Told calls)
include depicts told

/-- Two paths of one class are in one line, unless one above the first is. -/
theorem printed_together {h : Heap} {eqClasses res : List ClassId} (layout : h.layout = t.heap.layout)
    (part : h.Partitioned eqClasses) (tree : h.layout.IsTree 0)
    (mem : ∀ c, c ∈ eqClasses ∧ h.Interesting 0 c → c ∈ res) {n m : NodeId} {call call' : Call}
    (here : calls[n]? = some call) (here' : calls[m]? = some call') (ne : call.path ≠ call'.path)
    (same : h.SameClass n m) : ∃ line ∈ res.map h.printedPaths,
      bytes call.path.native ∈ line ∧ bytes call'.path.native ∈ line ∨
      ∃ above, v.root <+: above ∧ above <+: call.path ∧ above ≠ call.path ∧
        bytes (Path.native above) ∈ line := by
  obtain ⟨c, ofC, ofC'⟩ := same
  have inside := (depicts.of_call layout here).1
  have inside' := (depicts.of_call layout here').1
  obtain ⟨e, hc, ofE⟩ := part.classified n inside
  obtain rfl := Option.some.inj (ofC.symm.trans ofE)
  have distinct : n ≠ m := by
    rintro rfl
    exact ne (congrArg Call.path (Option.some.inj (here.symm.trans here')))
  have both : [n, m] ⊆ (h.eqClass c).nodes := by
    intro k hk
    rcases List.mem_pair.mp hk with rfl | rfl
    · exact (part.member c hc k).mpr ⟨inside, ofC⟩
    · exact (part.member c hc k).mpr ⟨inside', ofC'⟩
  have several := (List.Nodup.subperm (by simpa using distinct) both).length_le
  obtain ⟨a, d, above, there, ofD, listed, below, up, printed⟩ :=
    depicts.printed_above layout told part tree mem here ofC several
  refine ⟨_, List.mem_map_of_mem listed, ?_⟩
  by_cases same : above.path = call.path
  · -- The line is that of the class of both.
    obtain rfl := told.single above (List.mem_of_getElem? there) call (List.mem_of_getElem? here) same
    have lt := (List.getElem?_eq_some_iff.mp here).1
    obtain rfl := (List.getElem?_inj lt told.nodup).mp (here.trans there.symm)
    obtain rfl := Option.some.inj (ofC.symm.trans ofD)
    refine Or.inl ⟨printed, ?_⟩
    rw [← (depicts.of_call layout here').2.2]
    exact (depicts.printed_iff layout told part hc inside').mpr ofC'
  · exact Or.inr ⟨above.path, below, up, same, printed⟩

end TreeCtor.Depicts

namespace Survey

/-- Arithmetic is exact, files weigh something and a tolerance is a percentage. -/
structure Weighs (v : Survey) (E : Env) : Prop where
  exact : E.rounding = .exact
  files : E.useSize = false ∨ ∀ path info, v.files path info → 0 < info.size.toInt
  positive : 1 ≤ E.tolerableDiffPct
  atMostWhole : E.tolerableDiffPct ≤ 100

theorem Weighs.sized {v : Survey} {E : Env} (weighs : v.Weighs E) : v.Sized E := by
  intro counts path info file
  rcases weighs.files with counting | some
  · rw [counting] at counts
    cases counts
  · exact le_of_lt (some path info file)

/-- There is a line with both copies, or one with a directory that the first is in. -/
def CopiesPrinted (v : Survey) (lines : List (List Bytes)) : Prop :=
  ∀ d d', v.Copied d d' → ∃ line ∈ lines,
    bytes (Path.native d) ∈ line ∧ bytes (Path.native d') ∈ line ∨
    ∃ above, v.root <+: above ∧ above <+: d ∧ above ≠ d ∧ bytes (Path.native above) ∈ line

end Survey

theorem TreeCtor.Depicts.copiesPrinted {v : Survey} {calls : List Call} {t : TreeCtor}
    (depicts : t.Depicts calls) (told : v.Told calls) {E : Env} (weighs : v.Weighs E)
    {S : ClassSort} {sum2Node : Sum2Node} (orders : sum2Node.Orders t.sum2Node)
    {res : FuzzyDedupRes} (run : fuzzyDedup E S t.heap 0 sum2Node = .ok res) {T : ClassSort}
    {eqClasses : List ClassId} {dirs : List NodeId} (shown : res.Shown E T 0 eqClasses dirs) :
    v.CopiesPrinted (eqClasses.map res.heap.printedPaths) := by
  intro d d' copied
  have holds := depicts.holds sum2Node orders
  obtain ⟨layout, -⟩ := fuzzyDedup_sound depicts.fresh holds run
  obtain ⟨full, -⟩ :=
    fuzzyDedup_full depicts.fresh holds (depicts.layout_sized told weighs.sized) run
  obtain ⟨q, info, file⟩ := copied.some
  obtain ⟨info', file', -⟩ := copied.within q info file
  obtain ⟨call, hc, rfl, dir⟩ := ((told.dirs d).mpr copied.dir).call
  obtain ⟨call', hc', rfl, dir'⟩ := ((told.dirs d').mpr copied.dir').call
  obtain ⟨n, here⟩ := List.mem_iff_getElem?.mp hc
  obtain ⟨m, here'⟩ := List.mem_iff_getElem?.mp hc'
  have heavy : E.Weighs t.heap.layout := by
    refine ⟨weighs.exact, weighs.files.imp_right fun some k file => ?_, weighs.atMostWhole⟩
    exact depicts.sizes 1 (fun p info hp => some p info ((told.files p info).mp hp)) k file.2
  have parts : TreeCtor.Counterparts calls call.path call'.path n m :=
    ⟨[], call, call', here, here', dir, dir', (List.append_nil _).symm, (List.append_nil _).symm⟩
  apply depicts.printed_together told layout full.toPartitioned full.tree
    (fun c => (shown.mem c).mpr) here here' copied.ne
  exact fuzzyDedup_together depicts.fresh holds heavy weighs.positive run
    (depicts.of_call rfl here).1 (depicts.of_call rfl here').1
    ⟨(depicts.type n call here).trans dir, (depicts.bears_iff told here).mpr ⟨q, info, file⟩⟩
    ⟨(depicts.type m call' here').trans dir', (depicts.bears_iff told here').mpr ⟨q, info', file'⟩⟩
    (depicts.contentIdentical told copied parts)

/-! ## Runs -/

/-- What is printed about a directory reports it and its copied directories. -/
theorem directory_copies_printed {files : FileSystem} {root : Path} {n : ℕ}
    {cache : Path → Option FileInfo} {calls : List Call}
    {s : Scan files (Except Fault TreeCtor) NodeId n} (named : files.Named) (ofDir : root.OfDir)
    (listed : (files.list root).isSome)
    (run : Scan.Run TreeCtor.processor root (.ok .start) cache calls s)
    (returned : s.pc = .returned) : ∃ t, s.processor = .ok t ∧
      ∀ (E : Env) (S T : ClassSort) (sum2Node : Sum2Node), (files.survey root).Weighs E →
        sum2Node.Orders t.sum2Node → ∃ lines scattered,
          printFuzzyDedup E S T sum2Node t =
            .ok (classesText lines ++ linesText (Heap.scatteredHeading :: scattered)) ∧
          (files.survey root).Reported lines (scattered.map bytes) ∧
          (files.survey root).CopiesPrinted lines := by
  have told := (run.scanned returned).told named ofDir listed
  have built : Input.tree calls = s.processor := run.told.2.state
  obtain ⟨t, made, depicts⟩ := told.depicted
  refine ⟨t, built.symm.trans made, fun E S T sum2Node weighs orders => ?_⟩
  obtain ⟨res, dedup⟩ := depicts.fuzzyDedup_exact (S := S) told weighs.sized orders weighs.exact
  obtain ⟨eqClasses, dirs, shown, prints, reported⟩ :=
    depicts.printed told weighs.sized orders T dedup
  exact ⟨_, _, prints, reported, depicts.copiesPrinted told weighs orders dedup shown⟩

theorem twinDirs_copied (info : FileInfo) (some : info.sum ≠ 0) :
    ((twinDirs info).survey ["r"]).Copied ["r", "a"] ["r", "b"] := by
  have only : ∀ name q info', ((twinDirs info).survey ["r"]).files (["r", name] ++ q) info' →
      q = ["x"] ∧ info' = info := by
    rintro name q info' ⟨-, known, -⟩
    simp only [twinDirs] at known
    split_ifs at known with known'
    obtain rfl := Option.some.inj known
    simp only [List.cons_append, List.nil_append, List.cons.injEq] at known'
    exact ⟨known'.elim (fun h => h.2.2) fun h => h.2.2, rfl⟩
  have within : ∀ name ∈ ["a", "b"], ∀ name',
      ((twinDirs info).survey ["r"]).Within ["r", name'] ["r", name] := by
    intro name member name' q info' here
    obtain ⟨rfl, rfl⟩ := only name' q info' here
    exact ⟨info', twinDirs_file some member, rfl⟩
  exact ⟨twinDirs_listed info (by decide), twinDirs_listed info (by decide), by decide,
    within "b" (by decide) "a", within "a" (by decide) "b", ["x"], info,
    twinDirs_file some (by decide : "a" ∈ ["a", "b"])⟩

theorem directory_copies_printed_twinDirs : ∃ text lines scattered, ∃ t sum2Node,
    printFuzzyDedup (.counting 20) .insertion .insertion sum2Node t = .ok text ∧
      text = classesText lines ++ linesText (Heap.scatteredHeading :: scattered) ∧
      ∃ line ∈ lines, bytes "r/a" ∈ line ∧ bytes "r/b" ∈ line ∨
        ∃ above, ["r"] <+: above ∧ above <+: ["r", "a"] ∧ above ≠ ["r", "a"] ∧
          bytes (Path.native above) ∈ line := by
  obtain ⟨calls, s, run, returned⟩ := Scan.exists_returned (n := 1) (twinDirs_shallow ⟨1, 2, 3⟩)
    (Or.inl Nat.one_pos) TreeCtor.processor (.ok .start) fun _ => none
  obtain ⟨t, -, prints⟩ := directory_copies_printed (twinDirs_named _) root_ofDir rfl run returned
  obtain ⟨lines, scattered, printed, -, copies⟩ := prints (.counting 20) .insertion .insertion _
    ⟨rfl, Or.inl rfl, by decide, by decide⟩ (Sum2Node.ofInserted_orders t.sum2Node)
  exact ⟨_, lines, scattered, t, _, printed, rfl, copies _ _ (twinDirs_copied _ (by decide))⟩

/-- Where the files of a database have a directory in common and are not in each other, a
text is printed just where the sums of the distances fit. It reports these files and the
directories they are in, and of the latter those that are copied. -/
theorem database_printed (db : Db) (files : ∀ entry ∈ db.entries, entry.1.OfFile)
    (flat : db.Flat) {top : String} (nonempty : db.entries ≠ [])
    (alike : ∀ entry ∈ db.entries, entry.1.parentPath.head? = some top) :
    ∃ common t, (∀ p, p <+: common ↔ ∀ entry ∈ db.entries, p <+: entry.1.parentPath) ∧
      ((scanDb TreeCtor.processor db.entries).run (.ok .start)).2 = .ok t ∧
      ∀ (E : Env) (S T : ClassSort) (sum2Node : Sum2Node), sum2Node.Orders t.sum2Node →
        (db.survey common).Sized E →
        ((∃ text, printFuzzyDedup E S T sum2Node t = .ok text) ↔
          Propagation.SumsFit E t.heap 0 sum2Node) ∧
        (E.rounding = .exact → ∃ text, printFuzzyDedup E S T sum2Node t = .ok text) ∧
        ∀ text, printFuzzyDedup E S T sum2Node t = .ok text → ∃ lines scattered,
          text = classesText lines ++ linesText (Heap.scatteredHeading :: scattered) ∧
          (db.survey common).Reported lines (scattered.map bytes) ∧
          ((db.survey common).Weighs E → (db.survey common).CopiesPrinted lines) := by
  obtain ⟨first, rest, h⟩ := List.exists_cons_of_ne_nil nonempty
  have describes := dbCalls_describe db h
  have ne := (commonParent_ne_nil h).mpr ⟨top, alike⟩
  have below := (prefix_commonParent h).mp (List.prefix_refl _)
  have told := describes.told files flat ne below ⟨first, h ▸ List.mem_cons_self,
    below first (h ▸ List.mem_cons_self)⟩
  obtain ⟨t, made, depicts⟩ := told.depicted
  refine ⟨_, t, fun _ => prefix_commonParent h, by rw [scanDb_issues]; exact made, ?_⟩
  intro E S T sum2Node orders sized
  refine ⟨depicts.printed_iff_fits told sized orders, depicts.printed_exact told sized orders, ?_⟩
  intro text run
  obtain ⟨res, eqClasses, dirs, dedup, shown, same, reported⟩ :=
    depicts.of_printed told sized orders run
  exact ⟨_, _, same, reported,
    fun weighs => depicts.copiesPrinted told weighs orders dedup shown⟩

/-- A database of two directories with the same file. -/
def twinDb : Db where
  entries := [(["r", "a", "x"], ⟨1, 2, 3⟩), (["r", "b", "x"], ⟨1, 2, 3⟩)]
  distinct := by decide
  named := by decide

theorem database_printed_twinDb : ∃ text lines scattered common, ∃ t sum2Node,
    printFuzzyDedup (.counting 20) .insertion .insertion sum2Node t = .ok text ∧
      text = classesText lines ++ linesText (Heap.scatteredHeading :: scattered) ∧
      (twinDb.survey common).Reported lines (scattered.map bytes) ∧
      ∃ line ∈ lines, ∃ dir, common <+: dir ∧ dir <+: ["r", "a", "x"] ∧
        bytes (Path.native dir) ∈ line := by
  have files : ∀ entry ∈ twinDb.entries, entry.1.OfFile := by
    simp only [twinDb, Path.OfFile, Path.IsName, Path.names]
    decide
  have flat : twinDb.Flat := by
    unfold Db.Flat
    decide
  obtain ⟨common, t, -, -, prints⟩ := database_printed twinDb files flat (by decide)
    (by decide : ∀ entry ∈ twinDb.entries, entry.1.parentPath.head? = some "r")
  obtain ⟨-, exact, reports⟩ := prints (.counting 20) .insertion .insertion _
    (Sum2Node.ofInserted_orders t.sum2Node) fun counts => by cases counts
  obtain ⟨text, printed⟩ := exact rfl
  obtain ⟨lines, scattered, same, reported, -⟩ := reports text printed
  exact ⟨text, lines, scattered, common, t, _, printed, same, reported,
    reported.covered ["r", "a", "x"] ["r", "b", "x"] ⟨1, 2, 3⟩ ⟨1, 2, 3⟩ List.mem_cons_self
      (List.mem_cons_of_mem _ List.mem_cons_self) (by decide) rfl⟩

end Dupa
