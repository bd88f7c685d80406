import Mathlib.Data.List.Infix
import Mathlib.Data.List.Nodup
import Dupa.Library.CommonPrefix
import Dupa.Scanner

/-!
# Scanning a database

`ScanDb` reads a map from paths to checksums and tells its processor about a
directory tree that has those files. The calls it makes are `dbCalls`, for every
processor (`scanDb_issues`), and they are exactly the ones the tree needs, in an
order where parents come first (`scanDb_calls`).
-/

namespace Dupa

/-- `detail::CommonPathPrefix`. -/
def commonPathPrefix (p1 p2 : Path) : Path := CommonPrefix.common p1 p2

/-- The map read from a database, in the order it is iterated. -/
structure Db where
  entries : List (Path × FileInfo)
  distinct : (entries.map Prod.fst).Nodup
  named : ∀ entry ∈ entries, entry.1 ≠ []

/-- The loop over all entries that computes `common_prefix`. -/
def commonParent (first : Path × FileInfo) (entries : List (Path × FileInfo)) : Path :=
  entries.foldl (fun common entry => commonPathPrefix common entry.1.parentPath)
    first.1.parentPath

section
variable {m : Type → Type} [Monad m] {H : Type} [Inhabited H]

/-- The loop over the elements of a directory's path below `parent`. -/
def enterDirs (P : ScanProcessor m H) :
    List String → Path → H → (Path → Option H) → m (H × (Path → Option H))
  | [], _, parentHandle, createdDirs => return (parentHandle, createdDirs)
  | name :: rest, parent, parentHandle, createdDirs =>
    match createdDirs (parent ++ [name]) with
    | some handle => enterDirs P rest (parent ++ [name]) handle createdDirs
    | none => do
      let handle ← P.dir name parentHandle
      enterDirs P rest (parent ++ [name]) handle
        (Function.update createdDirs (parent ++ [name]) (some handle))

def scanEntry (P : ScanProcessor m H) (common : Path) (createdDirs : Path → Option H)
    (entry : Path × FileInfo) : m (Path → Option H) := do
  let dir := entry.1.parentPath
  let (parentHandle, createdDirs) ← enterDirs P (dir.drop common.length) common
    ((createdDirs common).getD default) createdDirs
  P.file entry.1.filename parentHandle entry.2
  return createdDirs

def scanDb (P : ScanProcessor m H) : List (Path × FileInfo) → m Unit
  | [] => return ()
  | first :: rest => do
    let common := commonParent first (first :: rest)
    let handle ← P.rootDir common
    let _ ← (first :: rest).foldlM (scanEntry P common)
      (Function.update (fun _ => none) common (some handle))
    return ()

end

/-! ## The calls -/

/-- The directories strictly below `common` on the way to `dir`, from the top. -/
def dirsTo (common : Path) (rest : List String) : List Path :=
  match rest with
  | [] => []
  | name :: rest => (common ++ [name]) :: dirsTo (common ++ [name]) rest

/-- The directories of `dirs` that have not been created yet. -/
def newDirs (createdDirs : List Path) (common : Path) (entry : Path × FileInfo) : List Path :=
  (dirsTo common (entry.1.parentPath.drop common.length)).filter (· ∉ createdDirs)

/-- The calls made for the entries, and the directories created at the end. -/
def entryCalls (common : Path) : List Path → List (Path × FileInfo) → List Call
  | _, [] => []
  | createdDirs, entry :: rest =>
    (newDirs createdDirs common entry).map .dir ++ .file entry.1 entry.2 ::
      entryCalls common (newDirs createdDirs common entry ++ createdDirs) rest

def dbCalls : List (Path × FileInfo) → List Call
  | [] => []
  | first :: rest =>
    let common := commonParent first (first :: rest)
    .rootDir common :: entryCalls common [common] (first :: rest)

theorem mem_dirsTo {common path : Path} {rest : List String} :
    path ∈ dirsTo common rest ↔ common <+: path ∧ path ≠ common ∧ path <+: common ++ rest := by
  induction rest generalizing common with
  | nil =>
    simp only [dirsTo, List.not_mem_nil, List.append_nil, false_iff, not_and]
    intro up ne down
    exact ne (down.eq_of_length_le up.length_le)
  | cons name rest ih =>
    rw [dirsTo, List.mem_cons, ih, List.append_assoc, List.singleton_append]
    constructor
    · rintro (rfl | ⟨up, -, down⟩)
      · refine ⟨List.prefix_append _ _, by simp, ?_⟩
        exact (List.prefix_append_right_inj common).mpr (List.prefix_append [name] rest)
      · refine ⟨(List.prefix_append common [name]).trans up, ?_, down⟩
        rintro rfl
        have := up.length_le
        simp only [List.length_append, List.length_singleton] at this
        omega
    · rintro ⟨⟨tail, rfl⟩, ne, down⟩
      rw [List.prefix_append_right_inj] at down
      cases tail with
      | nil => simp at ne
      | cons x tail =>
        obtain ⟨rfl, -⟩ := List.cons_prefix_cons.mp down
        cases tail with
        | nil => exact Or.inl rfl
        | cons y tail =>
          refine Or.inr ⟨⟨y :: tail, by simp⟩, by simp, ?_⟩
          exact (List.prefix_append_right_inj common).mpr down

theorem dirsTo_nodup (common : Path) (rest : List String) : (dirsTo common rest).Nodup := by
  induction rest generalizing common with
  | nil => exact List.nodup_nil
  | cons name rest ih =>
    refine List.nodup_cons.mpr ⟨fun h => ?_, ih _⟩
    exact (mem_dirsTo.mp h).2.1 rfl

/-! ## Every processor gets these calls -/

/-- The map of created directories with their handles. -/
def view {H : Type} (createdDirs : List Path) (handles : Path → H) (path : Path) : Option H :=
  if path ∈ createdDirs then some (handles path) else none

section
variable {m : Type → Type} [Monad m] [LawfulMonad m] {H : Type} [Inhabited H]
  (P : ScanProcessor m H) {createdDirs : List Path} {handles : Path → H}

omit [Inhabited H] in
theorem view_update (path : Path) (handle : H) :
    Function.update (view createdDirs handles) path (some handle) =
      view (path :: createdDirs) (Function.update handles path handle) := by
  funext p
  by_cases hp : p = path
  · subst hp; simp [view]
  · simp [view, hp]

omit [Inhabited H] in
theorem view_congr {createdDirs' : List Path} (h : ∀ p, p ∈ createdDirs ↔ p ∈ createdDirs') :
    view createdDirs handles = view createdDirs' handles := by
  funext p
  simp only [view, h]

omit [Inhabited H] in
theorem enterDirs_issues (rest : List String) (parent : Path) (createdDirs : List Path)
    (handles : Path → H) {todo : List Path}
    (htodo : todo = (dirsTo parent rest).filter (· ∉ createdDirs)) :
    enterDirs P rest parent (handles parent) (view createdDirs handles) = do
      let handles ← Call.issueAll P handles (todo.map .dir)
      return (handles (parent ++ rest), view (todo ++ createdDirs) handles) := by
  induction rest generalizing parent createdDirs handles todo with
  | nil => simp [htodo, dirsTo, enterDirs, Call.issueAll]
  | cons name rest ih =>
    subst htodo
    have path : parent ++ name :: rest = parent ++ [name] ++ rest := by simp
    by_cases created : parent ++ [name] ∈ createdDirs
    · have old : view createdDirs handles (parent ++ [name]) = some (handles (parent ++ [name])) :=
        if_pos created
      simp only [enterDirs, old]
      rw [ih (parent ++ [name]) createdDirs handles rfl, path]
      simp [dirsTo, created]
    · have new : view createdDirs handles (parent ++ [name]) = none := if_neg created
      have later : (dirsTo (parent ++ [name]) rest).filter (· ∉ (parent ++ [name]) :: createdDirs) =
          (dirsTo (parent ++ [name]) rest).filter (· ∉ createdDirs) := by
        apply List.filter_congr
        intro p hp
        have := (mem_dirsTo.mp hp).2.1
        simp [this]
      simp only [enterDirs, new, view_update, dirsTo, List.filter_cons, created, not_false_iff,
        decide_true, ite_true, List.map_cons, Call.issueAll, List.foldlM_cons, Call.issue,
        Path.filename_append, Path.parentPath_append, bind_assoc, pure_bind]
      apply bind_congr
      intro handle
      have := ih (parent ++ [name]) ((parent ++ [name]) :: createdDirs)
        (Function.update handles (parent ++ [name]) handle) later.symm
      rw [Function.update_self] at this
      rw [this, path, Call.issueAll]
      apply bind_congr
      intro handles
      congr 2
      exact view_congr fun p => by simp [or_left_comm]

theorem scanEntry_issues {common : Path} (entry : Path × FileInfo) (createdDirs : List Path)
    (handles : Path → H) (created : common ∈ createdDirs) (below : common <+: entry.1.parentPath) :
    scanEntry P common (view createdDirs handles) entry = do
      let handles ← Call.issueAll P handles
        ((newDirs createdDirs common entry).map .dir ++ [.file entry.1 entry.2])
      return view (newDirs createdDirs common entry ++ createdDirs) handles := by
  have root : (view createdDirs handles common).getD default = handles common := by
    simp [view, created]
  have path : common ++ entry.1.parentPath.drop common.length = entry.1.parentPath := by
    obtain ⟨rest, h⟩ := below
    rw [← h]
    simp
  unfold scanEntry
  dsimp only
  rw [root, enterDirs_issues P _ common createdDirs handles rfl, Call.issueAll_append]
  simp [path, newDirs, Call.issueAll, Call.issue]

theorem scanEntries_issue {common : Path} (entries : List (Path × FileInfo))
    (createdDirs : List Path) (handles : Path → H) (created : common ∈ createdDirs)
    (below : ∀ entry ∈ entries, common <+: entry.1.parentPath) :
    (do let _ ← entries.foldlM (scanEntry P common) (view createdDirs handles)
        return () : m Unit) = do
      let _ ← Call.issueAll P handles (entryCalls common createdDirs entries)
      return () := by
  induction entries generalizing createdDirs handles with
  | nil => simp [entryCalls, Call.issueAll]
  | cons entry rest ih =>
    have split : entryCalls common createdDirs (entry :: rest) =
        ((newDirs createdDirs common entry).map .dir ++ [.file entry.1 entry.2]) ++
          entryCalls common (newDirs createdDirs common entry ++ createdDirs) rest := by
      simp [entryCalls]
    rw [List.foldlM_cons, scanEntry_issues P entry createdDirs handles created
      (below entry List.mem_cons_self), split]
    simp only [Call.issueAll_append, bind_assoc, pure_bind]
    refine bind_congr fun _ => bind_congr fun handles => ?_
    exact ih _ _ (List.mem_append_right _ created) fun e he => below e (List.mem_cons_of_mem _ he)

theorem commonParent_below (first : Path × FileInfo) (entries : List (Path × FileInfo)) {p : Path} :
    p <+: commonParent first entries ↔
      p <+: first.1.parentPath ∧ ∀ entry ∈ entries, p <+: entry.1.parentPath := by
  have fold : commonParent first entries =
      (entries.map fun entry => entry.1.parentPath).foldl CommonPrefix.common
        first.1.parentPath := by
    rw [List.foldl_map]
    rfl
  rw [fold, CommonPrefix.isPrefix_foldl_iff, List.forall_mem_map]

theorem prefix_commonParent {entries : List (Path × FileInfo)} {first : Path × FileInfo}
    {rest : List (Path × FileInfo)} (h : entries = first :: rest) {p : Path} :
    p <+: commonParent first entries ↔ ∀ entry ∈ entries, p <+: entry.1.parentPath := by
  rw [commonParent_below]
  exact and_iff_right_of_imp fun all => all first (h ▸ List.mem_cons_self)

/-- The order of the entries does not matter. -/
theorem commonParent_perm {entries entries' : List (Path × FileInfo)}
    {first first' : Path × FileInfo} {rest rest' : List (Path × FileInfo)}
    (h : entries = first :: rest) (h' : entries' = first' :: rest')
    (perm : entries'.Perm entries) :
    commonParent first' entries' = commonParent first entries := by
  apply List.IsPrefix.eq_of_length_le
  · rw [prefix_commonParent h]
    exact fun entry he => (prefix_commonParent h').mp (List.prefix_refl _) entry
      (perm.mem_iff.mpr he)
  · apply List.IsPrefix.length_le
    rw [prefix_commonParent h']
    exact fun entry he => (prefix_commonParent h).mp (List.prefix_refl _) entry
      (perm.mem_iff.mp he)

/-- Whatever the processor, `ScanDb` makes these calls to it, each with the
handle returned for the parent directory. -/
theorem scanDb_issues (entries : List (Path × FileInfo)) :
    scanDb P entries = do
      let _ ← Call.issueAll P (fun _ => default) (dbCalls entries)
      return () := by
  cases entries with
  | nil => simp [scanDb, dbCalls, Call.issueAll]
  | cons first rest =>
    rw [dbCalls, Call.issueAll, List.foldlM_cons]
    simp only [scanDb, Call.issue, bind_assoc, pure_bind]
    apply bind_congr
    intro handle
    have start : Function.update (fun _ => none) (commonParent first (first :: rest)) (some handle) =
        view [commonParent first (first :: rest)]
          (Function.update (fun _ => default) (commonParent first (first :: rest)) handle) := by
      rw [← view_update]
      congr 1
    rw [start]
    apply scanEntries_issue P (first :: rest) _ _ List.mem_cons_self
    intro entry he
    exact ((commonParent_below first (first :: rest)).mp (List.prefix_refl _)).2 entry he

end

/-! ## They are the calls of the tree -/

/-- `calls` describe the tree of the entries below the directory `common`. -/
structure Describes (entries : List (Path × FileInfo)) (common : Path) (calls : List Call) :
    Prop where
  first : calls.head? = some (.rootDir common)
  nodup : calls.Nodup
  root : ∀ p, .rootDir p ∈ calls ↔ p = common
  dirs : ∀ p, .dir p ∈ calls ↔
    common <+: p ∧ p ≠ common ∧ ∃ entry ∈ entries, p <+: entry.1.parentPath
  files : ∀ p info, .file p info ∈ calls ↔ (p, info) ∈ entries
  rooted : Justified Call.Rooted calls

section
variable {common : Path} {entries : List (Path × FileInfo)} {createdDirs : List Path} {path : Path}

theorem mem_newDirs {entry : Path × FileInfo} (below : common <+: entry.1.parentPath) :
    path ∈ newDirs createdDirs common entry ↔
      path ∉ createdDirs ∧ common <+: path ∧ path ≠ common ∧ path <+: entry.1.parentPath := by
  obtain ⟨rest, hrest⟩ := below
  rw [newDirs, List.mem_filter, mem_dirsTo, ← hrest, List.drop_left]
  simp only [decide_not, Bool.not_eq_true', decide_eq_false_iff_not]
  tauto

theorem dir_mem_entryCalls (below : ∀ entry ∈ entries, common <+: entry.1.parentPath) :
    .dir path ∈ entryCalls common createdDirs entries ↔
      path ∉ createdDirs ∧ common <+: path ∧ path ≠ common ∧
        ∃ entry ∈ entries, path <+: entry.1.parentPath := by
  induction entries generalizing createdDirs with
  | nil => simp [entryCalls]
  | cons entry rest ih =>
    have here : path ∈ newDirs createdDirs common entry ↔ _ :=
      mem_newDirs (below entry List.mem_cons_self)
    simp only [entryCalls, List.mem_append, List.mem_cons, List.mem_map, Call.dir.injEq,
      exists_eq_right, reduceCtorEq, false_or, ih fun e he => below e (List.mem_cons_of_mem _ he),
      here, exists_eq_or_imp]
    tauto

theorem file_mem_entryCalls {info : FileInfo} :
    .file path info ∈ entryCalls common createdDirs entries ↔ (path, info) ∈ entries := by
  induction entries generalizing createdDirs with
  | nil => simp [entryCalls]
  | cons entry rest ih =>
    simp only [entryCalls, List.mem_append, List.mem_cons, List.mem_map, reduceCtorEq, and_false,
      exists_false, false_or, Call.file.injEq, ih, Prod.ext_iff]

theorem rootDir_mem_entryCalls : .rootDir path ∉ entryCalls common createdDirs entries := by
  induction entries generalizing createdDirs with
  | nil => simp [entryCalls]
  | cons entry rest ih => simp [entryCalls, ih]

theorem entryCalls_nodup (distinct : entries.Nodup)
    (below : ∀ entry ∈ entries, common <+: entry.1.parentPath) :
    (entryCalls common createdDirs entries).Nodup := by
  induction entries generalizing createdDirs with
  | nil => exact List.nodup_nil
  | cons entry rest ih =>
    obtain ⟨absent, distinct⟩ := List.nodup_cons.mp distinct
    have below' : ∀ e ∈ rest, common <+: e.1.parentPath := fun e he =>
      below e (List.mem_cons_of_mem _ he)
    have dirs : (newDirs createdDirs common entry).Nodup := (dirsTo_nodup _ _).filter _
    rw [entryCalls, List.nodup_append]
    refine ⟨List.Nodup.map (fun _ _ => Call.dir.inj) dirs,
      List.nodup_cons.mpr ⟨?_, ih distinct below'⟩, ?_⟩
    · rw [file_mem_entryCalls]
      exact absent
    · intro call hcall other hother
      obtain ⟨p, hp, rfl⟩ := List.mem_map.mp hcall
      rintro rfl
      rcases List.mem_cons.mp hother with h | h
      · cases h
      · exact ((dir_mem_entryCalls below').mp h).1 (List.mem_append_left _ hp)

/-- On the way down every directory is given the handle of the one above it. -/
theorem dirs_rooted (rest : List String) {parent : Path} {before : List Call}
    (rooted : Justified Call.Rooted before) (opened : Call.Opened before parent)
    (created : ∀ p ∈ createdDirs, Call.Opened before p) {todo : List Path}
    (htodo : todo = (dirsTo parent rest).filter (· ∉ createdDirs)) :
    Justified Call.Rooted (before ++ todo.map .dir) ∧
      Call.Opened (before ++ todo.map .dir) (parent ++ rest) := by
  induction rest generalizing parent before todo with
  | nil =>
    subst htodo
    simpa [dirsTo] using ⟨rooted, opened⟩
  | cons name rest ih =>
    subst htodo
    by_cases old : parent ++ [name] ∈ createdDirs
    · have := ih rooted (created _ old) created rfl
      simpa [dirsTo, old] using this
    · have step : Call.Rooted before (.dir (parent ++ [name])) :=
        ⟨by simp, by rwa [Path.parentPath_append]⟩
      have := ih (rooted.snoc step) (Call.opened_snoc.mpr (Or.inr (Or.inr rfl)))
        (fun p hp => (created p hp).append _) rfl
      simpa [dirsTo, old] using this

theorem entries_rooted {before : List Call} (rooted : Justified Call.Rooted before)
    (named : ∀ entry ∈ entries, entry.1 ≠ [])
    (below : ∀ entry ∈ entries, common <+: entry.1.parentPath)
    (top : common ∈ createdDirs) (created : ∀ p ∈ createdDirs, Call.Opened before p) :
    Justified Call.Rooted (before ++ entryCalls common createdDirs entries) := by
  induction entries generalizing createdDirs before with
  | nil => simpa [entryCalls] using rooted
  | cons entry rest ih =>
    obtain ⟨tail, htail⟩ := below entry List.mem_cons_self
    obtain ⟨rooted', opened⟩ := dirs_rooted (entry.1.parentPath.drop common.length) rooted
      (created common top) created rfl
    rw [← htail, List.drop_left] at opened
    have file : Call.Rooted (before ++ (newDirs createdDirs common entry).map .dir)
        (.file entry.1 entry.2) := by
      refine ⟨named entry List.mem_cons_self, ?_⟩
      rw [newDirs, ← htail, List.drop_left]
      exact opened
    have created' : ∀ p ∈ newDirs createdDirs common entry ++ createdDirs,
        Call.Opened (before ++ (newDirs createdDirs common entry).map .dir ++
          [.file entry.1 entry.2]) p := by
      intro p hp
      rw [List.append_assoc]
      rcases List.mem_append.mp hp with hp | hp
      · refine Or.inr (List.mem_append_right _ (List.mem_append_left _ ?_))
        exact List.mem_map_of_mem hp
      · exact (created p hp).append _
    have := ih (rooted'.snoc file) (fun e he => named e (List.mem_cons_of_mem _ he))
      (fun e he => below e (List.mem_cons_of_mem _ he)) (List.mem_append_right _ top) created'
    rw [entryCalls]
    simpa [newDirs] using this

end

theorem dbCalls_eq {entries : List (Path × FileInfo)} {first : Path × FileInfo}
    {rest : List (Path × FileInfo)} (h : entries = first :: rest) :
    dbCalls entries = .rootDir (commonParent first entries) ::
      entryCalls (commonParent first entries) [commonParent first entries] entries := by
  rw [h]
  rfl

theorem dbCalls_describe (db : Db) {first : Path × FileInfo} {rest : List (Path × FileInfo)}
    (h : db.entries = first :: rest) :
    Describes db.entries (commonParent first db.entries) (dbCalls db.entries) := by
  have below := ((commonParent_below first db.entries).mp (List.prefix_refl _)).2
  have rooted : Justified Call.Rooted [.rootDir (commonParent first db.entries)] :=
    Justified.nil.snoc trivial
  rw [dbCalls_eq h]
  constructor
  · rfl
  · exact List.nodup_cons.mpr ⟨rootDir_mem_entryCalls,
      entryCalls_nodup (List.Nodup.of_map _ db.distinct) below⟩
  · intro p
    simp [rootDir_mem_entryCalls]
  · intro p
    rw [List.mem_cons, dir_mem_entryCalls below, List.mem_singleton]
    simp only [reduceCtorEq, false_or]
    tauto
  · intro p info
    simp [file_mem_entryCalls]
  · exact entries_rooted rooted db.named below List.mem_cons_self fun p hp => by
      obtain rfl := List.mem_singleton.mp hp
      exact Or.inl List.mem_cons_self

theorem files_entryCalls (base common : Path) (createdDirs : List Path)
    (entries : List (Path × FileInfo)) :
    (entryCalls common createdDirs entries).filterMap (Call.fileAt base common) =
      entries.map fun entry => (base ++ entry.1.drop common.length, entry.2) := by
  induction entries generalizing createdDirs with
  | nil => rfl
  | cons entry rest ih =>
    have dirs : ((newDirs createdDirs common entry).map Call.dir).filterMap
        (Call.fileAt base common) = [] := by
      rw [List.filterMap_map, List.filterMap_eq_nil_iff]
      exact fun _ _ => rfl
    rw [entryCalls, List.filterMap_append, dirs, List.nil_append, List.filterMap_cons, ih]
    rfl

/-- What a scan of the database lists for a processor that follows handles. -/
theorem scanDb_locator (base : Path → Path) (db : Db) {first : Path × FileInfo}
    {rest : List (Path × FileInfo)} (h : db.entries = first :: rest) :
    ((scanDb (Call.locator base) db.entries).run []).2 = db.entries.map fun entry =>
      (base (commonParent first db.entries) ++
        entry.1.drop (commonParent first db.entries).length, entry.2) := by
  have describes := dbCalls_describe db h
  have located := Call.locator_files base describes.rooted fun p hp => (describes.root p).mp hp
  rw [scanDb_issues]
  refine Eq.trans ?_ (located.trans ?_)
  · simp
    rfl
  · rw [dbCalls_eq h, List.filterMap_cons]
    exact files_entryCalls _ _ _ _

/-- `ScanDb` tells its processor, in any order of the map, of exactly one tree. -/
theorem scanDb_calls (db : Db) (h : db.entries ≠ []) :
    ∃ common calls,
      (∀ p, p <+: common ↔ ∀ entry ∈ db.entries, p <+: entry.1.parentPath) ∧
      Describes db.entries common calls ∧
      (∀ (m : Type → Type) [Monad m] [LawfulMonad m] (H : Type) [Inhabited H]
        (P : ScanProcessor m H), scanDb P db.entries = do
          let _ ← Call.issueAll P (fun _ => default) calls
          return ()) ∧
      ((scanDb (Call.locator id) db.entries).run []).2 = db.entries ∧
      ∀ db' : Db, db'.entries.Perm db.entries → ∃ calls', calls'.Perm calls ∧
        ∀ (m : Type → Type) [Monad m] [LawfulMonad m] (H : Type) [Inhabited H]
          (P : ScanProcessor m H), scanDb P db'.entries = do
            let _ ← Call.issueAll P (fun _ => default) calls'
            return () := by
  obtain ⟨first, rest, hfirst⟩ := List.exists_cons_of_ne_nil h
  have describes := dbCalls_describe db hfirst
  have below := (prefix_commonParent hfirst).mp (List.prefix_refl _)
  refine ⟨commonParent first db.entries, dbCalls db.entries, fun _ => prefix_commonParent hfirst,
    describes,
    fun m _ _ H _ P => scanDb_issues P _, ?_, fun db' perm => ⟨dbCalls db'.entries, ?_,
      fun m _ _ H _ P => scanDb_issues P _⟩⟩
  · rw [scanDb_locator id db hfirst]
    refine (List.map_congr_left fun entry he => ?_).trans (List.map_id _)
    obtain ⟨tail, htail⟩ := (below entry he).trans (List.dropLast_prefix entry.1)
    refine Prod.ext ?_ rfl
    dsimp only [id]
    rw [← htail, List.drop_left]
  · have h' : db'.entries ≠ [] := fun he => h (List.nil_perm.mp (he ▸ perm))
    obtain ⟨first', rest', hfirst'⟩ := List.exists_cons_of_ne_nil h'
    have describes' := dbCalls_describe db' hfirst'
    have common := commonParent_perm hfirst hfirst' perm
    apply (List.perm_ext_iff_of_nodup describes'.nodup describes.nodup).mpr
    intro call
    cases call with
    | rootDir p => rw [describes'.root, describes.root, common]
    | dir p => rw [describes'.dirs, describes.dirs, common]; simp only [perm.mem_iff]
    | file p info => rw [describes'.files, describes.files, perm.mem_iff]

/-- An absolute and a relative path, and a file that is a directory of another. -/
def mixedDb : Db where
  entries := [(["/", "a", "x"], ⟨1, 2, 3⟩), (["b"], ⟨1, 2, 4⟩), (["b", "c"], ⟨1, 2, 5⟩)]
  distinct := by decide
  named := by decide

theorem scanDb_calls_mixed :
    ∃ common calls, Describes mixedDb.entries common calls ∧ ∀ p, p <+: common ↔ p = [] := by
  obtain ⟨common, calls, longest, describes, -⟩ := scanDb_calls mixedDb (by decide)
  refine ⟨common, calls, describes, fun p => ?_⟩
  rw [longest]
  constructor
  · intro all
    exact List.prefix_nil.mp (all (["b"], ⟨1, 2, 4⟩) (by decide))
  · rintro rfl entry -
    exact List.nil_prefix

end Dupa
