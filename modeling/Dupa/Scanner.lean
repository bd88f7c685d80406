import Mathlib.Logic.Function.Basic
import Dupa.Library.Justified
import Dupa.Path

/-!
# What a scan tells its processor

A scan makes calls to a `ScanProcessor`, which returns a handle for every
directory and is given it back for what is inside. `Call` names a call by the
path it is about, and `issue` makes a list of calls, each with the handle
returned for its parent directory.
-/

namespace Dupa

/-- The processor computes in `m` and hands out handles of type `H`. -/
structure ScanProcessor (m : Type → Type) (H : Type) where
  file : String → H → FileInfo → m Unit
  rootDir : Path → m H
  dir : String → H → m H

inductive Call where
  | rootDir (path : Path)
  | dir (path : Path)
  | file (path : Path) (info : FileInfo)
  deriving DecidableEq

namespace Call

variable {m : Type → Type} [Monad m] {H : Type} [Inhabited H]

/-- One call; `handles` are the handles returned so far. -/
def issue (P : ScanProcessor m H) (handles : Path → H) : Call → m (Path → H)
  | rootDir path => do
    let handle ← P.rootDir path
    return Function.update handles path handle
  | dir path => do
    let handle ← P.dir path.filename (handles path.parentPath)
    return Function.update handles path handle
  | file path info => do
    P.file path.filename (handles path.parentPath) info
    return handles

def issueAll (P : ScanProcessor m H) (handles : Path → H) (calls : List Call) : m (Path → H) :=
  calls.foldlM (issue P) handles

omit [Inhabited H] in
theorem issueAll_append [LawfulMonad m] (P : ScanProcessor m H) (handles : Path → H)
    (calls calls' : List Call) :
    issueAll P handles (calls ++ calls') =
      issueAll P handles calls >>= fun handles => issueAll P handles calls' := by
  simp [issueAll, List.foldlM_append]

/-- A call in `before` returned a handle for the directory `path`. -/
def Opened (before : List Call) (path : Path) : Prop := rootDir path ∈ before ∨ dir path ∈ before

/-- The handle that the call is given was returned by a call in `before`. -/
def Rooted (before : List Call) : Call → Prop
  | rootDir _ => True
  | dir path => path ≠ [] ∧ Opened before path.parentPath
  | file path _ => path ≠ [] ∧ Opened before path.parentPath

variable {calls calls' : List Call} {path : Path}

theorem Opened.append (h : Opened calls path) (calls' : List Call) :
    Opened (calls ++ calls') path :=
  h.imp (List.mem_append_left _) (List.mem_append_left _)

theorem opened_snoc {call : Call} :
    Opened (calls ++ [call]) path ↔ Opened calls path ∨ rootDir path = call ∨ dir path = call := by
  simp only [Opened, List.mem_append, List.mem_singleton]
  tauto

/-! ## Following handles -/

/-- The file a call is about, with its path rebased from `common` to `base`. -/
def fileAt (base common : Path) : Call → Option (Path × FileInfo)
  | file path info => some (base ++ path.drop common.length, info)
  | _ => none

/-- A processor whose handles are the paths that lead to the directories, and
which lists the files it is told of by the paths that lead to them. -/
def locator (base : Path → Path) : ScanProcessor (StateM (List (Path × FileInfo))) Path where
  file := fun name parent info => modify fun files => files ++ [(parent ++ [name], info)]
  rootDir := fun path => pure (base path)
  dir := fun name parent => pure (parent ++ [name])

theorem rebase_child {base common : Path} (below : common <+: path.parentPath) (ne : path ≠ []) :
    base ++ path.parentPath.drop common.length ++ [path.filename] =
      base ++ path.drop common.length := by
  obtain ⟨rest, hrest⟩ := below
  rw [← hrest, List.drop_left, List.append_assoc]
  congr 1
  have whole : path = common ++ (rest ++ [path.filename]) := by
    rw [← List.append_assoc, hrest, Path.parentPath_filename ne]
  conv_rhs => rw [whole, List.drop_left]

/-- Following the handles from the root leads to every file by its own path. -/
theorem issueAll_locator (base : Path → Path) (common : Path) (calls : List Call)
    {before : List Call} {handles : Path → Path} (files : List (Path × FileInfo))
    (rooted : Justified (fun done call => Rooted (before ++ done) call) calls)
    (root : ∀ p, rootDir p ∈ calls → p = common)
    (opened : ∀ p, Opened before p → common <+: p ∧
      handles p = base common ++ p.drop common.length) :
    ((issueAll (locator base) handles calls).run files).2 =
      files ++ calls.filterMap (fileAt (base common) common) := by
  induction calls generalizing before handles files with
  | nil => simp [issueAll]; rfl
  | cons call calls ih =>
    have here : Rooted before call := by simpa using rooted [] call calls rfl
    have later : Justified (fun done x => Rooted ((before ++ [call]) ++ done) x) calls := by
      rintro done x after rfl
      simpa using rooted (call :: done) x after rfl
    have root' : ∀ p, rootDir p ∈ calls → p = common := fun p hp =>
      root p (List.mem_cons_of_mem _ hp)
    have update : ∀ {path}, (∀ p, rootDir p = call ∨ dir p = call → p = path) →
        common <+: path → ∀ p, Opened (before ++ [call]) p → common <+: p ∧
          Function.update handles path (base common ++ path.drop common.length) p =
            base common ++ p.drop common.length := by
      intro path new below p hp
      by_cases hpp : p = path
      · subst hpp
        exact ⟨below, Function.update_self ..⟩
      · rw [Function.update_of_ne hpp]
        exact opened p ((opened_snoc.mp hp).resolve_right fun h => hpp (new p h))
    cases call with
    | rootDir path =>
      obtain rfl := root path List.mem_cons_self
      have := ih files later root' (update (by simp) (List.prefix_refl path))
      rw [List.drop_length, List.append_nil] at this
      simpa [issueAll, issue, locator, fileAt, List.filterMap_cons] using this
    | dir path =>
      obtain ⟨ne, parent⟩ := here
      obtain ⟨below, handle⟩ := opened _ parent
      have := ih files later root' (update (by simp) (below.trans (List.dropLast_prefix path)))
      rw [← rebase_child below ne, ← handle] at this
      simpa [issueAll, issue, locator, fileAt, List.filterMap_cons] using this
    | file path info =>
      obtain ⟨ne, parent⟩ := here
      obtain ⟨below, handle⟩ := opened _ parent
      have := ih (files ++ [(base common ++ path.drop common.length, info)]) later root'
        fun p hp => opened p ((opened_snoc.mp hp).resolve_right (by simp))
      rw [List.append_assoc, List.singleton_append, ← rebase_child below ne, ← handle] at this
      rw [List.filterMap_cons, fileAt, ← rebase_child below ne, ← handle]
      simpa [issueAll, issue, locator] using this

theorem locator_files (base : Path → Path) {common : Path} {calls : List Call}
    (rooted : Justified Rooted calls) (root : ∀ p, rootDir p ∈ calls → p = common) :
    ((issueAll (locator base) (fun _ => default) calls).run []).2 =
      calls.filterMap (fileAt (base common) common) := by
  have rooted' : Justified (fun done call => Rooted ([] ++ done) call) calls := by simpa using rooted
  have located := issueAll_locator base common calls [] rooted' root
    (fun p (hp : Opened [] p) => (by simp [Opened] at hp : _ ∧ (fun _ => default : Path → Path) p = _))
  exact located.trans (List.nil_append _)

/-! ## Processors with a state -/

section
variable {σ τ : Type} {P : ScanProcessor (StateM σ) H} {Q : ScanProcessor (StateM τ) H}

/-- `Q` is `P` seen through `f`. -/
structure Abstracts (P : ScanProcessor (StateM σ) H) (Q : ScanProcessor (StateM τ) H)
    (f : σ → τ) : Prop where
  file : ∀ name parent info s,
    (Q.file name parent info).run (f s) = ((), f ((P.file name parent info).run s).2)
  rootDir : ∀ path s,
    (Q.rootDir path).run (f s) = (((P.rootDir path).run s).1, f ((P.rootDir path).run s).2)
  dir : ∀ name parent s,
    (Q.dir name parent).run (f s) = (((P.dir name parent).run s).1, f ((P.dir name parent).run s).2)

omit [Inhabited H] in
theorem issueAll_abstracts {f : σ → τ} (h : Abstracts P Q f) (handles : Path → H)
    (calls : List Call) (s : σ) :
    (issueAll Q handles calls).run (f s) =
      (((issueAll P handles calls).run s).1, f ((issueAll P handles calls).run s).2) := by
  induction calls generalizing handles s with
  | nil => rfl
  | cons call calls ih =>
    have step : (issue Q handles call).run (f s) =
        (((issue P handles call).run s).1, f ((issue P handles call).run s).2) := by
      cases call with
      | rootDir path => simp only [issue, StateT.run_bind, h.rootDir]; rfl
      | dir path => simp only [issue, StateT.run_bind, h.dir]; rfl
      | file path info => simp only [issue, StateT.run_bind, h.file]; rfl
    simp only [issueAll, List.foldlM_cons, StateT.run_bind] at ih ⊢
    rw [step]
    exact ih _ _

/-- `P` keeps what `holds` as long as the files it is told of are `good`. -/
structure Keeps (P : ScanProcessor (StateM σ) H) (good : FileInfo → Prop) (holds : σ → Prop) :
    Prop where
  file : ∀ name parent info s, good info → holds s → holds ((P.file name parent info).run s).2
  rootDir : ∀ path s, holds s → holds ((P.rootDir path).run s).2
  dir : ∀ name parent s, holds s → holds ((P.dir name parent).run s).2

omit [Inhabited H] in
theorem issueAll_keeps {good : FileInfo → Prop} {holds : σ → Prop} (h : Keeps P good holds)
    (handles : Path → H) {calls : List Call} (all : ∀ path info, file path info ∈ calls → good info)
    {s : σ} (start : holds s) : holds ((issueAll P handles calls).run s).2 := by
  induction calls generalizing handles s with
  | nil => exact start
  | cons call calls ih =>
    have later : ∀ path info, file path info ∈ calls → good info := fun path info hc =>
      all path info (List.mem_cons_of_mem _ hc)
    cases call with
    | rootDir path => exact ih _ later (h.rootDir path s start)
    | dir path => exact ih _ later (h.dir _ _ s start)
    | file path info => exact ih _ later (h.file _ _ info s (all path info List.mem_cons_self) start)

end

end Call

end Dupa
