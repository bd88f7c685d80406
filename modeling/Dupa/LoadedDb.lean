import Dupa.BuiltTree

/-!
# Loading a database

`FuzzyDedup` on a dumped database builds the tree of the directories that the files in it
have in common and classifies it. The root is named by the longest common directory of
the files, and a node must not have an empty name: databases whose files have no
directory in common end in a failed assert, as do those with sums of weights out of range
(`db_loads_iff`).
-/

namespace Dupa

open Checked

/-! ## Paths as strings -/

namespace Path

/-- An element of a path other than the root directory. -/
def IsName (name : String) : Prop := name ≠ "" ∧ '/' ∉ name.toList

/-- The elements of a path below the root directory. -/
def names : Path → List String
  | "/" :: rest => rest
  | path => path

/-- The path of a file: relative, or below the root directory. -/
def OfFile (p : Path) : Prop := p.names ≠ [] ∧ ∀ name ∈ p.names, IsName name

variable {p q : Path} {name : String} {l : List String}

theorem names_absolute (rest : List String) : names ("/" :: rest) = rest := rfl

theorem names_relative (h : p.head? ≠ some "/") : p.names = p := by
  unfold names
  split
  · simp at h
  · rfl

theorem native_absolute (rest : List String) :
    native ("/" :: rest) = "/" ++ "/".intercalate rest := rfl

theorem native_relative (h : p.head? ≠ some "/") : p.native = "/".intercalate p := by
  unfold native
  split
  · simp at h
  · rfl

theorem append_end {s t : String} (ne : t ≠ "") (ends : t.toList.getLast? ≠ some '/') :
    s ++ t ≠ "" ∧ (s ++ t).toList.getLast? ≠ some '/' := by
  have chars : t.toList ≠ [] := by simpa using ne
  constructor
  · intro h
    have := congrArg String.toList h
    simp [ne] at this
  · rw [String.toList_append, List.getLast?_append_of_ne_nil _ chars]
    exact ends

/-- Joined names end in a name. -/
theorem intercalate_end (ne : l ≠ []) (all : ∀ name ∈ l, IsName name) :
    "/".intercalate l ≠ "" ∧ ("/".intercalate l).toList.getLast? ≠ some '/' := by
  obtain ⟨init, name, rfl⟩ := (List.eq_nil_or_concat' l).resolve_left ne
  have last := all name (by simp)
  have ends : name.toList.getLast? ≠ some '/' := fun h => last.2 (List.mem_of_getLast? h)
  cases init with
  | nil => simpa using ⟨last.1, ends⟩
  | cons first rest =>
    rw [String.intercalate_append_of_ne_nil (by simp) (by simp), String.intercalate_singleton]
    exact append_end last.1 ends

theorem append_plain {lhs : String} (ne : lhs ≠ "") (ends : lhs.toList.getLast? ≠ some '/')
    (hname : IsName name) : append lhs name = lhs ++ "/" ++ name := by
  have first : name.toList.head? ≠ some '/' := fun h => hname.2 (List.mem_of_head? h)
  simp [append, ne, ends, hname.1, first]

/-- `/=` with a name goes one element down. -/
theorem native_child (hq : q ≠ []) (all : ∀ e ∈ q.names, IsName e) (hname : IsName name) :
    native (q ++ [name]) = append q.native name := by
  by_cases absolute : q.head? = some "/"
  · obtain ⟨rest, rfl⟩ : ∃ rest, q = "/" :: rest := List.head?_eq_some_iff.mp absolute
    rw [names_absolute] at all
    rw [List.cons_append, native_absolute, native_absolute]
    by_cases top : rest = []
    · subst top
      simp [append]
    · obtain ⟨ne, ends⟩ := intercalate_end top all
      obtain ⟨ne, ends⟩ := append_end (s := "/") ne ends
      rw [append_plain ne ends hname, String.intercalate_append_of_ne_nil top (by simp),
        String.intercalate_singleton]
      simp [String.append_assoc]
  · rw [names_relative absolute] at all
    obtain ⟨ne, ends⟩ := intercalate_end hq all
    have relative : (q ++ [name]).head? ≠ some "/" := by
      rwa [List.head?_append_of_ne_nil _ hq]
    rw [native_relative absolute, native_relative relative, append_plain ne ends hname,
      String.intercalate_append_of_ne_nil hq (by simp), String.intercalate_singleton]

theorem native_ne (hq : q ≠ []) (all : ∀ e ∈ q.names, IsName e) : q.native ≠ "" := by
  by_cases absolute : q.head? = some "/"
  · obtain ⟨rest, rfl⟩ : ∃ rest, q = "/" :: rest := List.head?_eq_some_iff.mp absolute
    rw [native_absolute]
    intro h
    have := congrArg String.toList h
    simp at this
  · rw [names_relative absolute] at all
    rw [native_relative absolute]
    exact (intercalate_end hq all).1

/-- The directories on the way to a file. -/
theorem OfFile.upto (file : p.OfFile) (h : q <+: p) : ∀ e ∈ q.names, IsName e := by
  obtain ⟨rest, rfl⟩ := h
  obtain ⟨-, all⟩ := file
  cases q with
  | nil => simp [names]
  | cons first q =>
    by_cases absolute : first = "/"
    · subst absolute
      rw [List.cons_append, names_absolute] at all
      rw [names_absolute]
      exact fun e he => all e (List.mem_append_left _ he)
    · rw [names_relative (by simpa using absolute)] at all
      rw [names_relative (by simpa using absolute)]
      exact fun e he => all e (List.mem_append_left _ he)

theorem OfFile.child (file : p.OfFile) (h : q ++ [name] <+: p) (ne : q ≠ []) : IsName name := by
  apply file.upto h
  obtain ⟨first, q, rfl⟩ := List.exists_cons_of_ne_nil ne
  by_cases absolute : first = "/"
  · subst absolute
    rw [List.cons_append, names_absolute]
    simp
  · rw [names_relative (by simpa using absolute)]
    simp

end Path

/-! ## Where nodes are -/

namespace TreeCtor

variable {calls : List Call} {handles : Path → NodeId} {t : TreeCtor}

theorem nodeName_top {call : Call} (top : call.above = none) : call.nodeName = call.path.native := by
  cases call with
  | rootDir path => rfl
  | dir | file => cases top

/-- `BuildPath` leads to the paths that the nodes were created for. -/
theorem Mirrors.buildPath (mirrors : Mirrors calls handles t)
    (child : ∀ call ∈ calls, ∀ dir ∈ call.above,
      call.path.native = Path.append dir.native call.nodeName) :
    ∀ k call, calls[k]? = some call → t.heap.buildPath k = call.path.native := by
  have up : ∀ fuel (k : ℕ) call, k ≤ fuel → calls[k]? = some call →
      t.heap.buildPathUp fuel k = call.path.native := by
    intro fuel
    induction fuel with
    | zero =>
      intro k call hk here
      have name := mirrors.name k call here
      cases above : call.above with
      | none => exact name.trans (nodeName_top above)
      | some dir =>
        have parent := mirrors.parent k call here
        rw [above] at parent
        have := (mirrors.growing.older k _ parent).1
        omega
    | succ fuel ih =>
      intro k call hk here
      have name := mirrors.name k call here
      have parent := mirrors.parent k call here
      unfold Heap.buildPathUp
      rw [parent, name]
      cases above : call.above with
      | none => exact nodeName_top above
      | some dir =>
        have mem := List.mem_of_getElem? here
        obtain ⟨call', here', rfl, -⟩ := mirrors.opened dir (mirrors.closed call mem dir above)
        rw [above] at parent
        have lower := (mirrors.growing.older k _ parent).1
        change Path.append (t.heap.buildPathUp fuel (handles call'.path)) _ = _
        rw [ih _ call' (by omega) here', child call mem _ above]
  intro k call here
  apply up _ k call _ here
  have := (List.getElem?_eq_some_iff.mp here).1
  rw [mirrors.size]
  omega

/-- The checksums of the files, by their nodes. -/
def callSum (calls : List Call) (n : NodeId) : Cksum :=
  match calls[n]? with
  | some (.file _ info) => info.sum
  | _ => 0

end TreeCtor

/-- `s` is the multimap after these insertions, in some order of iteration. -/
def Sum2Node.Orders (s : Sum2Node) (inserted : List (Cksum × NodeId)) : Prop :=
  (s.groups.flatMap fun group => group.2.map fun n => (group.1, n)).Perm inserted

theorem TreeCtor.Mirrors.holds {calls : List Call} {handles : Path → NodeId} {t : TreeCtor}
    (mirrors : Mirrors calls handles t) {s : Sum2Node} (orders : s.Orders t.sum2Node) :
    s.Holds t.heap.layout (callSum calls) where
  mem k n := by
    have inserted : (∃ group ∈ s.groups, group.1 = k ∧ n ∈ group.2) ↔ (k, n) ∈ t.sum2Node := by
      rw [← orders.mem_iff]
      simp only [List.mem_flatMap, List.mem_map, Prod.mk.injEq]
      constructor
      · rintro ⟨group, hg, rfl, hn⟩
        exact ⟨group, hg, n, hn, rfl, rfl⟩
      · rintro ⟨group, hg, m, hm, rfl, rfl⟩
        exact ⟨group, hg, rfl, hm⟩
    rw [inserted, mirrors.sums]
    constructor
    · rintro ⟨p, info, here, rfl⟩
      have lt := (List.getElem?_eq_some_iff.mp here).1
      refine ⟨⟨?_, mirrors.type n _ here⟩, by simp [callSum, here]⟩
      change n < t.heap.numNodes
      rw [mirrors.size]
      exact lt
    · rintro ⟨⟨inside, file⟩, rfl⟩
      have lt : n < calls.length := mirrors.size ▸ inside
      obtain ⟨call, here⟩ : ∃ call, calls[n]? = some call := ⟨_, List.getElem?_eq_getElem lt⟩
      have type : call.nodeType = .file := (mirrors.type n call here).symm.trans file
      cases call with
      | rootDir | dir => cases type
      | file p info => exact ⟨p, info, here, by simp [callSum, here]⟩
  nodup group hg := by
    have all : ((s.groups.flatMap fun group => group.2.map fun n => (group.1, n)).map
        Prod.snd).Nodup := (orders.map Prod.snd).nodup_iff.mpr mirrors.sums_nodup
    rw [List.map_flatMap] at all
    have := (List.nodup_flatMap.mp all).1 group hg
    simpa using this

/-! ## Loading -/

/-- `FuzzyDedup` builds a node for every call that the database leads to, with a name and
at the path of the call, and classifies the tree; no assert fails. -/
def Db.Loads (E : Env) (db : Db) : Prop :=
  ∃ t, Input.tree (dbCalls db.entries) = .ok t ∧ t.root = some 0 ∧
    t.heap.numNodes = (dbCalls db.entries).length ∧
    (∀ k call, (dbCalls db.entries)[k]? = some call →
      (t.heap.node k).name ≠ "" ∧ t.heap.buildPath k = call.path.native) ∧
    ∀ s : Sum2Node, s.Orders t.sum2Node → ∃ result, classify E t.heap 0 s = .ok result

/-- Whatever the tree of the database is, the sums of the distances stay in range. -/
def Db.SumsFit (E : Env) (db : Db) : Prop :=
  ∀ (t : TreeCtor) (s : Sum2Node), Input.tree (dbCalls db.entries) = .ok t →
    s.Orders t.sum2Node → Propagation.SumsFit E t.heap 0 s

/-- No stored size is negative. -/
def Db.Sized (db : Db) : Prop := ∀ entry ∈ db.entries, 0 ≤ entry.2.size.toInt

section
variable {db : Db} {first : Path × FileInfo} {rest : List (Path × FileInfo)} {common : Path}

theorem commonParent_ne_nil (h : db.entries = first :: rest) :
    commonParent first db.entries ≠ [] ↔
      ∃ top, ∀ entry ∈ db.entries, entry.1.parentPath.head? = some top := by
  have one : ∀ {top : String} {p : Path}, [top] <+: p ↔ p.head? = some top := by
    intro top p
    cases p with
    | nil => simp
    | cons e p => simp [eq_comm]
  have shared : ∀ top, [top] <+: commonParent first db.entries ↔
      ∀ entry ∈ db.entries, entry.1.parentPath.head? = some top := by
    intro top
    rw [prefix_commonParent h]
    simp only [one]
  constructor
  · intro ne
    obtain ⟨top, tail, hc⟩ := List.exists_cons_of_ne_nil ne
    exact ⟨top, (shared top).mp (one.mpr (by rw [hc]; rfl))⟩
  · rintro ⟨top, all⟩ none
    have := (shared top).mpr all
    rw [none] at this
    simp at this

/-- Every call but the first is made inside the common directory, on the way to a file. -/
theorem Describes.inner {calls : List Call} (describes : Describes db.entries common calls)
    {call : Call} (hc : call ∈ calls) {dir : Path} (above : call.above = some dir) :
    common <+: dir ∧ call.path = dir ++ [call.nodeName] ∧
      ∃ entry ∈ db.entries, call.path <+: entry.1 := by
  obtain ⟨before, after, split⟩ := List.append_of_mem hc
  have rooted := describes.rooted before call after split
  have inside : ∀ {p}, Call.Opened before p → common <+: p := by
    rintro p (hp | hp)
    · rw [(describes.root p).mp (split ▸ List.mem_append_left _ hp)]
    · exact ((describes.dirs p).mp (split ▸ List.mem_append_left _ hp)).1
  cases call with
  | rootDir p => cases above
  | dir p =>
    cases above
    obtain ⟨ne, opened⟩ := rooted
    obtain ⟨-, -, entry, he, down⟩ := (describes.dirs p).mp hc
    exact ⟨inside opened, (Path.parentPath_filename ne).symm, entry, he,
      down.trans (List.dropLast_prefix entry.1)⟩
  | file p info =>
    cases above
    obtain ⟨ne, opened⟩ := rooted
    exact ⟨inside opened, (Path.parentPath_filename ne).symm, (p, info),
      (describes.files p info).mp hc, List.prefix_refl p⟩

theorem Describes.named {calls : List Call} (describes : Describes db.entries common calls)
    (files : ∀ entry ∈ db.entries, entry.1.OfFile) (ne : common ≠ []) {call : Call}
    (hc : call ∈ calls) {dir : Path} (above : call.above = some dir) :
    dir ≠ [] ∧ (∀ e ∈ dir.names, Path.IsName e) ∧ Path.IsName call.nodeName := by
  obtain ⟨below, path, entry, he, down⟩ := describes.inner hc above
  have some : dir ≠ [] := by
    rintro rfl
    exact ne (List.prefix_nil.mp below)
  rw [path] at down
  exact ⟨some, (files entry he).upto ((List.prefix_append dir _).trans down),
    (files entry he).child down some⟩

theorem Describes.follows {calls : List Call} (describes : Describes db.entries common calls)
    (files : ∀ entry ∈ db.entries, entry.1.OfFile) (ne : common ≠ []) :
    ∃ tail, calls = .rootDir common :: tail ∧
      Justified (fun done call => Call.Follows ([.rootDir common] ++ done) call) tail := by
  obtain ⟨tail, rfl⟩ : ∃ tail, calls = .rootDir common :: tail :=
    List.head?_eq_some_iff.mp describes.first
  refine ⟨tail, rfl, ?_⟩
  rintro done call after rfl
  have mem : call ∈ .rootDir common :: (done ++ call :: after) := by simp
  have apart : call ∉ [.rootDir common] ++ done := by
    have nodup := describes.nodup
    rw [← List.cons_append, List.nodup_append] at nodup
    intro hc
    exact nodup.2.2 call hc call List.mem_cons_self rfl
  have inner : ∀ p, call ≠ .rootDir p := by
    rintro p rfl
    obtain rfl := (describes.root p).mp mem
    exact apart (by simp)
  refine ⟨inner, describes.rooted _ call after rfl, ?_, ?_⟩
  · obtain ⟨dir, above⟩ : ∃ dir, call.above = some dir := by
      cases call with
      | rootDir p => exact absurd rfl (inner p)
      | dir | file => exact ⟨_, rfl⟩
    have name := (describes.named files ne mem above).2.2
    have path := (describes.inner mem above).2.1
    rw [path, Path.filename_append]
    exact name.1
  · rintro p rfl (hp | hp)
    · obtain rfl := (describes.root p).mp (List.mem_append_left (_ :: after) hp)
      exact ((describes.dirs p).mp mem).2.1 rfl
    · exact apart hp

/-- Files with a directory in common become a tree, with a node at the path of each call. -/
theorem Db.tree_of_common (h : db.entries = first :: rest)
    (files : ∀ entry ∈ db.entries, entry.1.OfFile) (ne : commonParent first db.entries ≠ []) :
    ∃ handles t, Input.tree (dbCalls db.entries) = .ok t ∧
      TreeCtor.Mirrors (dbCalls db.entries) handles t ∧ t.heap.Fresh 0 ∧
      ∀ k call, (dbCalls db.entries)[k]? = some call →
        (t.heap.node k).name ≠ "" ∧ t.heap.buildPath k = call.path.native := by
  have describes := dbCalls_describe db h
  obtain ⟨tail, calls, follows⟩ := describes.follows files ne
  have below := (prefix_commonParent h).mp (List.prefix_refl _) first (h ▸ List.mem_cons_self)
  have root : ∀ e ∈ (commonParent first db.entries).names, Path.IsName e :=
    (files first (h ▸ List.mem_cons_self)).upto (below.trans (List.dropLast_prefix first.1))
  obtain ⟨t₀, ran₀, mirrors₀⟩ := TreeCtor.mirrors_root (Path.native_ne ne root)
  obtain ⟨handles, t, ran, mirrors⟩ := mirrors₀.issueAll tail follows
  rw [List.singleton_append, ← calls] at mirrors
  have some : 0 < t.heap.numNodes := by
    rw [mirrors.size, calls]
    exact Nat.succ_pos _
  refine ⟨handles, t, ?_, mirrors, mirrors.growing.fresh some, fun k call here => ⟨?_, ?_⟩⟩
  · rw [calls]
    unfold Input.tree issued
    rw [Call.issueAll, List.foldlM_cons, StateT.run_bind, ran₀]
    exact congrArg Prod.snd ran
  · rw [mirrors.name k call here]
    cases above : call.above with
    | none =>
      rw [TreeCtor.nodeName_top above]
      have mem := List.mem_of_getElem? here
      cases call with
      | rootDir p =>
        rw [(describes.root p).mp mem]
        exact Path.native_ne ne root
      | dir | file => cases above
    | some dir => exact (describes.named files ne (List.mem_of_getElem? here) above).2.2.1
  · refine mirrors.buildPath (fun call hc dir above => ?_) k call here
    obtain ⟨some, all, name⟩ := describes.named files ne hc above
    rw [(describes.inner hc above).2.1]
    exact Path.native_child some all name

/-- The sizes of a tree are those of the database. -/
theorem Db.Sized.tree (sized : db.Sized) (h : db.entries = first :: rest) {t : TreeCtor}
    (built : Input.tree (dbCalls db.entries) = .ok t) (E : Env) : E.Sized t.heap.layout :=
  Input.tree_sized (fun path info hc =>
    sized (path, info) (((dbCalls_describe db h).files path info).mp hc)) built E

/-- A failed assert is the end. -/
theorem TreeCtor.processor_fails (fault : Fault) :
    Call.Keeps processor (fun _ => True) fun s => s = .error fault where
  file name parent info s _ failed := by
    subst failed
    rfl
  rootDir path s failed := by
    subst failed
    rfl
  dir name parent s failed := by
    subst failed
    rfl

/-- Without a common directory the root would have no name. -/
theorem Db.tree_of_apart (h : db.entries = first :: rest)
    (none : commonParent first db.entries = []) :
    Input.tree (dbCalls db.entries) = .error .emptyName := by
  have calls : dbCalls db.entries = .rootDir [] :: entryCalls [] [[]] db.entries := by
    rw [dbCalls_eq h, none]
  have failed : ((Call.issue TreeCtor.processor (fun _ => default) (.rootDir [])).run
      (.ok .start)).2 = .error .emptyName := rfl
  rw [calls]
  unfold Input.tree issued
  rw [Call.issueAll, List.foldlM_cons, StateT.run_bind]
  exact Call.issueAll_keeps (TreeCtor.processor_fails .emptyName) _ (fun _ _ _ => trivial) failed

end

/-- A database of files is loaded just when all their directories begin alike and the sums
of the distances stay in range. -/
theorem db_loads_iff (E : Env) (db : Db) (nonempty : db.entries ≠ [])
    (files : ∀ entry ∈ db.entries, entry.1.OfFile) (sized : db.Sized) :
    db.Loads E ↔
      (∃ top, ∀ entry ∈ db.entries, entry.1.parentPath.head? = some top) ∧ db.SumsFit E := by
  obtain ⟨first, rest, h⟩ := List.exists_cons_of_ne_nil nonempty
  rw [← commonParent_ne_nil h]
  constructor
  · rintro ⟨t, built, -, -, -, classified⟩
    have ne : commonParent first db.entries ≠ [] := by
      intro none
      rw [Db.tree_of_apart h none] at built
      cases built
    refine ⟨ne, fun t' s built' orders => ?_⟩
    obtain ⟨handles, u, made, mirrors, fresh, -⟩ := Db.tree_of_common h files ne
    obtain rfl := Except.ok.inj (built.symm.trans built')
    obtain rfl := Except.ok.inj (built.symm.trans made)
    exact (Propagation.classify_ok_iff fresh (mirrors.holds orders) (sized.tree h built E)).mp
      (classified s orders)
  · rintro ⟨ne, fits⟩
    obtain ⟨handles, t, built, mirrors, fresh, placed⟩ := Db.tree_of_common h files ne
    refine ⟨t, built, mirrors.root, mirrors.size, placed, fun s orders => ?_⟩
    exact (Propagation.classify_ok_iff fresh (mirrors.holds orders) (sized.tree h built E)).mpr
      (fits t s built orders)

/-- In exact arithmetic no sum is too large. -/
theorem Db.sumsFit_exact {E : Env} (exact : E.rounding = .exact) {db : Db}
    (nonempty : db.entries ≠ []) (files : ∀ entry ∈ db.entries, entry.1.OfFile) (sized : db.Sized)
    (common : ∃ top, ∀ entry ∈ db.entries, entry.1.parentPath.head? = some top) : db.SumsFit E := by
  obtain ⟨first, rest, h⟩ := List.exists_cons_of_ne_nil nonempty
  obtain ⟨handles, u, made, mirrors, fresh, -⟩ :=
    Db.tree_of_common h files ((commonParent_ne_nil h).mpr common)
  intro t s built orders
  obtain rfl := Except.ok.inj (built.symm.trans made)
  exact Propagation.sumsFit_of_unlimited (by rw [exact]; rfl) fresh (mirrors.holds orders)
    (sized.tree h built E)

/-- Files of two directories below one. -/
def sharedDb : Db where
  entries := [(["/", "a", "x"], ⟨1, 2, 3⟩), (["/", "b", "y"], ⟨1, 2, 4⟩)]
  distinct := by decide
  named := by decide

theorem db_loads_iff_shared : sharedDb.Loads (.sizing 20) := by
  have files : ∀ entry ∈ sharedDb.entries, entry.1.OfFile := by
    simp only [sharedDb, Path.OfFile, Path.IsName, Path.names]
    decide
  have sized : sharedDb.Sized := by
    unfold Db.Sized
    decide
  have common : ∃ top, ∀ entry ∈ sharedDb.entries, entry.1.parentPath.head? = some top :=
    ⟨"/", by decide⟩
  exact (db_loads_iff _ sharedDb (by decide) files sized).mpr
    ⟨common, Db.sumsFit_exact rfl (by decide) files sized common⟩

/-- Files of two directories with nothing in common. -/
def apartDb : Db where
  entries := [(["b", "ma", "kota"], ⟨1, 2, 3⟩), (["r", "d", "x"], ⟨1, 2, 3⟩)]
  distinct := by decide
  named := by decide

/-- The cache after a scan of the first directory. -/
def firstCache (path : Path) : Option FileInfo :=
  if path = ["b", "ma", "kota"] then some ⟨1, 2, 3⟩ else none

/-- It is dumped after the second has been scanned. -/
theorem apartDb_tells :
    (Input.dumped (deepFile ⟨1, 2, 3⟩) ["r"] firstCache).Tells (dbCalls apartDb.entries) := by
  obtain ⟨s, returned, run⟩ := deepFile_run ⟨1, 2, 3⟩ pathHashesFiller .empty firstCache
  refine .dumped run returned apartDb fun path info => ?_
  have cached := run.cache_eq returned path
  by_cases here : path = ["r", "d", "x"]
  · subst here
    rw [cached.1 (deepFile_regular ⟨1, 2, 3⟩) rfl]
    simp [apartDb, deepFile, eq_comm]
  · have unknown : (deepFile ⟨1, 2, 3⟩).hash path = none := by simp [deepFile, here]
    rw [cached.2 (by simp [unknown])]
    by_cases first : path = ["b", "ma", "kota"]
    · simp [apartDb, firstCache, first, eq_comm]
    · simp [apartDb, firstCache, here, first]

theorem apart_not_loaded :
    ¬∀ (E : Env) (files : FileSystem) (root : Path) (cache : Path → Option FileInfo) (db : Db),
      (Input.dumped files root cache).Tells (dbCalls db.entries) → db.entries ≠ [] →
      (∀ entry ∈ db.entries, entry.1.OfFile) → db.Sized → db.Loads E := by
  intro all
  have files : ∀ entry ∈ apartDb.entries, entry.1.OfFile := by
    simp only [apartDb, Path.OfFile, Path.IsName, Path.names]
    decide
  have sized : apartDb.Sized := by
    unfold Db.Sized
    decide
  obtain ⟨t, built, -⟩ := all (.counting 20) _ _ _ apartDb apartDb_tells (by decide) files sized
  have failed : Input.tree (dbCalls apartDb.entries) = .error .emptyName :=
    Db.tree_of_apart rfl rfl
  rw [failed] at built
  cases built

end Dupa
