import Dupa.DbOutput
import Dupa.PrintedCopies
import Dupa.Reports
import Mathlib.Data.List.Permutation

/-!
# Results printed and stored

With `--sql_out` the results for one input are printed and stored. What is printed can be
had from the tables (`directory_results`): the classes by the query that the documentation
suggests for the first ten of them, the scattered directories by one that asks for
directories alone in their classes.
-/

namespace Dupa

open Checked Session

/-! ## Queries -/

namespace Query

def text : Option Value → Option Bytes
  | some (.text b) => some b
  | _ => none

def real : Option Value → Option ℚ
  | some (.real x) => some x
  | _ => none

def MoreThanOne : Option Value → Prop
  | some (.int n) => 1 < n
  | _ => False

instance : DecidablePred MoreThanOne
  | some (.int n) => inferInstanceAs (Decidable (1 < n))
  | some (.real _) | some (.text _) | none => isFalse id

/-- `nodes > 1 AND interesting = 1`. -/
def Similar (row : Sql.Row Value) : Prop :=
  MoreThanOne (row "nodes") ∧ row "interesting" = some (.int 1)

instance : DecidablePred Similar := fun row =>
  inferInstanceAs (Decidable (MoreThanOne (row "nodes") ∧ row "interesting" = some (.int 1)))

/-- `SELECT path FROM Node WHERE eq_class = ?`. -/
def paths (nodes : Sql.Table Value) (id : Value) : List Bytes :=
  (nodes.rows.filter fun node => node "eq_class" = some id).filterMap fun node => text (node "path")

/-- `SELECT GROUP_CONCAT(path) FROM EqClass JOIN Node ON EqClass.id = Node.eq_class
WHERE nodes > 1 AND interesting = 1 GROUP BY EqClass.id`, with the groups in the order of
`EqClass`. This is the query for similar paths in README, without its limit. -/
def similar (eqClasses nodes : Sql.Table Value) : List (List Bytes) :=
  (eqClasses.rows.filter Similar).filterMap fun row => (row "id").map (paths nodes)

/-- `SELECT path FROM EqClass JOIN Node ON EqClass.id = Node.eq_class
WHERE type = 'DIR' AND nodes = 1 AND unique_fraction * 100 < ?`. The query in README for
scattered directories asks for a fraction below 0.2 only. -/
def scattered (E : Env) (eqClasses nodes : Sql.Table Value) : List Bytes :=
  (nodes.rows.filter fun node => node "type" = some (.text (bytes "DIR")) ∧
      Heap.BelowTolerance E (real (node "unique_fraction")) ∧
      ∃ row ∈ eqClasses.rows, row "id" = node "eq_class" ∧ row "nodes" = some (.int 1)).filterMap
    fun node => text (node "path")

end Query

/-- What is kept of a list without repetitions, in its order. -/
theorem filter_mem {α : Type} [DecidableEq α] {l kept : List α} (nodup : l.Nodup)
    (sub : kept.Sublist l) : l.filter (· ∈ kept) = kept := by
  have inside : kept.Sublist (l.filter (· ∈ kept)) := by
    have := sub.filter (· ∈ kept)
    rwa [List.filter_eq_self.mpr (by simp)] at this
  refine (inside.eq_of_length (List.Perm.length_eq ?_)).symm
  rw [List.perm_ext_iff_of_nodup (sub.nodup nodup) (nodup.filter _)]
  intro a
  rw [List.mem_filter, decide_eq_true_eq]
  exact ⟨fun h => ⟨sub.subset h, h⟩, And.right⟩

namespace FuzzyDedupRes

variable {A : Addresses} {res : FuzzyDedupRes} {E : Env} {root : NodeId} {c : ClassId} {n : NodeId}
  {interesting : List ClassId}

theorem fuzzyDedup_ordered {S : ClassSort} {h : Heap} {sum2Node : Sum2Node}
    (run : fuzzyDedup E S h root sum2Node = .ok res) :
    res.eqClasses.Pairwise fun c d => (res.heap.eqClass d).weight ≤ (res.heap.eqClass c).weight := by
  obtain ⟨⟨h', eqClasses⟩, -, run⟩ := of_bind_ok run
  obtain ⟨⟨files, fractions⟩, -, run⟩ := of_bind_ok run
  cases run
  exact S.ordered _ _

/-- No path has a zero in it. -/
def Plain (res : FuzzyDedupRes) : Prop := ∀ n < res.heap.numNodes, 0 ∉ bytes (res.heap.buildPath n)

theorem Plain.path (plain : res.Plain) (hn : n < res.heap.numNodes) :
    res.nodeRow A n "path" = some (.text (bytes (res.heap.buildPath n))) := by
  have cell : res.nodeRow A n "path" = some (.text (strncpy (bytes (res.heap.buildPath n)))) := rfl
  rw [cell, strncpy_of_plain (plain n hn)]

theorem type_cell (n : NodeId) : res.nodeRow A n "type" =
    some (.text (bytes (if (res.heap.node n).type = .file then "FILE" else "DIR"))) := by
  have cell : res.nodeRow A n "type" =
      some (.text (strncpy (bytes (if (res.heap.node n).type = .file then "FILE" else "DIR")))) := rfl
  rw [cell]
  cases (res.heap.node n).type <;> decide +kernel

theorem type_iff (n : NodeId) :
    res.nodeRow A n "type" = some (.text (bytes "DIR")) ↔ (res.heap.node n).type = .dir := by
  rw [type_cell]
  cases (res.heap.node n).type <;> decide +kernel

variable (sound : res.Sound E root) (distinct : A.Distinct res.heap)
include sound

/-- Paths of some of the rows. -/
theorem Sound.paths_filter (plain : res.Plain) (p : Sql.Row Value → Bool) :
    ((res.nodeTable A root).rows.filter p).filterMap (fun node => Query.text (node "path")) =
      ((res.heap.traverse root).filter fun n => p (res.nodeRow A n)).map
        fun n => bytes (res.heap.buildPath n) := by
  rw [nodeTable, List.filter_map, List.filterMap_map]
  apply List.filterMap_eq_map_iff_forall_eq_some.mpr
  intro n hn
  have inside := (Heap.mem_traverse sound.tree n).mp (List.mem_of_mem_filter hn)
  rw [Function.comp_apply, plain.path inside]
  rfl

include distinct

/-- The number in the row of a class is that of its members. -/
theorem Sound.count (hc : c ∈ res.eqClasses) :
    (UInt64.ofNat (res.heap.eqClass c).nodes.length).toInt64.toInt =
      (res.heap.eqClass c).nodes.length := by
  have few : (res.heap.eqClass c).nodes.length < 2 ^ 63 :=
    distinct.length_lt (sound.partitioned.nodes_nodup c hc) fun n hn =>
      ((sound.partitioned.member c hc n).mp hn).1
  rw [UInt64.toInt64_ofNat', Int64.toInt_ofNat_of_lt few]

theorem Sound.paths_perm (plain : res.Plain) (hc : c ∈ res.eqClasses) :
    (Query.paths (res.nodeTable A root) (.int (A.eqClass c).toInt64)).Perm
      ((res.heap.eqClass c).nodes.map fun n => bytes (res.heap.buildPath n)) := by
  rw [Query.paths, sound.paths_filter plain]
  apply List.Perm.map
  rw [List.perm_ext_iff_of_nodup ((Heap.traverse_nodup sound.tree).filter _)
    (sound.partitioned.nodes_nodup c hc)]
  intro n
  rw [List.mem_filter, Heap.mem_traverse sound.tree, sound.partitioned.member c hc, decide_eq_true_eq]
  apply and_congr_right
  intro hn
  obtain ⟨ofC, known⟩ := sound.classOf_mem hn
  have cell : res.nodeRow A n "eq_class" = some (.int (A.eqClass (res.classOf n)).toInt64) := rfl
  rw [cell, ofC, Option.some.injEq, Option.some.injEq, Value.int.injEq,
    sound.eqClass_inj distinct known hc]

theorem Sound.printedPaths (plain : res.Plain) (hc : c ∈ res.eqClasses) :
    sortedPaths (Query.paths (res.nodeTable A root) (.int (A.eqClass c).toInt64)) =
      res.heap.printedPaths c :=
  sortedPaths_eq_iff.mpr (sound.paths_perm distinct plain hc)

variable (sub : interesting.Sublist res.eqClasses)
  (several : ∀ c ∈ interesting, 2 ≤ (res.heap.eqClass c).nodes.length)
include sub several

theorem Sound.similarRows : (res.eqClassTable A (· ∈ interesting)).rows.filter Query.Similar =
    interesting.map fun c => res.eqClassRow A c true := by
  have similar : ∀ c ∈ res.eqClasses,
      (Query.Similar (res.eqClassRow A c (decide (c ∈ interesting))) ↔ c ∈ interesting) := by
    intro c hc
    have flag : res.eqClassRow A c (decide (c ∈ interesting)) "interesting" =
        some (.int (if c ∈ interesting then 1 else 0)) := by
      by_cases hi : c ∈ interesting <;> simp [eqClassRow, Sql.row, List.lookup_cons, hi]
    have count : res.eqClassRow A c (decide (c ∈ interesting)) "nodes" =
        some (.int (UInt64.ofNat (res.heap.eqClass c).nodes.length).toInt64) := rfl
    rw [Query.Similar, flag, count]
    constructor
    · rintro ⟨-, marked⟩
      by_contra dull
      rw [if_neg dull] at marked
      cases marked
    · intro hi
      rw [if_pos hi]
      refine ⟨?_, rfl⟩
      have two := several c hi
      change (1 : Int64) < _
      rw [Int64.lt_iff_toInt_lt, sound.count distinct hc]
      have : (1 : Int64).toInt = 1 := rfl
      omega
  have kept : res.eqClasses.filter (fun c => Query.Similar (res.eqClassRow A c (c ∈ interesting))) =
      res.eqClasses.filter (· ∈ interesting) :=
    List.filter_congr fun c hc => decide_eq_decide.mpr (similar c hc)
  rw [eqClassTable, List.filter_map]
  change (res.eqClasses.filter _).map _ = _
  rw [Function.comp_def, kept, filter_mem sound.nodup sub]
  apply List.map_congr_left
  intro c hc
  rw [decide_eq_true hc]

/-- The query for similar files and directories returns the lines. -/
theorem Sound.similar (plain : res.Plain) :
    (Query.similar (res.eqClassTable A (· ∈ interesting)) (res.nodeTable A root)).map sortedPaths =
      interesting.map res.heap.printedPaths := by
  rw [Query.similar, sound.similarRows distinct sub several, List.filterMap_map]
  have id : ∀ c, res.eqClassRow A c true "id" = some (.int (A.eqClass c).toInt64) := fun _ => rfl
  simp only [Function.comp_def, id, Option.map_some, List.filterMap_eq_map', List.map_map]
  apply List.map_congr_left
  intro c hc
  exact sound.printedPaths distinct plain (sub.subset hc)

omit sub several

/-- A node joins a row of a class with one member just if it is alone. -/
theorem Sound.single_iff (marked : ClassId → Bool) (hn : n < res.heap.numNodes) :
    (∃ row ∈ (res.eqClassTable A marked).rows, row "id" = res.nodeRow A n "eq_class" ∧
      row "nodes" = some (.int 1)) ↔ res.heap.IsSingle (res.classOf n) := by
  have known := (sound.classOf_mem hn).2
  have cell : res.nodeRow A n "eq_class" = some (.int (A.eqClass (res.classOf n)).toInt64) := rfl
  have id : ∀ c b, res.eqClassRow A c b "id" = some (.int (A.eqClass c).toInt64) := fun _ _ => rfl
  have count : ∀ c b, c ∈ res.eqClasses →
      (res.eqClassRow A c b "nodes" = some (.int 1) ↔ res.heap.IsSingle c) := by
    intro c b hc
    have cell : res.eqClassRow A c b "nodes" =
        some (.int (UInt64.ofNat (res.heap.eqClass c).nodes.length).toInt64) := rfl
    have one : (1 : Int64).toInt = 1 := rfl
    rw [cell, Option.some.injEq, Value.int.injEq, ← Int64.toInt_inj, sound.count distinct hc, one,
      Heap.IsSingle]
    omega
  constructor
  · rintro ⟨row, member, same, one⟩
    obtain ⟨c, hc, rfl⟩ := List.mem_map.mp member
    rw [id, cell, Option.some.injEq, Value.int.injEq, sound.eqClass_inj distinct hc known] at same
    exact same ▸ (count c _ hc).mp one
  · intro single
    exact ⟨_, List.mem_map_of_mem known, (id ..).trans cell.symm, (count _ _ known).mpr single⟩

/-- The query for scattered directories returns those that are printed. -/
theorem Sound.scattered (plain : res.Plain) (marked : ClassId → Bool) {dirs : List NodeId}
    (nodup : dirs.Nodup) (mem : ∀ n, n ∈ dirs ↔
      res.heap.AloneDir n ∧ Heap.BelowTolerance E (res.uniqueFraction n)) :
    (Query.scattered E (res.eqClassTable A marked) (res.nodeTable A root)).Perm
      (dirs.map fun n => bytes (res.heap.buildPath n)) := by
  rw [Query.scattered, sound.paths_filter plain]
  apply List.Perm.map
  rw [List.perm_ext_iff_of_nodup ((Heap.traverse_nodup sound.tree).filter _) nodup]
  intro n
  have fraction : Query.real (res.nodeRow A n "unique_fraction") = res.uniqueFraction n := by
    have cell : res.nodeRow A n "unique_fraction" = (res.uniqueFraction n).map Value.real := rfl
    rw [cell]
    cases res.uniqueFraction n <;> rfl
  rw [List.mem_filter, Heap.mem_traverse sound.tree, mem, decide_eq_true_eq, type_iff, fraction,
    Heap.AloneDir]
  constructor
  · rintro ⟨hn, dir, below, single⟩
    exact ⟨⟨⟨hn, dir⟩, _, (sound.classOf_mem hn).1, (sound.single_iff distinct marked hn).mp single⟩,
      below⟩
  · rintro ⟨⟨⟨hn, dir⟩, c, ofC, single⟩, below⟩
    obtain rfl := Option.some.inj ((sound.classOf_mem hn).1.symm.trans ofC)
    exact ⟨hn, dir, below, (sound.single_iff distinct marked hn).mpr single⟩

end FuzzyDedupRes

/-! ## The tables -/

/-- The rows of `Node` are those of the directories and files, and files refer to the same class
just if they have the same checksum. -/
structure Survey.Tabled (v : Survey) (nodes : Sql.Table Value) : Prop where
  distinct : (nodes.values "path").Nodup
  found : ∀ row ∈ nodes.rows, ∃ path, row "path" = some (.text (bytes (Path.native path))) ∧
    (row "type" = some (.text (bytes "DIR")) ∧ v.dirs path ∨
      row "type" = some (.text (bytes "FILE")) ∧ ∃ info, v.files path info)
  present : ∀ path, (v.dirs path ∨ ∃ info, v.files path info) →
    ∃ row ∈ nodes.rows, row "path" = some (.text (bytes (Path.native path)))
  alike : ∀ row ∈ nodes.rows, ∀ row' ∈ nodes.rows, ∀ path path' info info',
    v.files path info → v.files path' info' →
    row "path" = some (.text (bytes (Path.native path))) →
    row' "path" = some (.text (bytes (Path.native path'))) →
      (row "eq_class" = row' "eq_class" ↔ info.sum = info'.sum)
  /-- The column for checksums is there, but nothing is written into it. -/
  cksum : ∀ row ∈ nodes.rows, row "cksum" = none

/-- What can be had from the tables is what is printed. -/
structure Agree (E : Env) (eqClasses nodes : Sql.Table Value) (lines : List (List Bytes))
    (scattered : List Bytes) : Prop where
  similar : (Query.similar eqClasses nodes).map sortedPaths = lines
  /-- The rows of these classes are in the order of their weights. -/
  ordered : (eqClasses.rows.filter Query.Similar).Pairwise fun row row' =>
    ∃ x y, row "weight" = some (.real x) ∧ row' "weight" = some (.real y) ∧ y ≤ x
  scattered : (Query.scattered E eqClasses nodes).Perm scattered

/-- No path has a zero in it. -/
def Survey.Plain (v : Survey) : Prop :=
  ∀ path, (v.dirs path ∨ ∃ info, v.files path info) → 0 ∉ bytes (Path.native path)

namespace TreeCtor.Depicts

variable {v : Survey} {calls : List Call} {t : TreeCtor} {A : Addresses} {E : Env}
  {res : FuzzyDedupRes}
variable (depicts : t.Depicts calls) (layout : res.heap.layout = t.heap.layout) (told : v.Told calls)
include depicts layout told

theorem plain (plain : v.Plain) : res.Plain := by
  intro n hn
  obtain ⟨path, print, found⟩ := depicts.found_node layout told hn
  exact print ▸ plain path found

variable (plain : res.Plain)
include plain

/-- The row with the path of a file is that of its node. -/
theorem file_row {n : NodeId} (hn : n < res.heap.numNodes) {path : Path} {info : FileInfo}
    (file : v.files path info)
    (same : res.nodeRow A n "path" = some (.text (bytes path.native))) :
    calls[n]? = some (.file path info) := by
  obtain ⟨m, isFile, here⟩ := (depicts.file_iff layout told).mp file
  have print : res.heap.buildPath m = path.native := (depicts.of_call layout here).2.2
  rw [plain.path hn, ← print] at same
  obtain rfl := depicts.buildPath_inj layout told hn isFile.1 (Value.text.inj (Option.some.inj same))
  exact here

theorem tabled (distinct : A.Distinct res.heap) (sound : res.Sound E 0)
    (full : res.heap.FullyClassified (TreeCtor.callSum calls) 0 res.eqClasses) :
    v.Tabled (res.nodeTable A 0) := by
  have inside : ∀ n ∈ res.heap.traverse 0, n < res.heap.numNodes := fun n hn =>
    (Heap.mem_traverse sound.tree n).mp hn
  have row : ∀ n < res.heap.numNodes, res.nodeRow A n ∈ (res.nodeTable A 0).rows := fun n hn =>
    List.mem_map_of_mem ((Heap.mem_traverse sound.tree n).mpr hn)
  constructor
  case distinct =>
    have paths : (res.nodeTable A 0).values "path" =
        (res.heap.traverse 0).map fun n => .text (bytes (res.heap.buildPath n)) := by
      rw [Sql.Table.values, FuzzyDedupRes.nodeTable, List.filterMap_map]
      exact List.filterMap_eq_map_iff_forall_eq_some.mpr fun n hn => plain.path (inside n hn)
    rw [paths]
    apply (Heap.traverse_nodup sound.tree).map_on
    intro n hn m hm same
    exact depicts.buildPath_inj layout told (inside n hn) (inside m hm) (Value.text.inj same)
  case found =>
    intro row hr
    obtain ⟨n, hn, rfl⟩ := List.mem_map.mp hr
    have hn := inside n hn
    obtain ⟨call, here, type, path⟩ := depicts.node layout hn
    refine ⟨call.path, by rw [plain.path hn, path], ?_⟩
    rw [FuzzyDedupRes.type_cell, type]
    cases call with
    | rootDir p => exact Or.inl ⟨rfl, (depicts.dir_iff layout told).mpr ⟨n, _, ⟨hn, type⟩, here, rfl⟩⟩
    | dir p => exact Or.inl ⟨rfl, (depicts.dir_iff layout told).mpr ⟨n, _, ⟨hn, type⟩, here, rfl⟩⟩
    | file p info => exact Or.inr ⟨rfl, info, (told.files p info).mp (List.mem_of_getElem? here)⟩
  case present =>
    intro path found
    have node : ∃ (n : NodeId) (call : Call), calls[n]? = some call ∧ call.path = path := by
      rcases found with dir | ⟨info, file⟩
      · obtain ⟨n, call, -, here, same⟩ := (depicts.dir_iff layout told).mp dir
        exact ⟨n, call, here, same⟩
      · obtain ⟨n, -, here⟩ := (depicts.file_iff layout told).mp file
        exact ⟨n, _, here, rfl⟩
    obtain ⟨n, call, here, rfl⟩ := node
    obtain ⟨hn, -, print⟩ := depicts.of_call layout here
    exact ⟨_, row n hn, by rw [plain.path hn, print]⟩
  case alike =>
    intro row hr row' hr' path path' info info' file file' same same'
    obtain ⟨n, hn, rfl⟩ := List.mem_map.mp hr
    obtain ⟨m, hm, rfl⟩ := List.mem_map.mp hr'
    have here := depicts.file_row layout told plain (inside n hn) file same
    have here' := depicts.file_row layout told plain (inside m hm) file' same'
    obtain ⟨ofC, known⟩ := sound.classOf_mem (inside n hn)
    obtain ⟨ofC', known'⟩ := sound.classOf_mem (inside m hm)
    have isFile := (depicts.isFile_iff layout).mpr ⟨path, info, here⟩
    have isFile' := (depicts.isFile_iff layout).mpr ⟨path', info', here'⟩
    have cell : ∀ k, res.nodeRow A k "eq_class" =
      some (.int (A.eqClass (res.classOf k)).toInt64) := fun _ => rfl
    have sums : TreeCtor.callSum calls n = info.sum ∧ TreeCtor.callSum calls m = info'.sum := by
      simp [TreeCtor.callSum, here, here']
    rw [cell, cell, Option.some.injEq, Value.int.injEq, sound.eqClass_inj distinct known known',
      ← sums.1, ← sums.2]
    have together := full.mem_nodes isFile ofC m
    rw [full.member _ known, ofC', Option.some.injEq] at together
    constructor
    · intro same
      exact (together.mp ⟨inside m hm, same.symm⟩).2.symm
    · intro same
      exact (together.mpr ⟨isFile', same.symm⟩).2.symm
  case cksum =>
    intro row hr
    obtain ⟨n, -, rfl⟩ := List.mem_map.mp hr
    rfl

end TreeCtor.Depicts

/-! ## Runs -/

/-- What `main` prints about one input, and what it does with the database after that. -/
def analyze (E : Env) (S T : ClassSort) (A : Addresses) (sum2Node : Sum2Node) (t : TreeCtor) :
    Except Fault (Bytes × DbSession Unit) :=
  match t.root with
  | none => return (bytes "No files in specified location\n", pure ())
  | some root => do
    let res ← fuzzyDedup E S t.heap root sum2Node
    let eqClasses ← res.heap.getInteresingEqClasses res.eqClasses
    let scattered ← res.heap.printScatteredDirectories E T root res.uniqueFraction
    let session ← writeResults A root res eqClasses
    return (res.heap.printEqClassses eqClasses ++ linesText scattered, session)

theorem FuzzyDedupRes.Sound.written {A : Addresses} {res : FuzzyDedupRes} {E : Env} {root : NodeId}
    (sound : res.Sound E root) (distinct : A.Distinct res.heap) {interesting : List ClassId}
    (listed : interesting ⊆ res.eqClasses) {c : Sql.Connection Value} (ready : Ready c)
    (nodes : ¬c.tables.Referenced "Node")
    (eqClasses : ¬Sql.Database.Referenced (c.tables.erase "Node") "EqClass") :
    ∃ session c', writeResults A root res interesting = .ok session ∧ session.on c = (.ok (), c') ∧
      c'.saved = none ∧ c'.tables.lookup "EqClass" = some (res.eqClassTable A (· ∈ interesting)) ∧
      c'.tables.lookup "Node" = some (res.nodeTable A root) := by
  obtain ⟨c₁, created, ready₁, eqClasses₁, nodes₁⟩ := createResultsDatabase_on ready nodes eqClasses
  obtain ⟨c₂, dumped, ready₂, eqClasses₂, nodes₂⟩ :=
    sound.dumpFuzzyDedupRes_on distinct ready₁ eqClasses₁ nodes₁
  obtain ⟨c₃, marked, ready₃, eqClasses₃, others⟩ :=
    sound.dumpInterestingEqClasses_on distinct listed ready₂ eqClasses₂
  refine ⟨do
    createResultsDatabase
    res.dumpFuzzyDedupRes A ((res.heap.traverse root).map fun n => res.nodeTuple A n (res.classOf n))
    dumpInterestingEqClasses A interesting, c₃, ?_,
    (on_bind created).trans ((on_bind dumped).trans marked), ready₃.idle, eqClasses₃,
    (others "Node" (by decide)).trans nodes₂⟩
  rw [writeResults, sound.nodeTuples_ok, ok_bind]
  rfl

/-! ## Trees that have been built -/

namespace TreeCtor.Depicts

variable {v : Survey} {calls : List Call} {t : TreeCtor} {E : Env} {S T : ClassSort}
  {A : Addresses} {sum2Node : Sum2Node}
variable (depicts : t.Depicts calls) (told : v.Told calls) (sized : v.Sized E)
  (orders : sum2Node.Orders t.sum2Node)
include depicts told sized orders

/-- A run with a database gets as far as the classification does. -/
theorem analyze_iff : (∃ result, analyze E S T A sum2Node t = .ok result) ↔
    ∃ res, fuzzyDedup E S t.heap 0 sum2Node = .ok res := by
  constructor
  · rintro ⟨result, run⟩
    rw [analyze, depicts.root] at run
    obtain ⟨res, dedup, -⟩ := of_bind_ok run
    exact ⟨res, dedup⟩
  · rintro ⟨res, dedup⟩
    obtain ⟨-, sound⟩ := fuzzyDedup_sound depicts.fresh (depicts.holds sum2Node orders) dedup
    obtain ⟨interesting, dirs, shown, -⟩ := depicts.printed told sized orders T dedup
    rw [analyze, depicts.root]
    change ∃ result, (fuzzyDedup E S t.heap 0 sum2Node >>= _) = _
    rw [dedup, ok_bind, shown.classes, ok_bind, shown.scattered, ok_bind, writeResults,
      sound.nodeTuples_ok, ok_bind]
    exact ⟨_, rfl⟩

theorem analyze_iff_fits : (∃ result, analyze E S T A sum2Node t = .ok result) ↔
    Propagation.SumsFit E t.heap 0 sum2Node :=
  (depicts.analyze_iff told sized orders).trans (depicts.fuzzyDedup_iff told sized orders)

theorem analyze_exact (exact : E.rounding = .exact) :
    ∃ result, analyze E S T A sum2Node t = .ok result :=
  (depicts.analyze_iff told sized orders).mpr (depicts.fuzzyDedup_exact told sized orders exact)

/-- What is printed is about some result, which is what is stored. -/
theorem of_analyzed (plain : v.Plain)
    (distinct : ∀ res, fuzzyDedup E S t.heap 0 sum2Node = .ok res → A.Distinct res.heap)
    {text : Bytes} {session : DbSession Unit}
    (run : analyze E S T A sum2Node t = .ok (text, session)) :
    ∃ lines scattered,
      text = classesText lines ++ linesText (Heap.scatteredHeading :: scattered) ∧
      v.Reported lines (scattered.map bytes) ∧
      ∀ c : Sql.Connection Value, Ready c → ¬c.tables.Referenced "Node" →
        ¬Sql.Database.Referenced (c.tables.erase "Node") "EqClass" →
        ∃ c' eqClasses nodes, session.on c = (.ok (), c') ∧ c'.saved = none ∧
          c'.tables.lookup "EqClass" = some eqClasses ∧ c'.tables.lookup "Node" = some nodes ∧
          v.Tabled nodes ∧ Agree E eqClasses nodes lines (scattered.map bytes) := by
  rw [analyze, depicts.root] at run
  obtain ⟨res, dedup, run⟩ := of_bind_ok run
  obtain ⟨interesting, dirs, shown, -, reported⟩ := depicts.printed told sized orders T dedup
  rw [shown.classes, ok_bind, shown.scattered, ok_bind] at run
  obtain ⟨session', stores, run⟩ := of_bind_ok run
  cases run
  have holds := depicts.holds sum2Node orders
  obtain ⟨layout, -⟩ := fuzzyDedup_sound depicts.fresh holds dedup
  obtain ⟨full, sound⟩ := fuzzyDedup_full depicts.fresh holds (depicts.layout_sized told sized) dedup
  have distinct := distinct res dedup
  have plain := depicts.plain layout told plain
  have sub := Heap.getInteresingEqClasses_sublist shown.classes
  have several : ∀ c ∈ interesting, 2 ≤ (res.heap.eqClass c).nodes.length := fun c hc =>
    ((shown.mem c).mp hc).2.1
  refine ⟨interesting.map res.heap.printedPaths, dirs.map res.heap.buildPath, rfl, reported, ?_⟩
  intro c ready nodes eqClasses
  obtain ⟨session'', c', written, ran, idle, eqClassTable, nodeTable⟩ :=
    sound.written distinct sub.subset ready nodes eqClasses
  obtain rfl := Except.ok.inj (stores.symm.trans written)
  refine ⟨c', _, _, ran, idle, eqClassTable, nodeTable,
    depicts.tabled layout told plain distinct sound full, ?_, ?_, ?_⟩
  · exact sound.similar distinct sub several plain
  · rw [sound.similarRows distinct sub several, List.pairwise_map]
    apply ((FuzzyDedupRes.fuzzyDedup_ordered dedup).sublist sub).imp
    exact fun le => ⟨_, _, rfl, rfl, le⟩
  · rw [List.map_map]
    exact sound.scattered distinct plain _ shown.nodup shown.alone

end TreeCtor.Depicts

/-- In every run about a directory, whatever the schedule, something is printed and stored just
where the sums of the distances fit. The queries return what is printed, and the table of
nodes is right about the directory. If it could not be listed, the database stays as it was. -/
theorem directory_results {files : FileSystem} {root : Path} {n : ℕ}
    {cache : Path → Option FileInfo} {calls : List Call}
    {s : Scan files (Except Fault TreeCtor) NodeId n} (named : files.Named) (ofDir : root.OfDir)
    (plain : (files.survey root).Plain)
    (run : Scan.Run TreeCtor.processor root (.ok .start) cache calls s)
    (returned : s.pc = .returned) : ∃ t, s.processor = .ok t ∧
      ∀ (E : Env) (S T : ClassSort) (A : Addresses) (sum2Node : Sum2Node),
        sum2Node.Orders t.sum2Node →
        (∀ res, fuzzyDedup E S t.heap 0 sum2Node = .ok res → A.Distinct res.heap) →
        (files.list root = none → ∃ session, analyze E S T A sum2Node t =
            .ok (bytes "No files in specified location\n", session) ∧
          ∀ c : Sql.Connection Value, session.on c = (.ok (), c)) ∧
        ((files.list root).isSome → (files.survey root).Sized E →
          ((∃ result, analyze E S T A sum2Node t = .ok result) ↔
            Propagation.SumsFit E t.heap 0 sum2Node) ∧
          (E.rounding = .exact → ∃ result, analyze E S T A sum2Node t = .ok result) ∧
          ∀ text session, analyze E S T A sum2Node t = .ok (text, session) → ∃ lines scattered,
            text = classesText lines ++ linesText (Heap.scatteredHeading :: scattered) ∧
            (files.survey root).Reported lines (scattered.map bytes) ∧
            ∀ c : Sql.Connection Value, Ready c → ¬c.tables.Referenced "Node" →
              ¬Sql.Database.Referenced (c.tables.erase "Node") "EqClass" →
              ∃ c' eqClasses nodes, session.on c = (.ok (), c') ∧ c'.saved = none ∧
                c'.tables.lookup "EqClass" = some eqClasses ∧
                c'.tables.lookup "Node" = some nodes ∧ (files.survey root).Tabled nodes ∧
                Agree E eqClasses nodes lines (scattered.map bytes)) := by
  have scanned := run.scanned returned
  have built : Input.tree calls = s.processor := run.told.2.state
  cases listing : files.list root with
  | none =>
    rw [scanned.unlisted listing] at built
    refine ⟨.start, built.symm, fun E S T A sum2Node _ _ => ⟨fun _ => ?_, ?_⟩⟩
    · exact ⟨pure (), rfl, fun _ => rfl⟩
    · exact fun some => by simp at some
  | some names =>
    have told := scanned.told named ofDir (by simp [listing])
    obtain ⟨t, made, depicts⟩ := told.depicted
    refine ⟨t, built.symm.trans made, fun E S T A sum2Node orders distinct =>
      ⟨fun none => by simp at none, fun _ sized => ?_⟩⟩
    exact ⟨depicts.analyze_iff_fits told sized orders, depicts.analyze_exact told sized orders,
      fun text session run => depicts.of_analyzed told sized orders plain distinct run⟩

theorem Addresses.packed_distinct {h : Heap} (nodes : h.numNodes ≤ 8) (classes : h.numClasses ≤ 8) :
    Addresses.packed.Distinct h := by
  have apart : ∀ a < 8, ∀ b < 8, UInt64.ofNat (8 * a) = UInt64.ofNat (8 * b) → a = b := by decide
  have aligned : ∀ n < 8, 8 ∣ (UInt64.ofNat (8 * n)).toNat := by decide
  exact ⟨fun a b ha hb => apart a (by omega) b (by omega),
    fun c d hc hd => apart c (by omega) d (by omega), fun n hn => aligned n (by omega)⟩

theorem twinDirs_plain (info : FileInfo) : ((twinDirs info).survey ["r"]).Plain := by
  rintro path (dir | ⟨info, -, known, -⟩)
  · have here : ((twinDirs info).list path).isSome := FileSystem.Listed.isSome dir
    simp only [twinDirs] at here
    split_ifs at here with top inner
    · subst top
      decide +kernel
    · rcases inner with rfl | rfl <;> decide +kernel
    · cases here
  · simp only [twinDirs] at known
    split_ifs at known with file
    rcases file with rfl | rfl <;> decide +kernel

def twinCalls : List Call :=
  [.rootDir ["r"], .dir ["r", "a"], .dir ["r", "b"], .file ["r", "a", "x"] ⟨1, 2, 3⟩,
    .file ["r", "b", "x"] ⟨1, 2, 3⟩]

/-- A scan makes these calls, in some order. -/
theorem twinDirs_calls {calls : List Call} (told : ((twinDirs ⟨1, 2, 3⟩).survey ["r"]).Told calls) :
    calls.Perm twinCalls := by
  have root : Call.rootDir ["r"] ∈ calls := List.mem_of_head? told.first
  rw [List.perm_ext_iff_of_nodup told.nodup (by decide)]
  intro call
  cases call with
  | rootDir p =>
    constructor
    · intro hc
      obtain rfl : p = ["r"] := told.root p hc
      exact List.mem_cons_self
    · intro hc
      obtain rfl : p = ["r"] := by simpa [twinCalls] using hc
      exact root
  | dir p =>
    have listed : (twinDirs ⟨1, 2, 3⟩).Listed ["r"] p ↔ Call.Opened calls p := (told.dirs p).symm
    have member : Call.dir p ∈ twinCalls ↔ p = ["r", "a"] ∨ p = ["r", "b"] := by simp [twinCalls]
    rw [member]
    constructor
    · intro hc
      have here := (listed.mpr (Or.inr hc)).isSome
      simp only [twinDirs] at here
      split_ifs at here with top inner
      · cases told.single _ hc _ root top
      · exact inner
      · cases here
    · intro inner
      have opened : Call.Opened calls p := by
        rw [← listed]
        rcases inner with rfl | rfl <;> exact twinDirs_listed _ (by decide)
      apply opened.resolve_left
      intro hc
      obtain rfl : p = ["r"] := told.root p hc
      simp at inner
  | file p info =>
    have file : Call.file p info ∈ twinCalls ↔
        (p = ["r", "a", "x"] ∨ p = ["r", "b", "x"]) ∧ info = ⟨1, 2, 3⟩ := by
      simp [twinCalls, or_and_right]
    rw [told.files p info, file]
    constructor
    · rintro ⟨-, known, -⟩
      simp only [twinDirs] at known
      split_ifs at known with inside
      exact ⟨inside, (Option.some.inj known).symm⟩
    · rintro ⟨rfl | rfl, rfl⟩ <;> exact twinDirs_file (by decide) (by decide)

/-- In whatever order the calls are made, what comes of them is small. -/
theorem twinCalls_small : ∀ calls ∈ twinCalls.permutations',
    ¬Returns (fun t => Returns (fun res => 8 < res.heap.numNodes ∨ 8 < res.heap.numClasses)
      (fuzzyDedup (.counting 20) .insertion t.heap 0 (.ofInserted t.sum2Node)))
        (Input.tree calls) := by
  decide +kernel

/-- The equal files are in a line that is stored, or the directory of the first is. -/
theorem directory_results_twinDirs : ∃ text session c' eqClasses nodes, ∃ t sum2Node,
    analyze (.counting 20) .insertion .insertion .packed sum2Node t = .ok (text, session) ∧
      session.on ⟨∅, none, none⟩ = (.ok (), c') ∧ c'.tables.lookup "EqClass" = some eqClasses ∧
      c'.tables.lookup "Node" = some nodes ∧
      ((twinDirs ⟨1, 2, 3⟩).survey ["r"]).Tabled nodes ∧
      ∃ line ∈ Query.similar eqClasses nodes, ∃ dir, ["r"] <+: dir ∧ dir <+: ["r", "a", "x"] ∧
        bytes (Path.native dir) ∈ line := by
  obtain ⟨calls, s, run, returned⟩ := Scan.exists_returned (n := 1) (twinDirs_shallow ⟨1, 2, 3⟩)
    (Or.inl Nat.one_pos) TreeCtor.processor (.ok .start) fun _ => none
  have told := (run.scanned returned).told (twinDirs_named _) root_ofDir rfl
  have small := twinCalls_small calls (List.mem_permutations'.mpr (twinDirs_calls told))
  obtain ⟨t, built, results⟩ :=
    directory_results (twinDirs_named _) root_ofDir (twinDirs_plain _) run returned
  have made : Input.tree calls = .ok t := run.told.2.state.trans built
  have distinct : ∀ res, fuzzyDedup (.counting 20) .insertion t.heap 0 (.ofInserted t.sum2Node) =
      .ok res → Addresses.packed.Distinct res.heap := by
    intro res dedup
    rw [made] at small
    change ¬Returns _ (fuzzyDedup (.counting 20) .insertion t.heap 0 (.ofInserted t.sum2Node)) at small
    rw [dedup] at small
    obtain ⟨nodes, classes⟩ := not_or.mp small
    exact Addresses.packed_distinct (not_lt.mp nodes) (not_lt.mp classes)
  obtain ⟨-, listed⟩ := results (.counting 20) .insertion .insertion .packed _
    (Sum2Node.ofInserted_orders t.sum2Node) distinct
  obtain ⟨-, exact, stored⟩ := listed rfl fun counts => by cases counts
  obtain ⟨⟨text, session⟩, analyzed⟩ := exact rfl
  obtain ⟨lines, scattered, -, reported, stores⟩ := stored text session analyzed
  obtain ⟨c', eqClasses, nodes, ran, -, eqClassTable, nodeTable, tabled, agree⟩ :=
    stores ⟨∅, none, none⟩ ⟨rfl, rfl⟩ (by decide) (by decide)
  obtain ⟨line, member, dir, below, above, printed⟩ :=
    reported.covered ["r", "a", "x"] ["r", "b", "x"] ⟨1, 2, 3⟩ ⟨1, 2, 3⟩
      (twinDirs_file (by decide) (by decide)) (twinDirs_file (by decide) (by decide)) (by decide) rfl
  rw [← agree.similar] at member
  obtain ⟨paths, queried, rfl⟩ := List.mem_map.mp member
  exact ⟨text, session, c', eqClasses, nodes, t, _, analyzed, ran, eqClassTable, nodeTable, tabled,
    paths, queried, dir, below, above, mem_sortedPaths.mp printed⟩

end Dupa
