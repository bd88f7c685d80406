import Mathlib.Tactic.FinCases
import Dupa.DbLib
import Dupa.Uniqueness

/-!
# The results in a database

The classes and the nodes of a result are written from the list of classes and from a
traversal of the tree. What they say about each other agrees, so that no constraint of
the schema is violated (`results_dumped`).
-/

namespace Dupa

open Checked Session

def eqClassColumns : List Sql.Column :=
  [⟨"id", true, true, none⟩, ⟨"nodes", true, false, none⟩, ⟨"weight", true, false, none⟩,
    ⟨"interesting", true, false, none⟩]

def nodeColumns : List Sql.Column :=
  [⟨"id", true, true, none⟩, ⟨"name", true, false, none⟩, ⟨"path", true, false, none⟩,
    ⟨"type", true, false, none⟩, ⟨"cksum", false, false, none⟩,
    ⟨"unique_fraction", true, false, none⟩, ⟨"eq_class", true, false, some ("EqClass", "id")⟩]

def createResultsDatabase : DbSession Unit := do
  Sql.exec (.dropTableIfExists "Node")
  Sql.exec (.dropTableIfExists "EqClass")
  Sql.exec (.createTable "EqClass" eqClassColumns)
  Sql.exec (.createTable "Node" nodeColumns)

/-- The addresses of the objects on the heap, as integers. -/
structure Addresses where
  node : NodeId → UInt64
  eqClass : ClassId → UInt64

/-- `INSERT INTO EqClass(id, nodes, weight, interesting) VALUES(?, ?, ?, 0)`. -/
def insertEqClass (params : Sql.Cells Value) : List (String × Option Value) :=
  ["id", "nodes", "weight", "interesting"].zip (params ++ [some (.int 0)])

/-- `INSERT INTO Node(id, name, path, type, unique_fraction, eq_class)
VALUES(?, ?, ?, ?, ?, ?)`. -/
def insertNode (params : Sql.Cells Value) : List (String × Option Value) :=
  ["id", "name", "path", "type", "unique_fraction", "eq_class"].zip params

/-- `UPDATE EqClass SET interesting = 1 WHERE id == ?`. -/
def updateEqClass (params : Sql.Cells Value) : Sql.Statement Value :=
  .update "EqClass" "interesting" (some (.int 1)) "id" params[0]?.join

/-- `uintptr_t`, `size_t` and `double`. -/
abbrev eqClassTypes : List ColumnType := [.uint64, .uint64, .double]

abbrev nodeTypes : List ColumnType := [.uint64, .string, .string, .string, .double, .uint64]

def bytes (s : String) : Bytes := s.toUTF8.toList

namespace FuzzyDedupRes

variable (A : Addresses) (res : FuzzyDedupRes)

def eqClassTuple (c : ClassId) : Tuple eqClassTypes :=
  (A.eqClass c, .ofNat (res.heap.eqClass c).nodes.length, some (res.heap.eqClass c).weight, ())

def nodeTuple (n : NodeId) (c : ClassId) : Tuple nodeTypes :=
  (A.node n, bytes (res.heap.node n).name, bytes (res.heap.buildPath n),
    bytes (if (res.heap.node n).type = .file then "FILE" else "DIR"), res.uniqueFraction n,
    A.eqClass c, ())

/-- The rows of the nodes, in the order of the traversal. -/
def nodeTuples (root : NodeId) : Except Fault (List (Tuple nodeTypes)) :=
  (res.heap.traverse root).mapM fun n => do
    let c ← res.heap.getEqClass n
    return res.nodeTuple A n c

/-- `DumpFuzzyDedupRes`. -/
def dumpFuzzyDedupRes (nodes : List (Tuple nodeTypes)) : DbSession Unit :=
  transaction do
    let classOut ← Sql.prepare 3 fun params => .insert "EqClass" (insertEqClass params)
    let _ ← DBOutStream.writeAll eqClassTypes classOut (res.eqClasses.map (res.eqClassTuple A))
    let nodeOut ← Sql.prepare 6 fun params => .insert "Node" (insertNode params)
    let _ ← DBOutStream.writeAll nodeTypes nodeOut nodes
    return ()

end FuzzyDedupRes

def dumpInterestingEqClasses (A : Addresses) (eqClasses : List ClassId) : DbSession Unit :=
  transaction do
    let out ← Sql.prepare 1 updateEqClass
    let _ ← DBOutStream.writeAll [.uint64] out (eqClasses.map fun c => (A.eqClass c, ()))
    return ()

/-- What the program does with a result and its interesting classes. The class of every
node is looked up before anything is written. -/
def writeResults (A : Addresses) (root : NodeId) (res : FuzzyDedupRes) (interesting : List ClassId) :
    Except Fault (DbSession Unit) := do
  let nodes ← res.nodeTuples A root
  return do
    createResultsDatabase
    res.dumpFuzzyDedupRes A nodes
    dumpInterestingEqClasses A interesting

/-- Distinct live objects have distinct addresses. A `Node` has pointers and is aligned
like one. -/
structure Addresses.Distinct (A : Addresses) (h : Heap) : Prop where
  node : ∀ a b, a < h.numNodes → b < h.numNodes → A.node a = A.node b → a = b
  eqClass : ∀ c d, c < h.numClasses → d < h.numClasses → A.eqClass c = A.eqClass d → c = d
  aligned : ∀ n < h.numNodes, 8 ∣ (A.node n).toNat

theorem toInt64_inj {a b : UInt64} (h : a.toInt64 = b.toInt64) : a = b := by
  simpa using congrArg Int64.toUInt64 h

/-- There are too few addresses for a number of nodes that is no `int64_t`. -/
theorem Addresses.Distinct.length_lt {A : Addresses} {h : Heap} (distinct : A.Distinct h)
    {nodes : List NodeId} (nodup : nodes.Nodup) (inside : ∀ n ∈ nodes, n < h.numNodes) :
    nodes.length < 2 ^ 63 := by
  have injective : ∀ a ∈ nodes, ∀ b ∈ nodes,
      (A.node a).toNat / 8 = (A.node b).toNat / 8 → a = b := by
    intro a ha b hb same
    have hwa := distinct.aligned a (inside a ha)
    have hwb := distinct.aligned b (inside b hb)
    exact distinct.node a b (inside a ha) (inside b hb) (UInt64.toNat_inj.mp (by omega))
  have slots : (nodes.map fun n => (A.node n).toNat / 8) ⊆ List.range (2 ^ 61) := by
    intro slot hslot
    obtain ⟨n, -, rfl⟩ := List.mem_map.mp hslot
    have := (A.node n).toNat_lt
    exact List.mem_range.mpr (by omega)
  have few := ((nodup.map_on injective).subperm slots).length_le
  rw [List.length_map, List.length_range] at few
  omega

/-- No statement will fail for a reason of its own, and there is no transaction. -/
structure Ready (s : Sql.Connection Value) : Prop where
  calm : s.failing = none
  idle : s.saved = none

theorem createResultsDatabase_on {s : Sql.Connection Value} (ready : Ready s)
    (nodes : ¬s.tables.Referenced "Node")
    (eqClasses : ¬Sql.Database.Referenced (s.tables.erase "Node") "EqClass") :
    ∃ s', createResultsDatabase.on s = (.ok (), s') ∧ Ready s' ∧
      s'.tables.lookup "EqClass" = some ⟨eqClassColumns, []⟩ ∧
      s'.tables.lookup "Node" = some ⟨nodeColumns, []⟩ := by
  let dropped := (s.tables.erase "Node").erase "EqClass"
  let created := dropped.insert "EqClass" (⟨eqClassColumns, []⟩ : Sql.Table Value)
  have dropNode := Sql.exec_on ready.calm (Sql.apply_drop nodes)
  have dropEqClass := Sql.exec_on (c := { s with tables := s.tables.erase "Node" }) ready.calm
    (Sql.apply_drop eqClasses)
  have createEqClass := Sql.exec_on (c := { s with tables := dropped }) ready.calm
    (Sql.apply_create (AList.lookup_erase "EqClass" _) eqClassColumns)
  have absent : created.lookup "Node" = none := by
    rw [AList.lookup_insert_ne (by decide), AList.lookup_erase_ne (by decide), AList.lookup_erase]
  have createNode := Sql.exec_on (c := { s with tables := created }) ready.calm
    (Sql.apply_create absent nodeColumns)
  refine ⟨_, (on_bind dropNode).trans ((on_bind dropEqClass).trans
    ((on_bind createEqClass).trans createNode)), ⟨ready.calm, ready.idle⟩, ?_, AList.lookup_insert _⟩
  exact (AList.lookup_insert_ne (by decide)).trans (AList.lookup_insert _)

namespace FuzzyDedupRes

variable {A : Addresses} {res : FuzzyDedupRes} {E : Env} {root : NodeId} {c : ClassId} {n : NodeId}
  {db : Sql.Database Value}

/-! ## The rows -/

/-- The row of a class, `interesting` or not yet. -/
def eqClassRow (A : Addresses) (res : FuzzyDedupRes) (c : ClassId) (interesting : Bool) :
    Sql.Row Value :=
  Sql.row [("id", some (.int (A.eqClass c).toInt64)),
    ("nodes", some (.int (UInt64.ofNat (res.heap.eqClass c).nodes.length).toInt64)),
    ("weight", some (.real (res.heap.eqClass c).weight)),
    ("interesting", some (.int (if interesting then 1 else 0)))]

def eqClassTable (A : Addresses) (res : FuzzyDedupRes) (interesting : ClassId → Bool) :
    Sql.Table Value :=
  ⟨eqClassColumns, res.eqClasses.map fun c => res.eqClassRow A c (interesting c)⟩

/-- The class that a classified node points to. -/
def classOf (res : FuzzyDedupRes) (n : NodeId) : ClassId := (res.heap.node n).eqClass.getD 0

def nodeRow (A : Addresses) (res : FuzzyDedupRes) (n : NodeId) : Sql.Row Value :=
  DBOutStream.rowOf insertNode (res.nodeTuple A n (res.classOf n))

def nodeTable (A : Addresses) (res : FuzzyDedupRes) (root : NodeId) : Sql.Table Value :=
  ⟨nodeColumns, (res.heap.traverse root).map (res.nodeRow A)⟩

theorem Sound.classOf_mem (sound : res.Sound E root) (hn : n < res.heap.numNodes) :
    (res.heap.node n).eqClass = some (res.classOf n) ∧ res.classOf n ∈ res.eqClasses := by
  obtain ⟨c, hc, hnc⟩ := sound.partitioned.classified n hn
  simp [classOf, hnc, hc]

theorem Sound.nodeTuples_ok (sound : res.Sound E root) :
    res.nodeTuples A root =
      .ok ((res.heap.traverse root).map fun n => res.nodeTuple A n (res.classOf n)) := by
  apply mapM_ok
  intro n hn
  have hn := (Heap.mem_traverse sound.tree n).mp hn
  rw [Heap.getEqClass_ok (sound.classOf_mem hn).1]
  rfl

theorem Sound.eqClass_inj (sound : res.Sound E root) (distinct : A.Distinct res.heap)
    {d : ClassId} (hc : c ∈ res.eqClasses) (hd : d ∈ res.eqClasses) :
    (A.eqClass c).toInt64 = (A.eqClass d).toInt64 ↔ c = d :=
  ⟨fun same => distinct.eqClass c d (sound.known c hc) (sound.known d hd) (toInt64_inj same),
    fun same => same ▸ rfl⟩

/-- The classes meet the constraints of their table, whichever are marked. -/
theorem Sound.eqClassTable_meets (sound : res.Sound E root) (distinct : A.Distinct res.heap)
    (interesting : ClassId → Bool) (db : Sql.Database Value) :
    (res.eqClassTable A interesting).Meets db := by
  have ids : (res.eqClassTable A interesting).values "id" =
      res.eqClasses.map fun c => Value.int (A.eqClass c).toInt64 := by
    have id : ∀ c b, res.eqClassRow A c b "id" = some (.int (A.eqClass c).toInt64) := fun _ _ => rfl
    simp [Sql.Table.values, eqClassTable, List.filterMap_map, id]
  intro column hcolumn
  refine ⟨fun _ row hrow => ?_, fun unique => ?_, fun key hkey => ?_⟩
  · obtain ⟨c, -, rfl⟩ := List.mem_map.mp hrow
    fin_cases hcolumn <;> rfl
  · fin_cases hcolumn
    · exact ids ▸ sound.nodup.map_on fun c hc d hd same =>
        (sound.eqClass_inj distinct hc hd).mp (Value.int.inj same)
    all_goals simp at unique
  · fin_cases hcolumn <;> simp at hkey

/-- So do the nodes if the table of the classes is there: every fraction is a number. -/
theorem Sound.nodeTable_meets (sound : res.Sound E root) (distinct : A.Distinct res.heap)
    {interesting : ClassId → Bool}
    (here : db.lookup "EqClass" = some (res.eqClassTable A interesting)) :
    (res.nodeTable A root).Meets db := by
  have inside : ∀ n ∈ res.heap.traverse root, n < res.heap.numNodes :=
    fun n hn => (Heap.mem_traverse sound.tree n).mp hn
  have ids : (res.nodeTable A root).values "id" =
      (res.heap.traverse root).map fun n => Value.int (A.node n).toInt64 := by
    have id : ∀ n, res.nodeRow A n "id" = some (.int (A.node n).toInt64) := fun _ => rfl
    simp [Sql.Table.values, nodeTable, List.filterMap_map, id]
  intro column hcolumn
  refine ⟨fun notNull row hrow => ?_, fun unique => ?_, fun key hkey v hv => ?_⟩
  · obtain ⟨n, hn, rfl⟩ := List.mem_map.mp hrow
    have fraction : (res.uniqueFraction n).isSome :=
      (sound.fractions n (inside n hn)).isSome fun m hm => sound.partitioned.evaluated hm
    fin_cases hcolumn
    -- Only `cksum` may be NULL.
    case «4» => simp at notNull
    case «5» =>
      change ((res.uniqueFraction n).map Value.real).isSome
      simpa using fraction
    all_goals rfl
  · fin_cases hcolumn
    · exact ids ▸ (Heap.traverse_nodup sound.tree).map_on fun a ha b hb same =>
        distinct.node a b (inside a ha) (inside b hb) (toInt64_inj (Value.int.inj same))
    all_goals simp at unique
  · fin_cases hcolumn
    case «6» =>
      cases hkey
      obtain ⟨row, hrow, hv⟩ := List.mem_filterMap.mp hv
      obtain ⟨n, hn, rfl⟩ := List.mem_map.mp hrow
      have hc := (sound.classOf_mem (inside n hn)).2
      rw [Sql.Database.values, here]
      exact List.mem_filterMap.mpr ⟨_, List.mem_map_of_mem hc, hv⟩
    all_goals simp at hkey

/-! ## The runs -/

theorem Sound.dumpFuzzyDedupRes_on (sound : res.Sound E root) (distinct : A.Distinct res.heap)
    {s : Sql.Connection Value} (ready : Ready s)
    (eqClasses : s.tables.lookup "EqClass" = some ⟨eqClassColumns, []⟩)
    (nodes : s.tables.lookup "Node" = some ⟨nodeColumns, []⟩) :
    ∃ s', (res.dumpFuzzyDedupRes A ((res.heap.traverse root).map fun n =>
        res.nodeTuple A n (res.classOf n))).on s = (.ok (), s') ∧ Ready s' ∧
      s'.tables.lookup "EqClass" = some (res.eqClassTable A fun _ => false) ∧
      s'.tables.lookup "Node" = some (res.nodeTable A root) := by
  let begun : Sql.Connection Value := { s with saved := some s.tables }
  have classRows : (res.eqClasses.map (res.eqClassTuple A)).map (DBOutStream.rowOf insertEqClass) =
      (res.eqClassTable A fun _ => false).rows := List.map_map
  have nodeRows : ((res.heap.traverse root).map fun n => res.nodeTuple A n (res.classOf n)).map
      (DBOutStream.rowOf insertNode) = (res.nodeTable A root).rows := List.map_map
  have unboundClass : Unbound eqClassTypes
      ⟨fun params => .insert "EqClass" (insertEqClass params), List.replicate 3 none⟩ := rfl
  have unboundNode : Unbound nodeTypes
      ⟨fun params => .insert "Node" (insertNode params), List.replicate 6 none⟩ := rfl
  have written : ["id", "name", "path", "type", "unique_fraction", "eq_class"] ⊆
      nodeColumns.map Sql.Column.name := by decide
  obtain ⟨s₁, hclasses, calm₁, saved₁, eqClasses₁, others₁⟩ := DBOutStream.writeAll_on (c := begun)
    ready.calm unboundClass rfl eqClasses (fun _ _ hv => (List.of_mem_zip hv).1) (by decide)
    (by rw [classRows]; exact sound.eqClassTable_meets distinct _ _)
  rw [classRows] at eqClasses₁
  have eqClasses₁ : s₁.tables.lookup "EqClass" = some (res.eqClassTable A fun _ => false) := eqClasses₁
  obtain ⟨s₂, hnodes, calm₂, saved₂, nodes₂, others₂⟩ := DBOutStream.writeAll_on calm₁ unboundNode rfl
    ((others₁ "Node" (by decide)).trans nodes)
    (fun _ _ hv => written (List.of_mem_zip hv).1) (by decide)
    (by rw [nodeRows]; exact sound.nodeTable_meets distinct eqClasses₁)
  rw [nodeRows] at nodes₂
  refine ⟨{ s₂ with saved := none }, ?_, ⟨calm₂, rfl⟩,
    (others₂ "EqClass" (by decide)).trans eqClasses₁, nodes₂⟩
  refine transaction_on ready.calm ready.idle ?_ calm₂ (by rw [saved₂, saved₁]; rfl)
  exact (on_bind (Sql.prepare_on (c := begun) ready.calm _ _)).trans ((on_bind hclasses).trans
    ((on_bind (Sql.prepare_on calm₁ _ _)).trans (on_bind hnodes)))

/-- The update reaches the row of its class and no other one. -/
theorem Sound.updateRow_eqClassRow (sound : res.Sound E root) (distinct : A.Distinct res.heap)
    {d : ClassId} (hc : c ∈ res.eqClasses) (hd : d ∈ res.eqClasses) (interesting : Bool) :
    Sql.Database.updateRow "interesting" (some (.int 1)) "id" (some (.int (A.eqClass d).toInt64))
      (res.eqClassRow A c interesting) = res.eqClassRow A c (interesting || c = d) := by
  have id : res.eqClassRow A c interesting "id" = some (.int (A.eqClass c).toInt64) := rfl
  have same := sound.eqClass_inj distinct hc hd
  by_cases hcd : c = d
  · rw [Sql.Database.updateRow, if_pos ⟨rfl, id.trans (by rw [same.mpr hcd])⟩]
    funext name
    by_cases hname : name = "interesting"
    · subst hname
      simp [hcd, eqClassRow, Sql.row, List.lookup_cons]
    · rw [Function.update_of_ne hname]
      simp [eqClassRow, Sql.row, List.lookup_cons, beq_eq_false_iff_ne.mpr hname]
  · have other : ¬res.eqClassRow A c interesting "id" = some (.int (A.eqClass d).toInt64) := by
      rw [id]
      exact fun h => hcd (same.mp (Value.int.inj (Option.some.inj h)))
    rw [Sql.Database.updateRow, if_neg fun h => other h.2]
    simp [hcd]

/-- One class more is marked by one update. -/
theorem Sound.eqClassTable_mark (sound : res.Sound E root) (distinct : A.Distinct res.heap)
    (done : List ClassId) (hc : c ∈ res.eqClasses) :
    (res.eqClassTable A (· ∈ done ++ [c])).rows =
      (res.eqClassTable A (· ∈ done)).rows.map (Sql.Database.updateRow "interesting"
        (some (.int 1)) "id" (some (.int (A.eqClass c).toInt64))) := by
  rw [eqClassTable, eqClassTable, List.map_map]
  apply List.map_congr_left
  intro b hb
  rw [Function.comp_apply, sound.updateRow_eqClassRow distinct hb hc]
  simp

theorem Sound.dumpInterestingEqClasses_on (sound : res.Sound E root)
    (distinct : A.Distinct res.heap) {interesting : List ClassId}
    (listed : interesting ⊆ res.eqClasses) {s : Sql.Connection Value} (ready : Ready s)
    (eqClasses : s.tables.lookup "EqClass" = some (res.eqClassTable A fun _ => false)) :
    ∃ s', (dumpInterestingEqClasses A interesting).on s = (.ok (), s') ∧ Ready s' ∧
      s'.tables.lookup "EqClass" = some (res.eqClassTable A (· ∈ interesting)) ∧
      ∀ other ≠ "EqClass", s'.tables.lookup other = s.tables.lookup other := by
  let begun : Sql.Connection Value := { s with saved := some s.tables }
  let out : Sql.Prepared Value := ⟨updateEqClass, List.replicate 1 none⟩
  have unbound : Unbound [.uint64] out := rfl
  have known : "interesting" ∈ eqClassColumns.map Sql.Column.name ∧
      "id" ∈ eqClassColumns.map Sql.Column.name := by decide
  have noKey : ∀ column ∈ eqClassColumns, column.unique → column.name ≠ "interesting" := by decide
  have elsewhere : ∀ column ∈ eqClassColumns, ∀ key ∈ column.references, key.1 ≠ "EqClass" := by
    decide
  obtain ⟨out', s', hrun, rfl, calm, saved, here, others⟩ := on_foldlM (b := out) (s := begun)
    (f := fun out c => DBOutStream.write [.uint64] out (A.eqClass c, ())) (l := interesting)
    (I := fun done out' d => out' = out ∧ d.failing = none ∧ d.saved = some s.tables ∧
      d.tables.lookup "EqClass" = some (res.eqClassTable A (· ∈ done)) ∧
      ∀ other ≠ "EqClass", d.tables.lookup other = s.tables.lookup other) (by
        rintro done c rest _ d split ⟨rfl, calm, saved, here, others⟩
        have hc : c ∈ res.eqClasses := listed (by simp [split])
        have hexec := Sql.update_on calm here known noKey elsewhere
          (congrArg (Sql.Table.mk eqClassColumns) (sound.eqClassTable_mark distinct done hc))
          (sound.eqClassTable_meets distinct (· ∈ done ++ [c]) d.tables)
        refine ⟨out, _, DBOutStream.write_on unbound hexec, rfl, calm, saved, AList.lookup_insert _,
          fun other ho => ?_⟩
        rw [AList.lookup_insert_ne ho, others other ho])
    ⟨rfl, ready.calm, rfl, by simpa using eqClasses, fun _ _ => rfl⟩
  refine ⟨{ s' with saved := none }, ?_, ⟨calm, rfl⟩, here, others⟩
  refine transaction_on ready.calm ready.idle ?_ calm (by rw [saved]; rfl)
  apply (on_bind (Sql.prepare_on (c := begun) ready.calm _ _)).trans
  rw [DBOutStream.writeAll, List.foldlM_map]
  exact on_bind hrun

/-- As many rows of nodes refer to a class as it has members. -/
theorem Sound.countP_nodeTable (sound : res.Sound E root) (distinct : A.Distinct res.heap)
    (hc : c ∈ res.eqClasses) :
    (res.nodeTable A root).rows.countP
        (fun row => row "eq_class" = some (.int (A.eqClass c).toInt64)) =
      (res.heap.eqClass c).nodes.length := by
  have refers : ∀ n ∈ res.heap.traverse root,
      (res.nodeRow A n "eq_class" = some (.int (A.eqClass c).toInt64) ↔ res.classOf n = c) := by
    intro n hn
    have hn := (Heap.mem_traverse sound.tree n).mp hn
    have cell : res.nodeRow A n "eq_class" = some (.int (A.eqClass (res.classOf n)).toInt64) := rfl
    rw [cell, Option.some.injEq, Value.int.injEq, sound.eqClass_inj distinct (sound.classOf_mem hn).2 hc]
  have members : ((res.heap.traverse root).filter fun n => res.classOf n = c).Perm
      (res.heap.eqClass c).nodes := by
    rw [List.perm_ext_iff_of_nodup ((Heap.traverse_nodup sound.tree).filter _)
      (sound.partitioned.nodes_nodup c hc)]
    intro n
    rw [List.mem_filter, Heap.mem_traverse sound.tree, sound.partitioned.member c hc, decide_eq_true_eq]
    apply and_congr_right
    intro hn
    rw [(sound.classOf_mem hn).1, Option.some.injEq]
  rw [nodeTable, List.countP_map, ← members.length_eq, ← List.countP_eq_length_filter]
  apply List.countP_congr
  intro n hn
  simp [refers n hn]

end FuzzyDedupRes

/-- The tables say what the result says: a row for each class, with the number of rows
of nodes that refer to it, and a row for each node. -/
structure Dumped (A : Addresses) (res : FuzzyDedupRes) (interesting : List ClassId)
    (eqClasses nodes : Sql.Table Value) (db : Sql.Database Value) : Prop where
  eqClassTable : db.lookup "EqClass" = some eqClasses ∧ eqClasses.columns = eqClassColumns
  nodeTable : db.lookup "Node" = some nodes ∧ nodes.columns = nodeColumns
  meets : eqClasses.Meets db ∧ nodes.Meets db
  eqClassRows : res.eqClasses.Nodup ∧ List.Forall₂ (fun c row =>
    row "id" = some (.int (A.eqClass c).toInt64) ∧
    (∃ k : Int64, row "nodes" = some (.int k) ∧
      k.toInt = nodes.rows.countP fun node => node "eq_class" = row "id") ∧
    row "weight" = some (.real (res.heap.eqClass c).weight) ∧
    row "interesting" = some (.int (if c ∈ interesting then 1 else 0))) res.eqClasses eqClasses.rows
  nodeRows : ∃ visited : List NodeId, visited.Nodup ∧ (∀ n, n ∈ visited ↔ n < res.heap.numNodes) ∧
    List.Forall₂ (fun n row =>
      row "id" = some (.int (A.node n).toInt64) ∧
      (∃ x, res.uniqueFraction n = some x ∧ row "unique_fraction" = some (.real x)) ∧
      ∃ c ∈ res.eqClasses, (res.heap.node n).eqClass = some c ∧
        row "eq_class" = some (.int (A.eqClass c).toInt64)) visited nodes.rows

theorem FuzzyDedupRes.Sound.dumped {A : Addresses} {res : FuzzyDedupRes} {E : Env} {root : NodeId}
    (sound : res.Sound E root) (distinct : A.Distinct res.heap) {interesting : List ClassId}
    {db : Sql.Database Value}
    (eqClasses : db.lookup "EqClass" = some (res.eqClassTable A (· ∈ interesting)))
    (nodes : db.lookup "Node" = some (res.nodeTable A root)) :
    Dumped A res interesting (res.eqClassTable A (· ∈ interesting)) (res.nodeTable A root) db where
  eqClassTable := ⟨eqClasses, rfl⟩
  nodeTable := ⟨nodes, rfl⟩
  meets := ⟨sound.eqClassTable_meets distinct _ db, sound.nodeTable_meets distinct eqClasses⟩
  eqClassRows := by
    refine ⟨sound.nodup, List.forall₂_map_right_iff.mpr (List.forall₂_same.mpr fun c hc => ?_)⟩
    have few : (res.heap.eqClass c).nodes.length < 2 ^ 63 :=
      distinct.length_lt (sound.partitioned.nodes_nodup c hc) fun n hn =>
        ((sound.partitioned.member c hc n).mp hn).1
    refine ⟨rfl, ⟨_, rfl, ?_⟩, rfl, by simp [eqClassRow, Sql.row, List.lookup_cons]⟩
    change _ = (((nodeTable A res root).rows.countP
      (fun row => row "eq_class" = some (.int (A.eqClass c).toInt64)) : ℕ) : ℤ)
    rw [sound.countP_nodeTable distinct hc, UInt64.toInt64_ofNat', Int64.toInt_ofNat_of_lt few]
  nodeRows := by
    refine ⟨res.heap.traverse root, Heap.traverse_nodup sound.tree, Heap.mem_traverse sound.tree,
      List.forall₂_map_right_iff.mpr (List.forall₂_same.mpr fun n hn => ?_)⟩
    have hn := (Heap.mem_traverse sound.tree n).mp hn
    have fraction := (sound.fractions n hn).isSome fun m hm => sound.partitioned.evaluated hm
    obtain ⟨x, hx⟩ := Option.isSome_iff_exists.mp fraction
    have cell : res.nodeRow A n "unique_fraction" = (res.uniqueFraction n).map Value.real := rfl
    exact ⟨rfl, ⟨x, hx, by rw [cell, hx]; rfl⟩, res.classOf n, (sound.classOf_mem hn).2,
      (sound.classOf_mem hn).1, rfl⟩

/-- Every result is dumped without a violated constraint, and the tables agree with it
and with each other. -/
theorem results_dumped (E : Env) (S : ClassSort) {cksum : NodeId → Cksum} {h : Heap} {root : NodeId}
    {sum2Node : Sum2Node} (fresh : h.Fresh root) (holds : sum2Node.Holds h.layout cksum)
    {res : FuzzyDedupRes} (run : fuzzyDedup E S h root sum2Node = .ok res) (A : Addresses)
    (distinct : A.Distinct res.heap) {s : Sql.Connection Value} (ready : Ready s)
    (nodes : ¬s.tables.Referenced "Node")
    (eqClasses : ¬Sql.Database.Referenced (s.tables.erase "Node") "EqClass") :
    ∃ interesting session s' eqClasses nodes,
      res.heap.getInteresingEqClasses res.eqClasses = .ok interesting ∧
      writeResults A root res interesting = .ok session ∧ session.on s = (.ok (), s') ∧
      s'.saved = none ∧ Dumped A res interesting eqClasses nodes s'.tables := by
  obtain ⟨-, sound⟩ := fuzzyDedup_sound fresh holds run
  obtain ⟨interesting, returned, mem⟩ :=
    Heap.getInteresingEqClasses_ok sound.tree sound.partitioned (List.Subset.refl _)
  obtain ⟨s₁, hcreate, ready₁, eqClasses₁, nodes₁⟩ := createResultsDatabase_on ready nodes eqClasses
  obtain ⟨s₂, hdump, ready₂, eqClasses₂, nodes₂⟩ :=
    sound.dumpFuzzyDedupRes_on distinct ready₁ eqClasses₁ nodes₁
  obtain ⟨s₃, hmark, ready₃, eqClasses₃, others⟩ := sound.dumpInterestingEqClasses_on distinct
    (fun c hc => ((mem c).mp hc).1) ready₂ eqClasses₂
  have dumped := sound.dumped distinct eqClasses₃ ((others "Node" (by decide)).trans nodes₂)
  have written : writeResults A root res interesting = .ok (do
      createResultsDatabase
      res.dumpFuzzyDedupRes A ((res.heap.traverse root).map fun n =>
        res.nodeTuple A n (res.classOf n))
      dumpInterestingEqClasses A interesting) := by
    rw [writeResults, sound.nodeTuples_ok, ok_bind]
    rfl
  exact ⟨interesting, _, s₃, _, _, returned, written,
    (on_bind hcreate).trans ((on_bind hdump).trans hmark), ready₃.idle, dumped⟩

/-- Objects of eight bytes, one after the other. -/
def Addresses.packed : Addresses where
  node n := .ofNat (8 * n)
  eqClass c := .ofNat (8 * c)

theorem results_dumped_twins :
    ∃ res interesting session s' eqClasses nodes,
      fuzzyDedup (.counting 10) .insertion (.ofEntries twins) 0 twinSums = .ok res ∧
      res.heap.getInteresingEqClasses res.eqClasses = .ok interesting ∧
      writeResults .packed 0 res interesting = .ok session ∧
      session.on ⟨∅, none, none⟩ = (.ok (), s') ∧
      Dumped .packed res interesting eqClasses nodes s'.tables := by
  have small : Returns (fun res => res.heap.numNodes ≤ 6 ∧ res.heap.numClasses ≤ 8)
      (fuzzyDedup (.counting 10) .insertion (.ofEntries twins) 0 twinSums) := by decide +kernel
  obtain ⟨res, run⟩ := fuzzyDedup_exact .insertion rfl twins_fresh twins_holds
    (Env.counting_sized 10 _)
  rw [run] at small
  have apart : ∀ a < 8, ∀ b < 8, UInt64.ofNat (8 * a) = UInt64.ofNat (8 * b) → a = b := by decide
  have aligned : ∀ n < 8, 8 ∣ (UInt64.ofNat (8 * n)).toNat := by decide
  have nodes : res.heap.numNodes ≤ 6 := small.1
  have classes : res.heap.numClasses ≤ 8 := small.2
  have distinct : Addresses.packed.Distinct res.heap :=
    ⟨fun a b ha hb => apart a (by omega) b (by omega), fun c d hc hd => apart c (by omega) d (by omega),
      fun n hn => aligned n (by omega)⟩
  obtain ⟨interesting, session, s', eqClasses, nodes, returned, written, done, -, dumped⟩ :=
    results_dumped (.counting 10) .insertion twins_fresh twins_holds run .packed distinct
      (s := ⟨∅, none, none⟩) ⟨rfl, rfl⟩ (by decide) (by decide)
  exact ⟨res, interesting, session, s', eqClasses, nodes, run, returned, written, done, dumped⟩

end Dupa
