import Mathlib.Tactic.FinCases
import Dupa.DbLib
import Dupa.Library.Assoc
import Dupa.Path

/-!
# A stored cache

`StoreCksums` puts the cache into a table, whatever the database held before, and
`ReadCacheFromDb` gets the same map out of it (`stored_cache_read`).
-/

namespace Dupa

open Checked Session

/-- The map from paths, in the order it is iterated. A path has no zeros. -/
structure CacheMap where
  entries : List (Bytes × FileInfo)
  distinct : (entries.map Prod.fst).Nodup
  plain : ∀ file ∈ entries, 0 ∉ file.1

def CacheMap.lookup (cache : CacheMap) (path : Bytes) : Option FileInfo := cache.entries.lookup path

def fileListColumns : List Sql.Column :=
  [⟨"path", true, true, none⟩, ⟨"cksum", true, false, none⟩, ⟨"size", true, false, none⟩,
    ⟨"mtime", true, false, none⟩]

/-- `std::string`, `Cksum`, `off_t` and `time_t`. -/
abbrev fileListTypes : List ColumnType := [.string, .uint64, .int64, .int64]

def createOrEmptyTable : DbSession Unit := do
  Sql.exec (.dropTableIfExists "FileList")
  Sql.exec (.createTable "FileList" fileListColumns)

def insertFileList (params : Sql.Cells Value) : List (String × Option Value) :=
  ["path", "cksum", "size", "mtime"].zip params

def fileTuple (file : Bytes × FileInfo) : Tuple fileListTypes :=
  (file.1, file.2.sum, file.2.size, file.2.mtime, ())

/-- `StoreCksums`, with `db_` set. -/
def storeCksums (entries : List (Bytes × FileInfo)) : DbSession Unit := do
  createOrEmptyTable
  transaction do
    let out ← Sql.prepare 4 fun params => .insert "FileList" (insertFileList params)
    let _ ← DBOutStream.writeAll fileListTypes out (entries.map fileTuple)
    return ()

/-- The loop over `SELECT path, cksum, size, mtime FROM FileList`. -/
def forEachFile {σ : Type} (S : Sqlite) (fuel : ℕ) (db : Sql.Database Value)
    (body : σ → Tuple fileListTypes → σ) (acc : σ) : Except DbFault σ :=
  match db.select ["path", "cksum", "size", "mtime"] "FileList" S.order with
  | .ok rows => forEach S fileListTypes fuel rows body acc
  | .error e => .error (.sql e)

def readFile (cache : Bytes → Option FileInfo) (row : Tuple fileListTypes) :
    Bytes → Option FileInfo :=
  match row with
  | (path, sum, size, mtime, _) => Assoc.insertNew cache (path, ⟨size, mtime, sum⟩)

/-- `ReadCacheFromDb`, with less than `fuel` turns of its loop. -/
def readCacheFromDb (S : Sqlite) (fuel : ℕ) (db : Sql.Database Value) :
    Except DbFault (Bytes → Option FileInfo) :=
  forEachFile S fuel db readFile fun _ => none

variable {cache : CacheMap} {c c' : Sql.Connection Value}

/-- The rows of the table that holds the cache. -/
def fileRows (entries : List (Bytes × FileInfo)) : List (Sql.Row Value) :=
  (entries.map fileTuple).map (DBOutStream.rowOf insertFileList)

/-! ## Storing -/

theorem of_storeCksums {entries : List (Bytes × FileInfo)}
    (h : (storeCksums entries).on c = (.ok (), c')) :
    c'.tables.lookup "FileList" = some ⟨fileListColumns, fileRows entries⟩ ∧ c'.saved = none := by
  obtain ⟨_, c₁, htable, h⟩ := of_on_bind h
  obtain ⟨_, c₂, -, hcreate⟩ := of_on_bind htable
  obtain ⟨d, d', hd, hbody, tables, saved⟩ := of_transaction h
  obtain ⟨out, d₁, hprepare, hbody⟩ := of_on_bind hbody
  obtain ⟨out', d₂, hwrite, hbody⟩ := of_on_bind hbody
  cases hbody
  obtain ⟨rfl, prepared, -⟩ := Sql.of_prepare hprepare
  have empty : d₁.tables.lookup "FileList" = some ⟨fileListColumns, []⟩ := by
    rw [prepared, hd, Sql.of_exec_create hcreate, AList.lookup_insert]
  have unbound : Unbound fileListTypes ⟨fun params => .insert "FileList" (insertFileList params),
      List.replicate 4 none⟩ := rfl
  exact ⟨tables ▸ DBOutStream.of_writeAll unbound rfl empty hwrite, saved⟩

/-- Every column of a row has a value, and no two rows have the same path. -/
theorem fileRows_meet (cache : CacheMap) (db : Sql.Database Value) :
    Sql.Table.Meets ⟨fileListColumns, fileRows cache.entries⟩ db := by
  have path : ∀ file : Bytes × FileInfo,
      DBOutStream.rowOf insertFileList (fileTuple file) "path" = some (.text (strncpy file.1)) :=
    fun _ => rfl
  have paths : Sql.Table.values ⟨fileListColumns, fileRows cache.entries⟩ "path" =
      cache.entries.map fun file => Value.text (strncpy file.1) := by
    simp [Sql.Table.values, fileRows, List.filterMap_map, Function.comp_def, path]
  have distinct : (cache.entries.map fun file => Value.text (strncpy file.1)).Nodup := by
    have same : (cache.entries.map fun file => Value.text (strncpy file.1)) =
        (cache.entries.map Prod.fst).map Value.text := by
      rw [List.map_map]
      apply List.map_congr_left
      intro file hfile
      rw [strncpy_of_plain (cache.plain file hfile)]
      rfl
    rw [same]
    exact cache.distinct.map fun _ _ => Value.text.inj
  intro column hcolumn
  refine ⟨fun _ row hrow => ?_, fun unique => ?_, fun key hkey => ?_⟩
  · simp only [fileRows, List.map_map, List.mem_map, Function.comp_apply] at hrow
    obtain ⟨file, -, rfl⟩ := hrow
    fin_cases hcolumn <;> rfl
  · fin_cases hcolumn
    · exact paths ▸ distinct
    all_goals simp at unique
  · fin_cases hcolumn <;> simp at hkey

/-- The database with an empty table for the cache. -/
def emptied (db : Sql.Database Value) : Sql.Database Value :=
  (db.erase "FileList").insert "FileList" ⟨fileListColumns, []⟩

/-- What `StoreCksums` does in its transaction. -/
theorem insertAll_takes (cache : CacheMap) {d : Sql.Connection Value}
    (here : d.tables.lookup "FileList" = some ⟨fileListColumns, []⟩) :
    ∃ d', Sql.Takes (do
        let out ← Sql.prepare 4 fun params => .insert "FileList" (insertFileList params)
        let _ ← DBOutStream.writeAll fileListTypes out (cache.entries.map fileTuple)
        return ()) d (cache.entries.length + 1) () d' ∧
      d'.tables.lookup "FileList" = some ⟨fileListColumns, fileRows cache.entries⟩ := by
  let out : Sql.Prepared Value :=
    ⟨fun params => .insert "FileList" (insertFileList params), List.replicate 4 none⟩
  have known : ∀ args : Tuple fileListTypes, ∀ v ∈ insertFileList (Tuple.cells fileListTypes args),
      v.1 ∈ fileListColumns.map Sql.Column.name := fun _ _ hv => (List.of_mem_zip hv).1
  have elsewhere : ∀ column ∈ fileListColumns, ∀ key ∈ column.references, key.1 ≠ "FileList" := by
    decide
  have unbound : Unbound fileListTypes out := rfl
  obtain ⟨d', written, held, -⟩ := DBOutStream.writeAll_takes unbound rfl here known elsewhere
    (fileRows_meet cache d.tables)
  have takes := (Sql.Takes.prepare 4 out.statement d).bind
    (f := fun out => do
      let _ ← DBOutStream.writeAll fileListTypes out (cache.entries.map fileTuple)
      return ())
    (written.bind (f := fun _ => pure ()) (.pure () d'))
  rw [List.length_map, Nat.add_zero, Nat.add_comm] at takes
  exact ⟨d', takes, held⟩

theorem createOrEmptyTable_takes (free : ¬c.tables.Referenced "FileList") :
    Sql.Takes createOrEmptyTable c 2 () { c with tables := emptied c.tables } := by
  let dropped : Sql.Connection Value := { c with tables := c.tables.erase "FileList" }
  have creates := Sql.apply_create (c := dropped) (AList.lookup_erase "FileList" c.tables)
    fileListColumns
  exact (Sql.Takes.exec (Sql.apply_drop free) rfl).bind
    (f := fun _ => Sql.exec (.createTable "FileList" fileListColumns)) (.exec creates rfl)

theorem storeCksums_done (cache : CacheMap) (idle : c.saved = none)
    (free : ¬c.tables.Referenced "FileList") (left : Option ℕ) :
    ∃ c', (storeCksums cache.entries).on
        { c with failing := left.map (· + (cache.entries.length + 5)) } = (.ok (), c') ∧
      c'.tables.lookup "FileList" = some ⟨fileListColumns, fileRows cache.entries⟩ ∧
      c'.saved = none := by
  let begun : Sql.Connection Value :=
    { c with tables := emptied c.tables, saved := some (emptied c.tables) }
  obtain ⟨d, takes, held⟩ := insertAll_takes cache (d := begun) (AList.lookup_insert _)
  have turns : left.map (· + (cache.entries.length + 5)) =
      (left.map (· + (cache.entries.length + 1 + 2))).map (· + 2) := by
    cases left <;> rfl
  rw [turns, storeCksums, on_bind ((createOrEmptyTable_takes free).done _)]
  exact ⟨_, transaction_done (c := { c with tables := emptied c.tables }) idle takes left, held, rfl⟩

theorem storeCksums_on (calm : c.failing = none) (idle : c.saved = none)
    (free : ¬c.tables.Referenced "FileList") :
    ∃ c', (storeCksums cache.entries).on c = (.ok (), c') := by
  obtain ⟨c', stored, -⟩ := storeCksums_done cache idle free none
  rw [Option.map_none, ← calm] at stored
  exact ⟨c', stored⟩

/-! ## Reading -/

/-- Each row is delivered once, in some order, whatever is done with it. -/
theorem forEachFile_ok (S : Sqlite) (cache : CacheMap) {db : Sql.Database Value}
    (here : db.lookup "FileList" = some ⟨fileListColumns, fileRows cache.entries⟩) :
    ∃ delivered : List (Bytes × FileInfo), delivered.Perm cache.entries ∧
      ∀ {σ : Type} (body : σ → Tuple fileListTypes → σ) (acc : σ) (fuel : ℕ),
        cache.entries.length < fuel →
        forEachFile S fuel db body acc = .ok ((delivered.map fileTuple).foldl body acc) := by
  let cells (row : Sql.Row Value) : Sql.Cells Value := ["path", "cksum", "size", "mtime"].map row
  have selected : db.select ["path", "cksum", "size", "mtime"] "FileList" S.order =
      .ok ((S.order (fileRows cache.entries)).map cells) := by
    have known : ∀ name ∈ ["path", "cksum", "size", "mtime"],
        name ∈ fileListColumns.map Sql.Column.name := by decide
    rw [Sql.Database.select, Sql.Database.find_ok here, ok_bind, ensure_bind known]
    rfl
  have unpacked : List.Forall₂
      (fun row file => unpackImpl S (cells row) 0 fileListTypes = .ok (fileTuple file))
      (fileRows cache.entries) cache.entries := by
    rw [fileRows, List.map_map, List.forall₂_map_left_iff, List.forall₂_same]
    intro file hfile
    have plain : Tuple.Plain fileListTypes (fileTuple file) :=
      ⟨cache.plain file hfile, trivial, trivial, trivial, trivial⟩
    exact unpackImpl_bound S plain
  obtain ⟨delivered, arranged, perm⟩ := List.perm_comp_forall₂ (S.order_perm _) unpacked
  refine ⟨delivered, perm, fun body acc fuel enough => ?_⟩
  rw [forEachFile, selected]
  refine forEach_ok body ?_ (by simpa [perm.length_eq] using enough) acc
  rwa [List.forall₂_map_left_iff, List.forall₂_map_right_iff]

theorem readCacheFromDb_ok (S : Sqlite) (cache : CacheMap) {db : Sql.Database Value}
    (here : db.lookup "FileList" = some ⟨fileListColumns, fileRows cache.entries⟩) {fuel : ℕ}
    (enough : cache.entries.length < fuel) : readCacheFromDb S fuel db = .ok cache.lookup := by
  obtain ⟨delivered, perm, each⟩ := forEachFile_ok S cache here
  rw [readCacheFromDb, each _ _ fuel enough, List.foldl_map]
  have insert : (fun cache file => readFile cache (fileTuple file)) = Assoc.insertNew := rfl
  rw [insert, Assoc.foldl_insertNew]
  refine congrArg _ (funext fun path => ?_)
  rw [Option.none_or, Assoc.lookup_perm cache.distinct perm]
  rfl

/-- Nothing keeps the cache from being stored, except a failure of the database or a
foreign key of another table; and once it is stored it is read back, from rows that
are each delivered once. -/
theorem stored_cache_read (S : Sqlite) (cache : CacheMap) (c : Sql.Connection Value) :
    (c.failing = none → c.saved = none → ¬c.tables.Referenced "FileList" →
      ∃ c', (storeCksums cache.entries).on c = (.ok (), c')) ∧
    ∀ c', (storeCksums cache.entries).on c = (.ok (), c') → c'.saved = none ∧
      (∀ fuel, cache.entries.length < fuel →
        readCacheFromDb S fuel c'.tables = .ok cache.lookup) ∧
      ∃ delivered : List (Bytes × FileInfo), delivered.Perm cache.entries ∧
        ∀ {σ : Type} (body : σ → Tuple fileListTypes → σ) (acc : σ) (fuel : ℕ),
          cache.entries.length < fuel →
          forEachFile S fuel c'.tables body acc =
            .ok ((delivered.map fileTuple).foldl body acc) := by
  refine ⟨storeCksums_on, fun c' h => ?_⟩
  obtain ⟨here, saved⟩ := of_storeCksums h
  exact ⟨saved, fun fuel enough => readCacheFromDb_ok S cache here enough,
    forEachFile_ok S cache here⟩

/-- Reads of another type yield nothing, and the last row comes first. -/
def Sqlite.lastFirst : Sqlite where
  columnInt64
    | some (.int n) => n
    | _ => 0
  columnDouble
    | some (.real x) => x
    | _ => 0
  columnText
    | some (.text bytes) => some bytes
    | _ => none
  order := List.reverse
  columnInt64_int := fun _ => rfl
  columnDouble_real := fun _ => rfl
  columnText_text := fun _ => rfl
  order_perm := List.reverse_perm

/-- `a` with the checksum of all bits, and `b` with a negative `mtime`. -/
def twoFiles : CacheMap where
  entries := [([97], ⟨1, 2, 0xffffffffffffffff⟩), ([98], ⟨3, -4, 5⟩)]
  distinct := by decide
  plain := by decide

/-- The database has another `FileList`, with one row. -/
def anotherFileList : Sql.Connection Value where
  tables := AList.singleton "FileList" ⟨[⟨"file", true, true, none⟩], [fun _ => some (.int 0)]⟩
  saved := none
  failing := none

theorem stored_cache_read_twoFiles :
    ∃ c', (storeCksums twoFiles.entries).on anotherFileList = (.ok (), c') ∧
      readCacheFromDb .lastFirst 3 c'.tables = .ok twoFiles.lookup := by
  obtain ⟨stored, read⟩ := stored_cache_read .lastFirst twoFiles anotherFileList
  obtain ⟨c', h⟩ := stored rfl rfl (by decide)
  exact ⟨c', h, (read c' h).2.1 3 (by decide)⟩

end Dupa
