import Mathlib.Data.List.Lex
import Dupa.DbOutput
import Dupa.DirCompare
import Dupa.Library.Script

/-!
# A comparison in a database

What `DirCompare` reports is printed, and if there is a database also written to six
tables, in one transaction that begins before the tables are dropped.
-/

namespace Dupa

open Checked Session

/-- As unsigned `char`s are compared. -/
instance unsignedChar : LinearOrder UInt8 where
  le_refl := UInt8.le_refl
  le_trans _ _ _ := UInt8.le_trans
  le_antisymm _ _ := UInt8.le_antisymm
  le_total := UInt8.le_total
  lt_iff_le_not_ge a b := by simp [UInt8.lt_iff_toNat_lt, UInt8.le_iff_toNat_le]; omega
  toDecidableLE := inferInstance

/-! ## What is printed -/

/-- `operator<<` for `Paths`. -/
def pathsText (p : List Bytes) : Bytes := bytes "[" ++ (bytes " ").intercalate p ++ bytes "]"

/-- What a `PrintingOutputStream` writes to the standard output. -/
def printingOutputStream : Event Bytes → Bytes
  | .overwrittenBy f candidates =>
    bytes "OVERWRITTEN_BY: " ++ f ++ bytes " CANDIDATES: " ++ pathsText candidates ++ bytes "\n"
  | .copiedFrom f candidates =>
    bytes "COPIED_FROM: " ++ f ++ bytes " CANDIDATES: " ++ pathsText candidates ++ bytes "\n"
  | .renameTo f candidates =>
    bytes "RENAME_TO: " ++ f ++ bytes " CANDIDATES: " ++ pathsText candidates ++ bytes "\n"
  | .contentChanged f => bytes "CONTENT_CHANGED: " ++ f ++ bytes "\n"
  | .removed f => bytes "REMOVED: " ++ f ++ bytes "\n"
  | .newFile f => bytes "NEW_FILE: " ++ f ++ bytes "\n"

/-! ## What is written -/

def pathColumns : List Sql.Column := [⟨"path", true, true, none⟩]

def candidateColumns (candidate : String) : List Sql.Column :=
  [⟨"path", true, false, none⟩, ⟨candidate, true, false, none⟩]

/-- The tables of a comparison, in the order they are dropped and created. -/
def compareTables : List (String × List Sql.Column) :=
  [("Removed", pathColumns), ("NewFile", pathColumns), ("ContentChanged", pathColumns),
    ("OverwrittenBy", candidateColumns "candidate_by"),
    ("CopiedFrom", candidateColumns "candidate_from"),
    ("RenameTo", candidateColumns "candidate_to")]

def compareSchema : List (Sql.Statement Value) :=
  compareTables.map (fun t => .dropTableIfExists t.1) ++
    compareTables.map fun t => .createTable t.1 t.2

structure DirCompDBStream where
  removed : Sql.Prepared Value
  newFile : Sql.Prepared Value
  contentChanged : Sql.Prepared Value
  overwrittenBy : Sql.Prepared Value
  copiedFrom : Sql.Prepared Value
  renameTo : Sql.Prepared Value

namespace DirCompDBStream

/-- `INSERT INTO table(names) VALUES(?, ...)`. -/
def insertInto (table : String) (names : List String) (params : Sql.Cells Value) :
    Sql.Statement Value :=
  .insert table (names.zip params)

/-- The constructor, after the transaction has begun. -/
def new : DbSession DirCompDBStream := do
  Sql.execAll compareSchema
  let removed ← Sql.prepare 1 (insertInto "Removed" ["path"])
  let newFile ← Sql.prepare 1 (insertInto "NewFile" ["path"])
  let contentChanged ← Sql.prepare 1 (insertInto "ContentChanged" ["path"])
  let overwrittenBy ← Sql.prepare 2 (insertInto "OverwrittenBy" ["path", "candidate_by"])
  let copiedFrom ← Sql.prepare 2 (insertInto "CopiedFrom" ["path", "candidate_from"])
  let renameTo ← Sql.prepare 2 (insertInto "RenameTo" ["path", "candidate_to"])
  return ⟨removed, newFile, contentChanged, overwrittenBy, copiedFrom, renameTo⟩

/-- `DBOutStream<std::string, std::string>::Write` for every candidate. -/
def writeCandidates (out : Sql.Prepared Value) (f : Bytes) (candidates : List Bytes) :
    DbSession (Sql.Prepared Value) :=
  DBOutStream.writeAll [.string, .string] out (candidates.map fun c => (f, c, ()))

/-- The methods of a `CompareOutputStream`. -/
def call (s : DirCompDBStream) : Event Bytes → DbSession DirCompDBStream
  | .overwrittenBy f candidates => do
    let out ← writeCandidates s.overwrittenBy f candidates
    return { s with overwrittenBy := out }
  | .copiedFrom f candidates => do
    let out ← writeCandidates s.copiedFrom f candidates
    return { s with copiedFrom := out }
  | .renameTo f candidates => do
    let out ← writeCandidates s.renameTo f candidates
    return { s with renameTo := out }
  | .contentChanged f => do
    let out ← DBOutStream.write [.string] s.contentChanged (f, ())
    return { s with contentChanged := out }
  | .removed f => do
    let out ← DBOutStream.write [.string] s.removed (f, ())
    return { s with removed := out }
  | .newFile f => do
    let out ← DBOutStream.write [.string] s.newFile (f, ())
    return { s with newFile := out }

end DirCompDBStream

/-! ## A comparison -/

/-- What the program has written to the standard output, and its database. -/
abbrev Console := Bytes × Sql.Connection Value

def print (text : Bytes) : Session Sql.Error Console Unit := fun s => (.ok (), (s.1 ++ text, s.2))

/-- `CompareOutputStreams` with the stream that prints, and the one of the database if
there is one. -/
def compareOutputStreams (db : Option DirCompDBStream) (e : Event Bytes) :
    Session Sql.Error Console (Option DirCompDBStream) := do
  print (printingOutputStream e)
  match db with
  | some s => do
    let s ← Focus.second.run (s.call e)
    return some s
  | none => return none

/-- What `main` does with two directories, once they have been scanned. `DirCompDBStream`
has a `DBTransaction`, which its constructor begins and its `Commit` ends. -/
def compareDirs (sqlOut skipRenames : Bool) (hashes1 hashes2 : PathHashes Bytes) :
    Session Sql.Error Console Unit :=
  let events := dirCompare skipRenames hashes1 hashes2
  if sqlOut then
    Sql.transacted .second do
      let s ← Focus.second.run DirCompDBStream.new
      let _ ← events.foldlM compareOutputStreams (some s)
      return ()
  else do
    let _ ← events.foldlM compareOutputStreams none
    return ()

/-! ## What a call writes -/

namespace Event

/-- The table that a call writes to. -/
def table : Event Bytes → String × List Sql.Column
  | overwrittenBy _ _ => ("OverwrittenBy", candidateColumns "candidate_by")
  | copiedFrom _ _ => ("CopiedFrom", candidateColumns "candidate_from")
  | renameTo _ _ => ("RenameTo", candidateColumns "candidate_to")
  | contentChanged _ => ("ContentChanged", pathColumns)
  | removed _ => ("Removed", pathColumns)
  | newFile _ => ("NewFile", pathColumns)

def types : Event Bytes → List ColumnType
  | overwrittenBy _ _ | copiedFrom _ _ | renameTo _ _ => [.string, .string]
  | contentChanged _ | removed _ | newFile _ => [.string]

def tuples : (e : Event Bytes) → List (Tuple e.types)
  | overwrittenBy f candidates | copiedFrom f candidates | renameTo f candidates =>
    candidates.map fun c => (f, c, ())
  | contentChanged f | removed f | newFile f => [(f, ())]

variable (e : Event Bytes)

def names : List String := e.table.2.map Sql.Column.name

def rows : List (Sql.Row Value) := e.tuples.map (DBOutStream.rowOf e.names.zip)

/-- The stream that a call writes to. -/
def out : Sql.Prepared Value :=
  ⟨DirCompDBStream.insertInto e.table.1 e.names, List.replicate e.types.length none⟩

theorem table_mem : e.table ∈ compareTables := by cases e <;> simp [table, compareTables]

end Event

namespace DirCompDBStream

/-- All streams, with nothing bound. -/
def prepared : DirCompDBStream where
  removed := ⟨insertInto "Removed" ["path"], [none]⟩
  newFile := ⟨insertInto "NewFile" ["path"], [none]⟩
  contentChanged := ⟨insertInto "ContentChanged" ["path"], [none]⟩
  overwrittenBy := ⟨insertInto "OverwrittenBy" ["path", "candidate_by"], [none, none]⟩
  copiedFrom := ⟨insertInto "CopiedFrom" ["path", "candidate_from"], [none, none]⟩
  renameTo := ⟨insertInto "RenameTo" ["path", "candidate_to"], [none, none]⟩

def put (s : DirCompDBStream) (out : Sql.Prepared Value) : Event Bytes → DirCompDBStream
  | .overwrittenBy _ _ => { s with overwrittenBy := out }
  | .copiedFrom _ _ => { s with copiedFrom := out }
  | .renameTo _ _ => { s with renameTo := out }
  | .contentChanged _ => { s with contentChanged := out }
  | .removed _ => { s with removed := out }
  | .newFile _ => { s with newFile := out }

theorem call_eq (e : Event Bytes) : prepared.call e = (do
    let out ← DBOutStream.writeAll e.types e.out e.tuples
    return prepared.put out e) := by
  cases e with
  | overwrittenBy | copiedFrom | renameTo => rfl
  | contentChanged f | removed f | newFile f =>
    exact congrArg (· >>= _) (DBOutStream.writeAll_singleton [.string] _ (f, ())).symm

theorem put_out (e : Event Bytes) : prepared.put e.out e = prepared := by cases e <;> rfl

end DirCompDBStream

/-- A table of the comparison once these calls have been made. -/
def tableOf (events : List (Event Bytes)) (t : String × List Sql.Column) : Sql.Table Value :=
  ⟨t.2, (events.filter fun e => e.table = t).flatMap Event.rows⟩

theorem tableOf_snoc (done : List (Event Bytes)) (e : Event Bytes) :
    tableOf (done ++ [e]) e.table =
      { tableOf done e.table with rows := (tableOf done e.table).rows ++ e.rows } := by
  simp [tableOf]

theorem tableOf_snoc_ne (done : List (Event Bytes)) {e : Event Bytes} {t : String × List Sql.Column}
    (ne : t ≠ e.table) : tableOf (done ++ [e]) t = tableOf done t := by
  simp [tableOf, ne.symm]

theorem compareTables_nodup : (compareTables.map Prod.fst).Nodup := by decide

theorem compareTables_inj {t t' : String × List Sql.Column} (ht : t ∈ compareTables)
    (ht' : t' ∈ compareTables) (same : t.1 = t'.1) : t = t' :=
  List.inj_on_of_nodup_map compareTables_nodup ht ht' same

/-- The tables are as the calls made so far have left them; the other ones are those
of `db`. -/
structure Written (db : Sql.Database Value) (done : List (Event Bytes))
    (c : Sql.Connection Value) : Prop where
  tables : ∀ t ∈ compareTables, c.tables.lookup t.1 = some (tableOf done t)
  others : ∀ other ∉ compareTables.map Prod.fst, c.tables.lookup other = db.lookup other

section
variable {db : Sql.Database Value} {done : List (Event Bytes)} {c c' : Sql.Connection Value}
  {s : DirCompDBStream} {e : Event Bytes}

theorem Event.out_unbound (e : Event Bytes) : Unbound e.types e.out := rfl

theorem Written.of_call (stored : Written db done c)
    (h : (DirCompDBStream.prepared.call e).on c = (.ok s, c')) :
    s = DirCompDBStream.prepared ∧ Written db (done ++ [e]) c' := by
  rw [DirCompDBStream.call_eq] at h
  obtain ⟨out, d, written, h⟩ := of_on_bind h
  cases h
  obtain rfl := DBOutStream.of_writeAll_same e.out_unbound written
  have here := DBOutStream.of_writeAll e.out_unbound rfl (stored.tables e.table e.table_mem) written
  have others {other : String} (ne : other ≠ e.table.1) :
      c'.tables.lookup other = c.tables.lookup other :=
    DBOutStream.of_writeAll_ne e.out_unbound rfl ne written
  refine ⟨DirCompDBStream.put_out e, fun t ht => ?_, fun other ho => ?_⟩
  · by_cases same : t = e.table
    · rw [same, here, tableOf_snoc]
      rfl
    · have ne : t.1 ≠ e.table.1 := fun h => same (compareTables_inj ht e.table_mem h)
      rw [others ne, stored.tables t ht, tableOf_snoc_ne done same]
  · have ne : other ≠ e.table.1 := fun h => ho (h ▸ List.mem_map_of_mem e.table_mem)
    rw [others ne, stored.others other ho]

theorem Event.elsewhere (e : Event Bytes) :
    ∀ column ∈ e.table.2, ∀ key ∈ column.references, key.1 ≠ e.table.1 := by
  cases e <;> simp [Event.table, pathColumns, candidateColumns]

theorem Written.call_on (stored : Written db done c) (calm : c.failing = none)
    (meets : (tableOf (done ++ [e]) e.table).Meets c.tables) :
    ∃ c', (DirCompDBStream.prepared.call e).on c = (.ok DirCompDBStream.prepared, c') ∧
      c'.failing = none := by
  rw [tableOf_snoc] at meets
  obtain ⟨c', written, calm', -⟩ := DBOutStream.writeAll_on calm e.out_unbound rfl
    (stored.tables e.table e.table_mem) (fun _ _ hv => (List.of_mem_zip hv).1) e.elsewhere meets
  refine ⟨c', ?_, calm'⟩
  rw [DirCompDBStream.call_eq, on_bind written, on_pure, DirCompDBStream.put_out]

theorem DirCompDBStream.call_confined (e : Event Bytes) :
    Sql.Confined .whole (DirCompDBStream.prepared.call e) := by
  rw [DirCompDBStream.call_eq]
  exact (DBOutStream.writeAll_confined e.out_unbound rfl _).bind fun _ => .pure _

/-! ## The constructor -/

theorem of_new (h : DirCompDBStream.new.on c = (.ok s, c')) :
    s = DirCompDBStream.prepared ∧ Written c.tables [] c' := by
  obtain ⟨_, c₀, schema, h⟩ := of_on_bind h
  obtain ⟨s₁, c₁, h₁, h⟩ := of_on_bind h
  obtain ⟨s₂, c₂, h₂, h⟩ := of_on_bind h
  obtain ⟨s₃, c₃, h₃, h⟩ := of_on_bind h
  obtain ⟨s₄, c₄, h₄, h⟩ := of_on_bind h
  obtain ⟨s₅, c₅, h₅, h⟩ := of_on_bind h
  obtain ⟨s₆, c₆, h₆, h⟩ := of_on_bind h
  cases h
  obtain ⟨rfl, tables₁, -⟩ := Sql.of_prepare h₁
  obtain ⟨rfl, tables₂, -⟩ := Sql.of_prepare h₂
  obtain ⟨rfl, tables₃, -⟩ := Sql.of_prepare h₃
  obtain ⟨rfl, tables₄, -⟩ := Sql.of_prepare h₄
  obtain ⟨rfl, tables₅, -⟩ := Sql.of_prepare h₅
  obtain ⟨rfl, tables₆, -⟩ := Sql.of_prepare h₆
  have tables : c'.tables = c₀.tables := by
    rw [tables₆, tables₅, tables₄, tables₃, tables₂, tables₁]
  obtain ⟨b, dropped, created⟩ := Sql.of_execAll_append schema
  obtain ⟨-, kept⟩ := Sql.of_dropAll (compareTables.map Prod.fst) dropped
  obtain ⟨there, others⟩ := Sql.of_createAll compareTables_nodup created
  refine ⟨rfl, fun t ht => ?_, fun other ho => ?_⟩
  · rw [tables, there t ht]
    rfl
  · rw [tables, others other ho, kept other ho]

theorem new_on (calm : c.failing = none) (free : ∀ t ∈ compareTables, ¬c.tables.Referenced t.1) :
    ∃ c', DirCompDBStream.new.on c = (.ok DirCompDBStream.prepared, c') ∧ c'.failing = none := by
  obtain ⟨b, dropped, calm₁⟩ := Sql.dropAll_on calm (compareTables.map Prod.fst)
    (by simpa using free)
  obtain ⟨gone, -⟩ := Sql.of_dropAll _ dropped
  obtain ⟨c', created, calm₂⟩ := Sql.createAll_on calm₁ compareTables_nodup
    fun t ht => gone t.1 (List.mem_map_of_mem ht)
  refine ⟨c', ?_, calm₂⟩
  have schema : (Sql.execAll compareSchema).on c = (.ok (), c') :=
    (Sql.execAll_append _ dropped).trans created
  rw [DirCompDBStream.new, on_bind schema]
  exact (on_bind (Sql.prepare_on calm₂ _ _)).trans ((on_bind (Sql.prepare_on calm₂ _ _)).trans
    ((on_bind (Sql.prepare_on calm₂ _ _)).trans ((on_bind (Sql.prepare_on calm₂ _ _)).trans
      ((on_bind (Sql.prepare_on calm₂ _ _)).trans (on_bind (Sql.prepare_on calm₂ _ _))))))

theorem new_confined : Sql.Confined .whole DirCompDBStream.new := by
  refine (Sql.Confined.execAll ?_).bind fun _ => (Sql.Confined.prepare _ _).bind fun _ =>
    (Sql.Confined.prepare _ _).bind fun _ => (Sql.Confined.prepare _ _).bind fun _ =>
      (Sql.Confined.prepare _ _).bind fun _ => (Sql.Confined.prepare _ _).bind fun _ =>
        (Sql.Confined.prepare _ _).bind fun _ => .pure _
  simp [compareSchema, compareTables, Sql.Statement.Inside]

end

end Dupa
