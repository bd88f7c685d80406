import Mathlib.Data.List.AList
import Mathlib.Data.List.Nodup
import Dupa.Library.Checked
import Dupa.Library.Session

/-!
# Tables, statements and transactions

A part of SQL, over any type of values; a cell without a value is NULL. A statement
that would violate a constraint fails and changes nothing. Outside a transaction
statements take effect at once, inside one until `ROLLBACK`.
-/

namespace Sql

open Checked Session

structure Column where
  name : String
  notNull : Bool
  unique : Bool
  /-- The table and the column that a foreign key refers to. -/
  references : Option (String × String)
  deriving DecidableEq

/-- A row by the names of its columns. -/
abbrev Row (V : Type) := String → Option V

/-- A row of a result, and the parameters of a statement. -/
abbrev Cells (V : Type) := List (Option V)

structure Table (V : Type) where
  columns : List Column
  rows : List (Row V)

abbrev Database (V : Type) := AList fun _ : String => Table V

inductive Error where
  | noTable
  | noColumn
  | tableExists
  | constraint
  | inTransaction
  | noTransaction
  /-- No such parameter. -/
  | range
  | misuse
  /-- Out of memory, out of space and the like. -/
  | failed
  deriving DecidableEq

inductive Statement (V : Type) where
  | dropTableIfExists (table : String)
  | createTable (table : String) (columns : List Column)
  | insert (table : String) (values : List (String × Option V))
  /-- `UPDATE table SET column = value WHERE key == equal`. -/
  | update (table column : String) (value : Option V) (key : String) (equal : Option V)
  | begin
  | commit
  | rollback

section
variable {V : Type}

/-- The values in a column, NULL left out. -/
def Table.values (t : Table V) (column : String) : List V := t.rows.filterMap (· column)

def Database.values (db : Database V) (table column : String) : List V :=
  match db.lookup table with
  | some t => t.values column
  | none => []

/-- The rows meet the constraints of one column. -/
def Table.Allows (t : Table V) (db : Database V) (c : Column) : Prop :=
  (c.notNull → ∀ row ∈ t.rows, (row c.name).isSome) ∧
    (c.unique → (t.values c.name).Nodup) ∧
    ∀ key ∈ c.references, ∀ v ∈ t.values c.name, v ∈ db.values key.1 key.2

def Table.Meets (t : Table V) (db : Database V) : Prop := ∀ c ∈ t.columns, t.Allows db c

/-- Another table refers to the value of a key of this table. -/
def Database.Refers (db : Database V) (table key : String) (v : V) : Prop :=
  ∃ other ∈ db.entries, other.1 ≠ table ∧
    ∃ c ∈ other.2.columns, c.references = some (table, key) ∧ v ∈ other.2.values c.name

/-- Another table refers to a row of this table. -/
def Database.Referenced (db : Database V) (table : String) : Prop :=
  ∃ t ∈ db.lookup table, ∃ c ∈ t.columns, c.unique ∧ ∃ v ∈ t.values c.name, db.Refers table c.name v

/-- The row of the values; columns without one are NULL. -/
def row (values : List (String × Option V)) : Row V := fun name => (values.lookup name).join

variable [DecidableEq V]

instance (t : Table V) (db : Database V) (c : Column) : Decidable (t.Allows db c) :=
  inferInstanceAs (Decidable (_ ∧ _ ∧ _))

instance (t : Table V) (db : Database V) : Decidable (t.Meets db) :=
  inferInstanceAs (Decidable (∀ c ∈ t.columns, t.Allows db c))

instance (db : Database V) (table key : String) (v : V) : Decidable (db.Refers table key v) :=
  inferInstanceAs (Decidable (∃ other ∈ db.entries, _ ∧ ∃ c ∈ other.2.columns, _ ∧ _))

instance (db : Database V) (table : String) : Decidable (db.Referenced table) :=
  inferInstanceAs (Decidable (∃ t ∈ db.lookup table, ∃ c ∈ t.columns, _ ∧ ∃ v ∈ t.values c.name, _))

namespace Database

def drop (db : Database V) (table : String) : Except Error (Database V) := do
  ensure (¬db.Referenced table) .constraint
  return db.erase table

def create (db : Database V) (table : String) (columns : List Column) :
    Except Error (Database V) := do
  ensure (db.lookup table).isNone .tableExists
  return db.insert table ⟨columns, []⟩

/-- Puts the rows into the table if they meet its constraints. -/
def replace (db : Database V) (table : String) (t : Table V) : Except Error (Database V) := do
  ensure (t.Meets (db.insert table t)) .constraint
  return db.insert table t

def find (db : Database V) (table : String) : Except Error (Table V) :=
  match db.lookup table with
  | some t => .ok t
  | none => .error .noTable

def insertRow (db : Database V) (table : String) (values : List (String × Option V)) :
    Except Error (Database V) := do
  let t ← db.find table
  ensure (∀ v ∈ values, v.1 ∈ t.columns.map Column.name) .noColumn
  db.replace table { t with rows := t.rows ++ [row values] }

def updateRow (column : String) (value : Option V) (key : String) (equal : Option V) (r : Row V) :
    Row V :=
  if equal.isSome ∧ r key = equal then Function.update r column value else r

/-- A value of a key that disappears must not be referred to. -/
def update (db : Database V) (table column : String) (value : Option V) (key : String)
    (equal : Option V) : Except Error (Database V) := do
  let t ← db.find table
  ensure (column ∈ t.columns.map Column.name ∧ key ∈ t.columns.map Column.name) .noColumn
  let t' := { t with rows := t.rows.map (updateRow column value key equal) }
  ensure (∀ c ∈ t.columns, c.unique → c.name = column →
    ∀ v ∈ t.values column, v ∉ t'.values column → ¬db.Refers table column v) .constraint
  db.replace table t'

/-- `SELECT columns FROM table`, the rows in some order. -/
def select (db : Database V) (columns : List String) (table : String)
    (order : List (Row V) → List (Row V)) : Except Error (List (Cells V)) := do
  let t ← db.find table
  ensure (∀ c ∈ columns, c ∈ t.columns.map Column.name) .noColumn
  return (order t.rows).map fun r => columns.map r

end Database

/-- The tables, the tables at `BEGIN` during a transaction, and the number of
statements until one fails for a reason of its own, if one does. -/
structure Connection (V : Type) where
  tables : Database V
  saved : Option (Database V)
  failing : Option ℕ

namespace Connection

def apply (c : Connection V) : Statement V → Except Error (Connection V)
  | .dropTableIfExists table => return { c with tables := ← c.tables.drop table }
  | .createTable table columns => return { c with tables := ← c.tables.create table columns }
  | .insert table values => return { c with tables := ← c.tables.insertRow table values }
  | .update table column value key equal =>
    return { c with tables := ← c.tables.update table column value key equal }
  | .begin => do
    ensure c.saved.isNone .inTransaction
    return { c with saved := some c.tables }
  | .commit => do
    ensure c.saved.isSome .noTransaction
    return { c with saved := none }
  | .rollback =>
    match c.saved with
    | some tables => .ok { c with tables := tables, saved := none }
    | none => .error .noTransaction

end Connection

/-- The turn of the next statement. -/
def tick : Session Error (Connection V) Unit := do
  let c ← get
  match c.failing with
  | some 0 =>
    set { c with failing := none }
    lift (.error .failed)
  | some (n + 1) => set { c with failing := some n }
  | none => return ()

def exec (s : Statement V) : Session Error (Connection V) Unit := do
  tick
  let c ← get
  let c ← lift (c.apply s)
  set c

/-- A statement with parameters, and what is bound to them. -/
structure Prepared (V : Type) where
  statement : Cells V → Statement V
  params : Cells V

def prepare (count : ℕ) (statement : Cells V → Statement V) :
    Session Error (Connection V) (Prepared V) := do
  tick
  return ⟨statement, List.replicate count none⟩

namespace Prepared

/-- The parameters are numbered from 1. -/
def bind (s : Prepared V) (idx : ℕ) (v : Option V) : Except Error (Prepared V) := do
  ensure (1 ≤ idx ∧ idx ≤ s.params.length) .range
  return { s with params := s.params.set (idx - 1) v }

def clearBindings (s : Prepared V) : Prepared V :=
  { s with params := List.replicate s.params.length none }

end Prepared

end

/-! ## Statements that succeed -/

section
variable {V : Type} {c c' : Connection V} {s : Statement V} {table : String} {t : Table V}
  {values : List (String × Option V)}

theorem Database.values_of_lookup {db db' : Database V} (same : db'.lookup table = db.lookup table)
    (column : String) : db'.values table column = db.values table column := by
  simp [Database.values, same]

theorem Table.Meets.congr {db db' : Database V} (meets : t.Meets db)
    (same : ∀ c ∈ t.columns, ∀ key ∈ c.references, db'.lookup key.1 = db.lookup key.1) :
    t.Meets db' := by
  intro c hc
  obtain ⟨notNull, unique, references⟩ := meets c hc
  refine ⟨notNull, unique, fun key hkey v hv => ?_⟩
  rw [Database.values_of_lookup (same c hc key hkey)]
  exact references key hkey v hv

/-- Fewer rows meet the constraints if all do. -/
theorem Table.Meets.sublist {db : Database V} (meets : t.Meets db) {rows : List (Row V)}
    (sub : rows.Sublist t.rows) : ({ t with rows := rows } : Table V).Meets db := by
  intro c hc
  obtain ⟨notNull, unique, references⟩ := meets c hc
  have values : (({ t with rows := rows } : Table V).values c.name).Sublist (t.values c.name) :=
    sub.filterMap _
  exact ⟨fun h row hrow => notNull h row (sub.subset hrow), fun h => (unique h).sublist values,
    fun key hkey v hv => references key hkey v (values.subset hv)⟩

theorem of_tick (h : tick.on c = (.ok (), c')) : c'.tables = c.tables ∧ c'.saved = c.saved := by
  rw [tick] at h
  obtain ⟨d, _, hd, h⟩ := of_on_bind h
  cases hd
  match failing : c.failing with
  | some 0 =>
    rw [failing] at h
    obtain ⟨_, _, -, h⟩ := of_on_bind h
    cases h
  | some (n + 1) =>
    rw [failing] at h
    cases h
    exact ⟨rfl, rfl⟩
  | none =>
    rw [failing] at h
    cases h
    exact ⟨rfl, rfl⟩

theorem tick_on (calm : c.failing = none) : tick.on c = (.ok (), c) := by
  rw [tick, on_bind on_get, calm]
  rfl

theorem of_prepare {count : ℕ} {statement : Cells V → Statement V} {p : Prepared V}
    (h : (prepare count statement).on c = (.ok p, c')) :
    p = ⟨statement, List.replicate count none⟩ ∧ c'.tables = c.tables ∧ c'.saved = c.saved := by
  rw [prepare] at h
  obtain ⟨_, d, hd, h⟩ := of_on_bind h
  cases h
  exact ⟨rfl, of_tick hd⟩

theorem prepare_on (calm : c.failing = none) (count : ℕ) (statement : Cells V → Statement V) :
    (prepare count statement).on c = (.ok ⟨statement, List.replicate count none⟩, c) := by
  rw [prepare, on_bind (tick_on calm)]
  rfl

theorem Database.find_ok {db : Database V} (h : db.lookup table = some t) :
    db.find table = .ok t := by simp [Database.find, h]

variable [DecidableEq V]

theorem of_exec (h : (exec s).on c = (.ok (), c')) :
    ∃ d : Connection V, d.tables = c.tables ∧ d.saved = c.saved ∧ d.apply s = .ok c' := by
  rw [exec] at h
  obtain ⟨_, d, hd, h⟩ := of_on_bind h
  obtain ⟨_, _, hget, h⟩ := of_on_bind h
  cases hget
  obtain ⟨e, _, hlift, h⟩ := of_on_bind h
  rw [on_lift] at hlift
  cases h
  exact ⟨d, (of_tick hd).1, (of_tick hd).2, congrArg Prod.fst hlift⟩

theorem exec_on (calm : c.failing = none) (h : c.apply s = .ok c') :
    (exec s).on c = (.ok (), c') := by
  rw [exec, on_bind (tick_on calm), on_bind on_get, on_bind (by rw [on_lift, h]), on_set]

theorem of_exec_create {columns : List Column}
    (h : (exec (.createTable table columns)).on c = (.ok (), c')) :
    c'.tables = c.tables.insert table ⟨columns, []⟩ := by
  obtain ⟨d, tables, -, h⟩ := of_exec h
  obtain ⟨db, hdb, h⟩ := of_bind_ok h
  obtain ⟨-, hdb⟩ := of_ensure_ok hdb
  cases h
  cases hdb
  rw [tables]

/-- The row is appended. -/
theorem of_exec_insert (here : c.tables.lookup table = some t)
    (h : (exec (.insert table values)).on c = (.ok (), c')) :
    c'.tables.lookup table = some { t with rows := t.rows ++ [row values] } := by
  obtain ⟨d, tables, -, h⟩ := of_exec h
  obtain ⟨db, hdb, h⟩ := of_bind_ok h
  rw [Database.insertRow, tables, Database.find_ok here, ok_bind] at hdb
  obtain ⟨-, hdb⟩ := of_ensure_ok hdb
  obtain ⟨-, hdb⟩ := of_ensure_ok hdb
  cases h
  cases hdb
  exact AList.lookup_insert _

theorem of_exec_insert_ne {other : String} (ne : other ≠ table)
    (h : (exec (.insert table values)).on c = (.ok (), c')) :
    c'.tables.lookup other = c.tables.lookup other := by
  obtain ⟨d, tables, -, h⟩ := of_exec h
  obtain ⟨db, hdb, h⟩ := of_bind_ok h
  obtain ⟨t, -, hdb⟩ := of_bind_ok hdb
  obtain ⟨-, hdb⟩ := of_ensure_ok hdb
  obtain ⟨-, hdb⟩ := of_ensure_ok hdb
  cases h
  cases hdb
  rw [← tables]
  exact AList.lookup_insert_ne ne

theorem of_exec_drop (h : (exec (.dropTableIfExists table)).on c = (.ok (), c')) :
    c'.tables = c.tables.erase table := by
  obtain ⟨d, tables, -, h⟩ := of_exec h
  obtain ⟨db, hdb, h⟩ := of_bind_ok h
  obtain ⟨-, hdb⟩ := of_ensure_ok hdb
  cases h
  cases hdb
  rw [tables]

theorem of_exec_begin (h : (exec .begin).on c = (.ok (), c')) : c'.tables = c.tables := by
  obtain ⟨d, tables, -, h⟩ := of_exec h
  obtain ⟨-, h⟩ := of_ensure_ok h
  cases h
  exact tables

theorem of_exec_commit (h : (exec .commit).on c = (.ok (), c')) :
    c'.tables = c.tables ∧ c'.saved = none := by
  obtain ⟨d, tables, -, h⟩ := of_exec h
  obtain ⟨-, h⟩ := of_ensure_ok h
  cases h
  exact ⟨tables, rfl⟩

/-! ## Statements that will succeed -/

theorem apply_drop (free : ¬c.tables.Referenced table) :
    c.apply (.dropTableIfExists table) = .ok { c with tables := c.tables.erase table } := by
  rw [Connection.apply, Database.drop, ensure_bind free]
  rfl

theorem apply_create (absent : c.tables.lookup table = none) (columns : List Column) :
    c.apply (.createTable table columns) =
      .ok { c with tables := c.tables.insert table ⟨columns, []⟩ } := by
  rw [Connection.apply, Database.create, ensure_bind (by simp [absent])]
  rfl

/-- No foreign key of the table refers to the table itself. -/
theorem Database.replace_ok {db : Database V}
    (elsewhere : ∀ column ∈ t.columns, ∀ key ∈ column.references, key.1 ≠ table)
    (meets : t.Meets db) : db.replace table t = .ok (db.insert table t) := by
  have meets' : t.Meets (db.insert table t) := meets.congr fun column hcolumn key hkey =>
    AList.lookup_insert_ne (elsewhere column hcolumn key hkey)
  rw [Database.replace, ensure_bind meets']
  rfl

theorem apply_insert (here : c.tables.lookup table = some t)
    (known : ∀ v ∈ values, v.1 ∈ t.columns.map Column.name)
    (elsewhere : ∀ column ∈ t.columns, ∀ key ∈ column.references, key.1 ≠ table)
    (meets : ({ t with rows := t.rows ++ [row values] } : Table V).Meets c.tables) :
    c.apply (.insert table values) =
      .ok { c with
        tables := c.tables.insert table { t with rows := t.rows ++ [row values] } } := by
  rw [Connection.apply, Database.insertRow, Database.find_ok here, ok_bind, ensure_bind known,
    Database.replace_ok (t := { t with rows := t.rows ++ [row values] }) elsewhere meets]
  rfl

/-- Nothing refers to a column that is no key. -/
theorem update_on {column key : String} {value equal : Option V} (calm : c.failing = none)
    (here : c.tables.lookup table = some t)
    (known : column ∈ t.columns.map Column.name ∧ key ∈ t.columns.map Column.name)
    (noKey : ∀ c ∈ t.columns, c.unique → c.name ≠ column)
    (elsewhere : ∀ c ∈ t.columns, ∀ key ∈ c.references, key.1 ≠ table)
    {updated : Table V}
    (after : updated = { t with rows := t.rows.map (Database.updateRow column value key equal) })
    (meets : updated.Meets c.tables) :
    (exec (.update table column value key equal)).on c =
      (.ok (), { c with tables := c.tables.insert table updated }) := by
  subst after
  let updated : Table V :=
    { t with rows := t.rows.map (Database.updateRow column value key equal) }
  have kept : ∀ key ∈ t.columns, key.unique → key.name = column →
      ∀ v ∈ t.values column, v ∉ updated.values column → ¬c.tables.Refers table column v :=
    fun key hkey unique name => absurd name (noKey key hkey unique)
  have replaced : c.tables.replace table updated = .ok (c.tables.insert table updated) :=
    Database.replace_ok elsewhere meets
  apply exec_on calm
  rw [Connection.apply, Database.update, Database.find_ok here, ok_bind, ensure_bind known]
  change ((ensure _ _ >>= fun _ => Database.replace _ table updated) >>= _) = _
  rw [ensure_bind kept, replaced]
  rfl

theorem apply_begin (idle : c.saved = none) :
    c.apply .begin = .ok { c with saved := some c.tables } := by
  rw [Connection.apply, ensure_bind (by simp [idle])]
  rfl

theorem apply_commit (ongoing : c.saved.isSome) : c.apply .commit = .ok { c with saved := none } := by
  rw [Connection.apply, ensure_bind ongoing]
  rfl

/-! ## Statements that may fail -/

/-- What a statement does has nothing to do with when one will fail. -/
theorem apply_failing {d : Connection V} (h : c.apply s = .ok d) (failing : Option ℕ) :
    ({ c with failing := failing } : Connection V).apply s =
      .ok { d with failing := failing } := by
  cases s with
  | dropTableIfExists | createTable | insert | update =>
    obtain ⟨db, hdb, h⟩ := of_bind_ok h
    cases h
    simp only [Connection.apply, hdb, ok_bind]
    rfl
  | begin =>
    obtain ⟨idle, h⟩ := of_ensure_ok h
    cases h
    rw [Connection.apply, ensure_bind idle]
    rfl
  | commit =>
    obtain ⟨ongoing, h⟩ := of_ensure_ok h
    cases h
    rw [Connection.apply, ensure_bind ongoing]
    rfl
  | rollback =>
    unfold Connection.apply at h ⊢
    cases saved : c.saved with
    | none => simp [saved] at h
    | some tables =>
      simp only [saved, Except.ok.injEq] at h
      subst h
      rfl

omit [DecidableEq V] in
theorem tick_next (left : Option ℕ) :
    tick.on { c with failing := left.map (· + 1) } = (.ok (), { c with failing := left }) := by
  rw [tick, on_bind on_get]
  cases left <;> rfl

theorem exec_next {d : Connection V} (h : c.apply s = .ok d) (left : Option ℕ) :
    (exec s).on { c with failing := left.map (· + 1) } = (.ok (), { d with failing := left }) := by
  rw [exec, on_bind (tick_next left), on_bind on_get,
    on_bind (by rw [on_lift, apply_failing h left]), on_set]

theorem exec_failed : (exec s).on { c with failing := some 0 } =
    (.error .failed, { c with failing := none }) := by
  rfl

/-- A table that is referred to is not dropped, whatever else may fail. -/
theorem drop_refused (referenced : c.tables.Referenced table) :
    ∃ e d, (exec (.dropTableIfExists table)).on c = (.error e, d) ∧ d.tables = c.tables ∧
      d.saved = c.saved := by
  obtain ⟨tables, saved, failing⟩ := c
  have refuses (left : Option ℕ) : (⟨tables, saved, left⟩ : Connection V).apply
      (.dropTableIfExists table) = .error .constraint := by
    simp [Connection.apply, Database.drop, ensure, show tables.Referenced table from referenced]
  have next (left : Option ℕ) : (exec (.dropTableIfExists table)).on
      (⟨tables, saved, left.map (· + 1)⟩ : Connection V) =
        (.error .constraint, ⟨tables, saved, left⟩) := by
    rw [exec, on_bind (tick_next (c := ⟨tables, saved, none⟩) left), on_bind on_get]
    exact on_bind_error (by rw [on_lift, refuses])
  cases failing with
  | none => exact ⟨_, _, next none, rfl, rfl⟩
  | some k =>
    cases k with
    | zero => exact ⟨_, _, exec_failed (c := ⟨tables, saved, none⟩), rfl, rfl⟩
    | succ k => exact ⟨_, _, next (some k), rfl, rfl⟩

end

/-- From `c` to `d` the computation takes so many statements and returns `a`, unless one of
them fails; then it stops, and the tables saved at `BEGIN` are still the same. -/
structure Takes {V α : Type} (x : Session Error (Connection V) α) (c : Connection V) (count : ℕ)
    (a : α) (d : Connection V) : Prop where
  done : ∀ left : Option ℕ, x.on { c with failing := left.map (· + count) } =
    (.ok a, { d with failing := left })
  failed : ∀ k < count, ∃ tables, x.on { c with failing := some k } =
    (.error .failed, ⟨tables, c.saved, none⟩)
  saved : d.saved = c.saved

namespace Takes

variable {V α β : Type} {x : Session Error (Connection V) α} {f : α → Session Error (Connection V) β}
  {c d e : Connection V} {a : α} {b : β} {n m : ℕ}

theorem pure (a : α) (c : Connection V) : Takes (Pure.pure a) c 0 a c where
  done left := by simp
  failed k hk := absurd hk (Nat.not_lt_zero k)
  saved := rfl

theorem lift (a : α) (c : Connection V) : Takes (Session.lift (.ok a)) c 0 a c := pure a c

theorem bind (first : Takes x c n a d) (second : Takes (f a) d m b e) :
    Takes (x >>= f) c (n + m) b e where
  done left := by
    have both : left.map (· + (n + m)) = (left.map (· + m)).map (· + n) := by
      cases left with
      | none => rfl
      | some k => simp; omega
    rw [both, on_bind (first.done _), second.done]
  failed k hk := by
    by_cases early : k < n
    · obtain ⟨tables, failed⟩ := first.failed k early
      exact ⟨tables, on_bind_error failed⟩
    · obtain ⟨tables, failed⟩ := second.failed (k - n) (by omega)
      have reached := first.done (some (k - n))
      rw [Option.map_some, Nat.sub_add_cancel (not_lt.mp early)] at reached
      exact ⟨tables, by rw [on_bind reached, failed, first.saved]⟩
  saved := second.saved.trans first.saved

theorem exec [DecidableEq V] {s : Statement V} (h : c.apply s = .ok d) (saved : d.saved = c.saved) :
    Takes (exec s) c 1 () d where
  done left := exec_next h left
  failed k hk := by
    obtain rfl : k = 0 := by omega
    exact ⟨c.tables, exec_failed⟩
  saved := saved

theorem prepare (count : ℕ) (statement : Cells V → Statement V) (c : Connection V) :
    Takes (prepare count statement) c 1 ⟨statement, List.replicate count none⟩ c where
  done left := by cases left <;> rfl
  failed k hk := by
    obtain rfl : k = 0 := by omega
    exact ⟨c.tables, rfl⟩
  saved := rfl

/-- Where no statement fails. -/
theorem on_calm (takes : Takes x c n a d) (calm : c.failing = none) :
    x.on c = (.ok a, { d with failing := none }) := by
  obtain ⟨tables, saved, failing⟩ := c
  obtain rfl : failing = none := calm
  exact takes.done none

end Takes

end Sql
