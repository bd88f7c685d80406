import Mathlib.Data.List.TakeWhile
import Mathlib.Data.Rat.Init
import Dupa.Library.Atomic

/-!
# `db_lib`

Rows of any number of columns of any types are bound to the parameters of a statement,
counted from 1, and unpacked from the columns of a result, counted from 0. A stream of
results is one row ahead of what has been read from it, and an iterator is one row
ahead of the stream. Allocations do not fail.
-/

namespace Dupa

open Checked Session

abbrev Bytes := List UInt8

/-- What a cell of a database holds, unless it is NULL. -/
inductive Value where
  | int (n : Int64)
  | real (x : ℚ)
  | text (bytes : Bytes)
  deriving DecidableEq

/-- The types of the columns of a stream. A `double` that is no number is `none`. -/
inductive ColumnType where
  | string
  | uint64
  | int64
  | double

abbrev ColumnType.Cell : ColumnType → Type
  | .string => Bytes
  | .uint64 => UInt64
  | .int64 => Int64
  | .double => Option ℚ

/-- `std::tuple<ARGS...>`. -/
abbrev Tuple : List ColumnType → Type
  | [] => Unit
  | t :: ts => t.Cell × Tuple ts

/-- What the code relies on of SQLite: a column is returned unchanged when it is asked
for by its own type, and a query returns the rows of a table in some order. A text
ends at its first zero, as a C string; a null pointer is `none`. -/
structure Sqlite where
  columnInt64 : Option Value → Int64
  columnDouble : Option Value → ℚ
  columnText : Option Value → Option Bytes
  order : List (Sql.Row Value) → List (Sql.Row Value)
  columnInt64_int : ∀ n, columnInt64 (some (.int n)) = n
  columnDouble_real : ∀ x, columnDouble (some (.real x)) = x
  columnText_text : ∀ bytes, columnText (some (.text bytes)) = some bytes
  order_perm : ∀ rows, (order rows).Perm rows

inductive DbFault where
  | sql (error : Sql.Error)
  /-- A null pointer is followed. -/
  | null
  | outOfFuel
  deriving DecidableEq

/-! ## Binding and unpacking -/

/-- The constructor of `std::string` reads up to the first zero. -/
def ofCString (s : Bytes) : Bytes := s.takeWhile (· ≠ 0)

/-- `strncpy` fills up with zeros what follows the first zero. -/
def strncpy (s : Bytes) : Bytes :=
  ofCString s ++ List.replicate (s.length - (ofCString s).length) 0

/-- A `double` that is no number is bound as NULL. -/
def bind1 : (t : ColumnType) → t.Cell → Option Value
  | .string, s => some (.text (strncpy s))
  | .uint64, n => some (.int n.toInt64)
  | .int64, n => some (.int n)
  | .double, x => x.map .real

def unpack1 (S : Sqlite) : (t : ColumnType) → Option Value → Except DbFault t.Cell
  | .string, v =>
    match S.columnText v with
    | some s => .ok (ofCString s)
    | none => .error .null
  | .uint64, v => .ok (S.columnInt64 v).toUInt64
  | .int64, v => .ok (S.columnInt64 v)
  | .double, v => .ok (some (S.columnDouble v))

def bindImpl (s : Sql.Prepared Value) (idx : ℕ) :
    (ts : List ColumnType) → Tuple ts → Except Sql.Error (Sql.Prepared Value)
  | [], _ => .ok s
  | t :: ts, (a, args) => do
    let s ← s.bind idx (bind1 t a)
    bindImpl s (idx + 1) ts args

def unpackImpl (S : Sqlite) (row : Sql.Cells Value) (idx : ℕ) :
    (ts : List ColumnType) → Except DbFault (Tuple ts)
  | [] => .ok ()
  | t :: ts => do
    let a ← unpack1 S t row[idx]?.join
    let args ← unpackImpl S row (idx + 1) ts
    return (a, args)

/-! ## Connections and output -/

abbrev DbSession := Session Sql.Error (Sql.Connection Value)

/-- What runs in the scope of a `DBTransaction`, and `Commit` at its end. A failure
destroys the transaction, which rolls it back. That this restores the tables is what
`DBTransaction` relies on. -/
def transaction (body : DbSession Unit) : DbSession Unit := do
  Sql.exec .begin
  (do body; Sql.exec .commit).onError (Sql.exec .rollback)

namespace DBOutStream

/-- `DBOutStream::Write`. The stream is its prepared statement. -/
def write (ts : List ColumnType) (s : Sql.Prepared Value) (args : Tuple ts) :
    DbSession (Sql.Prepared Value) := do
  let s ← lift (bindImpl s 1 ts args)
  Sql.exec (s.statement s.params)
  return s.clearBindings

/-- `std::transform` into a stream. -/
def writeAll (ts : List ColumnType) (s : Sql.Prepared Value) (rows : List (Tuple ts)) :
    DbSession (Sql.Prepared Value) :=
  rows.foldlM (write ts) s

end DBOutStream

/-! ## Input -/

/-- The rows the statement has yet to step to, unless it is finished, and the row
that comes next. -/
structure DBInStream (ts : List ColumnType) where
  stmt : Option (List (Sql.Cells Value))
  nextRow : Option (Tuple ts)

namespace DBInStream

variable {ts : List ColumnType}

def fetch (S : Sqlite) (s : DBInStream ts) : Except DbFault (DBInStream ts) :=
  match s.stmt with
  | none => .error (.sql .misuse)
  | some [] => .ok ⟨none, none⟩
  | some (row :: rest) => do
    let args ← unpackImpl S row 0 ts
    return ⟨some rest, some args⟩

/-- The constructor, for a statement that has just been prepared. -/
def new (S : Sqlite) (ts : List ColumnType) (rows : List (Sql.Cells Value)) :
    Except DbFault (DBInStream ts) :=
  fetch S ⟨some rows, none⟩

def read (S : Sqlite) (s : DBInStream ts) : Except DbFault (Tuple ts × DBInStream ts) := do
  let s' ← s.fetch S
  match s.nextRow with
  | some row => return (row, s')
  | none => .error .null

def eof (s : DBInStream ts) : Bool := s.nextRow.isNone

end DBInStream

/-- `stream` tells whether the iterator points to its stream; it does not at the end.
It has no `value` before the first one is fetched. -/
structure DBInputIt (ts : List ColumnType) where
  stream : Bool
  value : Option (Tuple ts)

namespace DBInputIt

variable {ts : List ColumnType}

def fetch (S : Sqlite) (it : DBInputIt ts) (s : DBInStream ts) :
    Except DbFault (DBInputIt ts × DBInStream ts) := do
  if it.stream then
    if s.eof then
      return ({ it with stream := false }, s)
    else
      let (row, s) ← s.read S
      return ({ it with value := some row }, s)
  else
    return (it, s)

/-- `begin()`. -/
def begin_ (S : Sqlite) (s : DBInStream ts) : Except DbFault (DBInputIt ts × DBInStream ts) :=
  fetch S ⟨true, none⟩ s

/-- `end()`. -/
def end_ : DBInputIt ts := ⟨false, none⟩

/-- `operator*`. -/
def get (it : DBInputIt ts) : Except DbFault (Tuple ts) :=
  match it.value with
  | some row => .ok row
  | none => .error .null

/-- `operator==`, for iterators of one stream. -/
def equal (it o : DBInputIt ts) : Bool := if it.stream then o.stream else !o.stream

/-- The turns of `for (row : stream)`, for at most so many rows. -/
def turns {σ : Type} (S : Sqlite) (body : σ → Tuple ts → σ) :
    ℕ → DBInputIt ts → DBInStream ts → σ → Except DbFault σ
  | 0, _, _, _ => .error .outOfFuel
  | fuel + 1, it, s, acc => do
    if it.equal end_ then return acc
    let row ← it.get
    let (it, s) ← it.fetch S s
    turns S body fuel it s (body acc row)

end DBInputIt

/-- `for (row : db.Query(...))`. -/
def forEach {σ : Type} (S : Sqlite) (ts : List ColumnType) (fuel : ℕ)
    (rows : List (Sql.Cells Value)) (body : σ → Tuple ts → σ) (acc : σ) : Except DbFault σ := do
  let s ← DBInStream.new S ts rows
  let (it, s) ← DBInputIt.begin_ S s
  DBInputIt.turns S body fuel it s acc

/-! ## What is bound is unpacked -/

/-- A string without zeros, and a number: what comes back as it was bound. -/
def ColumnType.Plain : (t : ColumnType) → t.Cell → Prop
  | .string, s => 0 ∉ s
  | .uint64, _ => True
  | .int64, _ => True
  | .double, x => x.isSome

def Tuple.Plain : (ts : List ColumnType) → Tuple ts → Prop
  | [], _ => True
  | t :: ts, (a, args) => t.Plain a ∧ Tuple.Plain ts args

/-- The values that are bound. -/
def Tuple.cells : (ts : List ColumnType) → Tuple ts → Sql.Cells Value
  | [], _ => []
  | t :: ts, (a, args) => bind1 t a :: Tuple.cells ts args

theorem Tuple.length_cells {ts : List ColumnType} (args : Tuple ts) :
    (Tuple.cells ts args).length = ts.length := by
  induction ts with
  | nil => rfl
  | cons t ts ih => simp [Tuple.cells, ih]

theorem ofCString_of_plain {s : Bytes} (h : 0 ∉ s) : ofCString s = s := by
  apply List.takeWhile_eq_self_iff.mpr
  intro b hb
  simpa using ne_of_mem_of_not_mem hb h

theorem strncpy_of_plain {s : Bytes} (h : 0 ∉ s) : strncpy s = s := by
  simp [strncpy, ofCString_of_plain h]

theorem unpack1_bind1 (S : Sqlite) {t : ColumnType} {a : t.Cell} (plain : t.Plain a) :
    unpack1 S t (bind1 t a) = .ok a := by
  cases t with
  | string =>
    have plain : 0 ∉ a := plain
    simp [bind1, unpack1, S.columnText_text, strncpy_of_plain plain, ofCString_of_plain plain]
  | uint64 => simp [bind1, unpack1, S.columnInt64_int]
  | int64 => simp [bind1, unpack1, S.columnInt64_int]
  | double =>
    obtain ⟨x, rfl⟩ := Option.isSome_iff_exists.mp plain
    simp [bind1, unpack1, S.columnDouble_real]

/-- The columns from `idx` on are those that were bound. -/
theorem unpackImpl_cells (S : Sqlite) {ts : List ColumnType} {args : Tuple ts}
    (plain : Tuple.Plain ts args) (before : Sql.Cells Value) :
    unpackImpl S (before ++ Tuple.cells ts args) before.length ts = .ok args := by
  induction ts generalizing before with
  | nil => rfl
  | cons t ts ih =>
    obtain ⟨a, args⟩ := args
    have here : (before ++ bind1 t a :: Tuple.cells ts args)[before.length]?.join = bind1 t a := by
      simp
    have rest := ih plain.2 (before ++ [bind1 t a])
    rw [List.append_assoc, List.length_append] at rest
    rw [unpackImpl, Tuple.cells, here, unpack1_bind1 S plain.1, ok_bind]
    erw [rest]
    rfl

/-- The parameters before `idx` are bound, and the others get their values in turn. -/
theorem bindImpl_ok {ts : List ColumnType} (args : Tuple ts) {s : Sql.Prepared Value}
    {before after : Sql.Cells Value} (params : s.params = before ++ after)
    (count : after.length = ts.length) :
    bindImpl s (before.length + 1) ts args =
      .ok { s with params := before ++ Tuple.cells ts args } := by
  induction ts generalizing s before after with
  | nil =>
    rw [List.length_eq_zero_iff.mp count, List.append_nil] at params
    simp [bindImpl, Tuple.cells, ← params]
  | cons t ts ih =>
    obtain ⟨a, args⟩ := args
    match after, count with
    | old :: after, count =>
      have inside : 1 ≤ before.length + 1 ∧ before.length + 1 ≤ s.params.length := by
        simp [params]
      have set : s.params.set (before.length + 1 - 1) (bind1 t a) =
          (before ++ [bind1 t a]) ++ after := by simp [params]
      have rest := ih args (s := { s with params := (before ++ [bind1 t a]) ++ after }) rfl
        (by simpa using count)
      rw [bindImpl, Sql.Prepared.bind, ensure_bind inside, set]
      simpa [Tuple.cells] using rest

/-- Every row that is bound is unpacked again. -/
theorem unpackImpl_bound (S : Sqlite) {ts : List ColumnType} {args : Tuple ts}
    (plain : Tuple.Plain ts args) : unpackImpl S (Tuple.cells ts args) 0 ts = .ok args :=
  unpackImpl_cells S plain []

/-! ## What is written -/

section
variable {ts : List ColumnType} {args : Tuple ts} {rows : List (Tuple ts)}
  {s s' : Sql.Prepared Value} {c c' : Sql.Connection Value} {table : String}
  {t : Sql.Table Value} {values : Sql.Cells Value → List (String × Option Value)}

/-- Nothing is bound to the parameters, one for each column. -/
def Unbound (ts : List ColumnType) (s : Sql.Prepared Value) : Prop :=
  s.params = List.replicate ts.length none

theorem Unbound.bindImpl_ok (unbound : Unbound ts s) (args : Tuple ts) :
    bindImpl s 1 ts args = .ok { s with params := Tuple.cells ts args } := by
  have params : s.params = [] ++ List.replicate ts.length none := unbound
  simpa using Dupa.bindImpl_ok args params (by simp)

theorem Unbound.clearBindings (unbound : Unbound ts s) (args : Tuple ts) :
    { s with params := Tuple.cells ts args }.clearBindings = s := by
  rw [Sql.Prepared.clearBindings, Tuple.length_cells]
  exact congrArg (Sql.Prepared.mk s.statement) unbound.symm

namespace DBOutStream

theorem writeAll_singleton (ts : List ColumnType) (s : Sql.Prepared Value) (args : Tuple ts) :
    writeAll ts s [args] = write ts s args := by
  rw [writeAll, List.foldlM_cons]
  exact bind_pure _

theorem write_on (unbound : Unbound ts s)
    (h : (Sql.exec (s.statement (Tuple.cells ts args))).on c = (.ok (), c')) :
    (write ts s args).on c = (.ok s, c') := by
  rw [write, unbound.bindImpl_ok, on_bind (on_lift _), on_bind h, on_pure, unbound.clearBindings]

theorem of_write (unbound : Unbound ts s) (h : (write ts s args).on c = (.ok s', c')) :
    s' = s ∧ (Sql.exec (s.statement (Tuple.cells ts args))).on c = (.ok (), c') := by
  rw [write, unbound.bindImpl_ok, on_bind (on_lift _)] at h
  obtain ⟨_, d, hexec, h⟩ := of_on_bind h
  rw [unbound.clearBindings] at h
  cases h
  exact ⟨rfl, hexec⟩

/-- The row that a stream of insertions makes of a tuple. -/
def rowOf (values : Sql.Cells Value → List (String × Option Value)) (args : Tuple ts) :
    Sql.Row Value :=
  Sql.row (values (Tuple.cells ts args))

/-- If all insertions succeed, all rows are there, in the order they were written. -/
theorem of_writeAll (unbound : Unbound ts s)
    (inserts : s.statement = fun p => .insert table (values p))
    (here : c.tables.lookup table = some t) (h : (writeAll ts s rows).on c = (.ok s', c')) :
    c'.tables.lookup table = some { t with rows := t.rows ++ rows.map (rowOf values) } := by
  have := of_on_foldlM (I := fun done (s₁ : Sql.Prepared Value) d => s₁ = s ∧
    d.tables.lookup table = some { t with rows := t.rows ++ done.map (rowOf values) }) ?_
    ⟨rfl, by simp [here]⟩ h
  · exact this.2
  · rintro done args s₁ d s₂ d' ⟨rfl, held⟩ h
    obtain ⟨rfl, h⟩ := of_write unbound h
    rw [inserts] at h
    refine ⟨rfl, (Sql.of_exec_insert held h).trans ?_⟩
    simp [rowOf]

theorem of_writeAll_same (unbound : Unbound ts s) (h : (writeAll ts s rows).on c = (.ok s', c')) :
    s' = s := by
  apply of_on_foldlM (I := fun _ (s₁ : Sql.Prepared Value) _ => s₁ = s) ?_ rfl h
  rintro done args s₁ d s₂ d' rfl h
  exact (of_write unbound h).1

theorem writeAll_confined (unbound : Unbound ts s)
    (inserts : s.statement = fun p => .insert table (values p)) (rows : List (Tuple ts)) :
    Sql.Confined .whole (writeAll ts s rows) := by
  apply Sql.Confined.foldlM (I := (· = s)) ?_ ?_ rfl
  · rintro _ args rfl
    rw [write, unbound.bindImpl_ok]
    apply (Sql.Confined.lift _).bind_of
    rintro c bound d h
    cases h
    refine (Sql.Confined.exec ?_).bind fun _ => .pure _
    rw [inserts]
    trivial
  · rintro _ args c s' c' rfl h
    exact (of_write unbound h).1

theorem of_writeAll_ne (unbound : Unbound ts s)
    (inserts : s.statement = fun p => .insert table (values p)) {other : String} (ne : other ≠ table)
    (h : (writeAll ts s rows).on c = (.ok s', c')) :
    c'.tables.lookup other = c.tables.lookup other := by
  have := of_on_foldlM (I := fun _ (s₁ : Sql.Prepared Value) d => s₁ = s ∧
    d.tables.lookup other = c.tables.lookup other) ?_ ⟨rfl, rfl⟩ h
  · exact this.2
  · rintro done args s₁ d s₂ d' ⟨rfl, same⟩ h
    obtain ⟨rfl, h⟩ := of_write unbound h
    rw [inserts] at h
    exact ⟨rfl, (Sql.of_exec_insert_ne ne h).trans same⟩

theorem write_takes (unbound : Unbound ts s)
    (h : c.apply (s.statement (Tuple.cells ts args)) = .ok c') (saved : c'.saved = c.saved) :
    Sql.Takes (write ts s args) c 1 s c' := by
  let bound : Sql.Prepared Value := { s with params := Tuple.cells ts args }
  have takes := (Sql.Takes.lift bound c).bind
    (f := fun s => do Sql.exec (s.statement s.params); return s.clearBindings)
    ((Sql.Takes.exec h saved).bind (f := fun _ => pure bound.clearBindings) (.pure _ c'))
  rw [unbound.clearBindings] at takes
  rw [write, unbound.bindImpl_ok]
  exact takes

/-- All insertions succeed if in the end the table meets its constraints, none of
which is about the table itself. -/
theorem writeAll_takes (unbound : Unbound ts s)
    (inserts : s.statement = fun p => .insert table (values p))
    (here : c.tables.lookup table = some t)
    (known : ∀ args : Tuple ts, ∀ v ∈ values (Tuple.cells ts args),
      v.1 ∈ t.columns.map Sql.Column.name)
    (elsewhere : ∀ column ∈ t.columns, ∀ key ∈ column.references, key.1 ≠ table)
    (meets : Sql.Table.Meets { t with rows := t.rows ++ rows.map (rowOf values) } c.tables) :
    ∃ c', Sql.Takes (writeAll ts s rows) c rows.length s c' ∧
      c'.tables.lookup table = some { t with rows := t.rows ++ rows.map (rowOf values) } ∧
      ∀ other ≠ table, c'.tables.lookup other = c.tables.lookup other := by
  induction rows generalizing c t with
  | nil => exact ⟨c, .pure s c, by simp [here], fun _ _ => rfl⟩
  | cons args rows ih =>
    let more : Sql.Table Value := { t with rows := t.rows ++ [rowOf values args] }
    have all : t.rows ++ (args :: rows).map (rowOf values) =
        more.rows ++ rows.map (rowOf values) := by
      simp [more]
    rw [all] at meets
    have now : more.Meets c.tables := meets.sublist (List.sublist_append_left _ _)
    have inserted := Sql.apply_insert here (known args) elsewhere now
    let d : Sql.Connection Value := { c with tables := c.tables.insert table more }
    have written : Sql.Takes (write ts s args) c 1 s d :=
      write_takes unbound (by rw [inserts]; exact inserted) rfl
    have others : ∀ other ≠ table, d.tables.lookup other = c.tables.lookup other :=
      fun other ho => AList.lookup_insert_ne ho
    obtain ⟨c', rest, held, same⟩ := ih (c := d) (t := more) (AList.lookup_insert _) known elsewhere
      (meets.congr fun column hcolumn key hkey => others key.1 (elsewhere column hcolumn key hkey))
    refine ⟨c', ?_, by rw [all]; exact held, fun other ho => (same other ho).trans (others other ho)⟩
    have takes := written.bind (f := fun s => writeAll ts s rows) rest
    rwa [Nat.add_comm] at takes

theorem writeAll_on (calm : c.failing = none) (unbound : Unbound ts s)
    (inserts : s.statement = fun p => .insert table (values p))
    (here : c.tables.lookup table = some t)
    (known : ∀ args : Tuple ts, ∀ v ∈ values (Tuple.cells ts args),
      v.1 ∈ t.columns.map Sql.Column.name)
    (elsewhere : ∀ column ∈ t.columns, ∀ key ∈ column.references, key.1 ≠ table)
    (meets : Sql.Table.Meets { t with rows := t.rows ++ rows.map (rowOf values) } c.tables) :
    ∃ c', (writeAll ts s rows).on c = (.ok s, c') ∧ c'.failing = none ∧ c'.saved = c.saved ∧
      c'.tables.lookup table = some { t with rows := t.rows ++ rows.map (rowOf values) } ∧
      ∀ other ≠ table, c'.tables.lookup other = c.tables.lookup other := by
  obtain ⟨c', takes, rest⟩ := writeAll_takes unbound inserts here known elsewhere meets
  exact ⟨_, takes.on_calm calm, rfl, takes.saved, rest⟩

end DBOutStream

end

theorem of_transaction {body : DbSession Unit} {c c' : Sql.Connection Value}
    (h : (transaction body).on c = (.ok (), c')) :
    ∃ d d', d.tables = c.tables ∧ body.on d = (.ok (), d') ∧ c'.tables = d'.tables ∧
      c'.saved = none := by
  obtain ⟨_, d, hbegin, h⟩ := of_on_bind h
  obtain ⟨_, d', hbody, hcommit⟩ := of_on_bind (on_onError.mp h)
  exact ⟨d, d', Sql.of_exec_begin hbegin, hbody, Sql.of_exec_commit hcommit⟩

section
variable {body : DbSession Unit} {c d : Sql.Connection Value} {count : ℕ}

theorem transaction_done (idle : c.saved = none)
    (takes : Sql.Takes body { c with saved := some c.tables } count () d) (left : Option ℕ) :
    (transaction body).on { c with failing := left.map (· + (count + 2)) } =
      (.ok (), { d with saved := none, failing := left }) := by
  have turns : left.map (· + (count + 2)) =
      ((left.map (· + 1)).map (· + count)).map (· + 1) := by
    cases left with
    | none => rfl
    | some k => simp; omega
  have ongoing : d.saved.isSome := by rw [takes.saved]; rfl
  rw [transaction, turns, on_bind (Sql.exec_next (Sql.apply_begin idle) _), on_onError,
    on_bind (takes.done _)]
  exact Sql.exec_next (Sql.apply_commit ongoing) left

/-- Whichever statement fails, the tables are as they were before the transaction. -/
theorem transaction_failed (idle : c.saved = none)
    (takes : Sql.Takes body { c with saved := some c.tables } count () d) {k : ℕ}
    (hk : k < count + 2) : (transaction body).on { c with failing := some k } =
      (.error .failed, { c with failing := none }) := by
  have undone (tables : Sql.Database Value) :
      (Sql.exec .rollback).on ⟨tables, some c.tables, none⟩ =
        (.ok (), { c with failing := none }) := by
    obtain ⟨before, saved, failing⟩ := c
    obtain rfl : saved = none := idle
    exact Sql.exec_on rfl rfl
  cases k with
  | zero => rw [transaction, on_bind_error Sql.exec_failed]
  | succ k =>
    have begins := Sql.exec_next (Sql.apply_begin idle) (some k)
    rw [Option.map_some] at begins
    rw [transaction, on_bind begins]
    by_cases early : k < count
    · obtain ⟨tables, failed⟩ := takes.failed k early
      exact on_onError_error (on_bind_error failed) (undone tables)
    · obtain rfl : k = count := by omega
      have reached := takes.done (some 0)
      rw [Option.map_some, Nat.zero_add] at reached
      refine on_onError_error (t := ⟨d.tables, some c.tables, none⟩) ?_ (undone d.tables)
      rw [on_bind reached, Sql.exec_failed, takes.saved]

end

theorem transaction_on {body : DbSession Unit} {c d : Sql.Connection Value}
    (calm : c.failing = none) (idle : c.saved = none)
    (h : body.on { c with saved := some c.tables } = (.ok (), d)) (calm' : d.failing = none)
    (ongoing : d.saved.isSome) : (transaction body).on c = (.ok (), { d with saved := none }) := by
  rw [transaction, on_bind (Sql.exec_on calm (Sql.apply_begin idle)), on_onError, on_bind h]
  exact Sql.exec_on calm' (Sql.apply_commit ongoing)

/-! ## What is read -/

section
variable {S : Sqlite} {ts : List ColumnType}

/-- The stream holds these rows, the first of them in its buffer. -/
inductive DBInStream.Holds (S : Sqlite) : DBInStream ts → List (Tuple ts) → Prop where
  | done : Holds S ⟨none, none⟩ []
  | ahead {rest : List (Sql.Cells Value)} {row : Tuple ts} {rows : List (Tuple ts)}
      (unpacked : List.Forall₂ (fun cells args => unpackImpl S cells 0 ts = .ok args) rest rows) :
      Holds S ⟨some rest, some row⟩ (row :: rows)

theorem DBInStream.fetch_ok {rest : List (Sql.Cells Value)} {rows : List (Tuple ts)}
    (unpacked : List.Forall₂ (fun cells args => unpackImpl S cells 0 ts = .ok args) rest rows)
    (nextRow : Option (Tuple ts)) :
    ∃ s, DBInStream.fetch S ⟨some rest, nextRow⟩ = .ok s ∧ s.Holds S rows := by
  cases unpacked with
  | nil => exact ⟨⟨none, none⟩, rfl, .done⟩
  | @cons cells row rest rows here unpacked =>
    refine ⟨⟨some rest, some row⟩, ?_, .ahead unpacked⟩
    simp only [fetch, here, ok_bind]
    rfl

theorem DBInStream.Holds.read_ok {s : DBInStream ts} {row : Tuple ts} {rows : List (Tuple ts)}
    (holds : s.Holds S (row :: rows)) : ∃ s', s.read S = .ok (row, s') ∧ s'.Holds S rows := by
  cases holds with
  | @ahead rest _ _ unpacked =>
    obtain ⟨s', hs, holds⟩ := fetch_ok unpacked (some row)
    exact ⟨s', by rw [DBInStream.read, hs, ok_bind]; rfl, holds⟩

/-- The iterator and its stream have these rows yet to deliver, the first of them in
the iterator. -/
inductive DBInputIt.Ahead (S : Sqlite) : DBInputIt ts → DBInStream ts → List (Tuple ts) → Prop where
  | end_ (value : Option (Tuple ts)) (s : DBInStream ts) : Ahead S ⟨false, value⟩ s []
  | at_ {s : DBInStream ts} {row : Tuple ts} {rows : List (Tuple ts)} (holds : s.Holds S rows) :
      Ahead S ⟨true, some row⟩ s (row :: rows)

theorem DBInputIt.fetch_ok {s : DBInStream ts} {rows : List (Tuple ts)} (holds : s.Holds S rows)
    (value : Option (Tuple ts)) :
    ∃ next, fetch S ⟨true, value⟩ s = .ok next ∧ Ahead S next.1 next.2 rows := by
  cases holds with
  | done => exact ⟨_, rfl, .end_ value _⟩
  | @ahead rest row rows unpacked =>
    have held : DBInStream.Holds S ⟨some rest, some row⟩ (row :: rows) := .ahead unpacked
    obtain ⟨s', hs, holds'⟩ := held.read_ok
    refine ⟨(⟨true, some row⟩, s'), ?_, .at_ holds'⟩
    simp only [fetch, DBInStream.eof, Option.isNone_some, if_true, Bool.false_eq_true, if_false,
      hs, ok_bind]
    rfl

/-- Every row is delivered once, in turn, and then the loop ends. -/
theorem DBInputIt.turns_ok {σ : Type} (body : σ → Tuple ts → σ) {it : DBInputIt ts}
    {s : DBInStream ts} {rows : List (Tuple ts)} (ahead : Ahead S it s rows) {fuel : ℕ}
    (enough : rows.length < fuel) (acc : σ) :
    turns S body fuel it s acc = .ok (rows.foldl body acc) := by
  induction rows generalizing fuel it s acc with
  | nil =>
    cases ahead
    match fuel, enough with
    | fuel + 1, _ => rfl
  | cons row rows ih =>
    cases ahead with
    | at_ holds =>
      match fuel, enough with
      | fuel + 1, enough =>
        obtain ⟨⟨it', s'⟩, hfetch, ahead⟩ := fetch_ok holds (some row)
        have rest := ih ahead (Nat.lt_of_succ_lt_succ enough) (body acc row)
        rw [turns, if_neg (by simp [equal, end_]), DBInputIt.get]
        simp only [ok_bind, hfetch, rest, List.foldl_cons]

theorem forEach_ok {σ : Type} (body : σ → Tuple ts → σ) {result : List (Sql.Cells Value)}
    {rows : List (Tuple ts)}
    (unpacked : List.Forall₂ (fun cells args => unpackImpl S cells 0 ts = .ok args) result rows)
    {fuel : ℕ} (enough : rows.length < fuel) (acc : σ) :
    forEach S ts fuel result body acc = .ok (rows.foldl body acc) := by
  obtain ⟨s, hs, holds⟩ := DBInStream.fetch_ok unpacked none
  obtain ⟨⟨it, s'⟩, hit, ahead⟩ := DBInputIt.fetch_ok holds none
  rw [forEach, DBInStream.new, hs, ok_bind, DBInputIt.begin_, hit, ok_bind]
  exact DBInputIt.turns_ok body ahead enough acc

end

end Dupa
