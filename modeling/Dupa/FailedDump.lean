import Dupa.StoredCache

/-!
# A dump that fails

`StoreCksums` drops and creates its table before the transaction begins. Statements are
counted from zero: `DROP`, `CREATE`, `BEGIN`, the preparation of `INSERT`, one insertion
for each file, `COMMIT`. Once the table has been dropped its rows are lost, but the table
never holds only a part of the new ones, as long as `ROLLBACK` restores what was there at
`BEGIN`. The connection turns the journal off, so the database need not keep to that;
`Machine.Step.torn` is a dump that leaves a part.
-/

namespace Dupa

open Checked Session

variable {c : Sql.Connection Value}

theorem storeCksums_failed (cache : CacheMap) (idle : c.saved = none)
    (free : ¬c.tables.Referenced "FileList") {k : ℕ} (hk : k < cache.entries.length + 5) :
    (storeCksums cache.entries).on { c with failing := some k } = (.error .failed, { c with
      tables :=
        if k = 0 then c.tables else if k = 1 then c.tables.erase "FileList" else emptied c.tables
      failing := none }) := by
  match k with
  | 0 => exact on_bind_error (on_bind_error Sql.exec_failed)
  | 1 =>
    have drops := Sql.exec_next (Sql.apply_drop free) (some 0)
    exact on_bind_error ((on_bind drops).trans Sql.exec_failed)
  | k + 2 =>
    let begun : Sql.Connection Value :=
      { c with tables := emptied c.tables, saved := some (emptied c.tables) }
    obtain ⟨d, takes, -⟩ := insertAll_takes cache (d := begun) (AList.lookup_insert _)
    have empties := (createOrEmptyTable_takes free).done (some k)
    have fails := transaction_failed (c := { c with tables := emptied c.tables }) idle takes
      (k := k) (by omega)
    exact (on_bind empties).trans fails

/-- A refused `DROP` ends the dump before it has changed anything. -/
theorem storeCksums_refused (entries : List (Bytes × FileInfo))
    (referenced : c.tables.Referenced "FileList") :
    ∃ e c', (storeCksums entries).on c = (.error e, c') ∧ c'.tables = c.tables ∧
      c'.saved = c.saved := by
  obtain ⟨e, d, refused, tables, saved⟩ := Sql.drop_refused referenced
  exact ⟨e, d, on_bind_error (on_bind_error refused), tables, saved⟩

/-- What the database has for the cache. -/
def fileList (c : Sql.Connection Value) : Option (Sql.Table Value) := c.tables.lookup "FileList"

/-- After a dump there is what was there before, or the new rows. -/
def AllOrNothing (entries : List (Bytes × FileInfo)) (c c' : Sql.Connection Value) : Prop :=
  fileList c' = fileList c ∨ fileList c' = some ⟨fileListColumns, fileRows entries⟩

/-- How a dump ends, and what is there for the cache then, by the statement that fails. -/
inductive DumpEnds (entries : List (Bytes × FileInfo)) (c : Sql.Connection Value) :
    Except Sql.Error Unit → Option (Sql.Table Value) → Prop where
  | stored (free : ¬c.tables.Referenced "FileList")
      (later : ∀ k, c.failing = some k → entries.length + 5 ≤ k) :
      DumpEnds entries c (.ok ()) (some ⟨fileListColumns, fileRows entries⟩)
  /-- `DROP` fails. -/
  | kept (e : Sql.Error) (refused : c.tables.Referenced "FileList" ∨ c.failing = some 0) :
      DumpEnds entries c (.error e) (fileList c)
  /-- `CREATE` fails. -/
  | missing (e : Sql.Error) (free : ¬c.tables.Referenced "FileList") (create : c.failing = some 1) :
      DumpEnds entries c (.error e) none
  /-- A statement of the transaction fails. -/
  | empty (e : Sql.Error) (free : ¬c.tables.Referenced "FileList") (k : ℕ)
      (inside : c.failing = some k) (begun : 2 ≤ k) (early : k < entries.length + 5) :
      DumpEnds entries c (.error e) (some ⟨fileListColumns, []⟩)

/-- For every database, every cache and every statement that fails: what is there after the
dump are the old rows, all new rows, no table, or an empty one. -/
theorem dump_outcome (cache : CacheMap) (idle : c.saved = none) :
    ∃ result c', (storeCksums cache.entries).on c = (result, c') ∧ c'.saved = none ∧
      DumpEnds cache.entries c result (fileList c') := by
  by_cases referenced : c.tables.Referenced "FileList"
  · obtain ⟨e, c', fails, tables, saved⟩ := storeCksums_refused cache.entries referenced
    refine ⟨_, c', fails, saved.trans idle, ?_⟩
    rw [fileList, tables]
    exact .kept e (Or.inl referenced)
  · obtain ⟨tables, saved, failing⟩ := c
    have completes (left : Option ℕ) :
        ∃ c', (storeCksums cache.entries).on
            ⟨tables, saved, left.map (· + (cache.entries.length + 5))⟩ = (.ok (), c') ∧
          fileList c' = some ⟨fileListColumns, fileRows cache.entries⟩ ∧ c'.saved = none :=
      storeCksums_done (c := ⟨tables, saved, none⟩) cache idle referenced left
    cases failing with
    | none =>
      obtain ⟨c', stored, held, committed⟩ := completes none
      refine ⟨_, c', stored, committed, ?_⟩
      rw [held]
      exact .stored referenced (by simp)
    | some k =>
      by_cases early : k < cache.entries.length + 5
      · have fails := storeCksums_failed (c := ⟨tables, saved, none⟩) cache idle referenced early
        refine ⟨_, _, fails, idle, ?_⟩
        match k with
        | 0 => exact .kept _ (Or.inr rfl)
        | 1 =>
          have missing : fileList ⟨tables.erase "FileList", saved, none⟩ = none :=
            AList.lookup_erase ..
          change DumpEnds _ _ _ (fileList ⟨tables.erase "FileList", saved, none⟩)
          rw [missing]
          exact .missing _ referenced rfl
        | k + 2 =>
          have empty : fileList ⟨emptied tables, saved, none⟩ = some ⟨fileListColumns, []⟩ :=
            AList.lookup_insert _
          change DumpEnds _ _ _ (fileList ⟨emptied tables, saved, none⟩)
          rw [empty]
          exact .empty _ referenced (k + 2) rfl (by omega) early
      · obtain ⟨c', stored, held, committed⟩ := completes (some (k - (cache.entries.length + 5)))
        rw [Option.map_some, Nat.sub_add_cancel (not_lt.mp early)] at stored
        refine ⟨_, c', stored, committed, ?_⟩
        rw [held]
        refine .stored referenced ?_
        rintro _ ⟨⟩
        exact not_lt.mp early

/-- The cache of one file, and a dump over it whose second insertion fails. -/
def dumpedBefore : Sql.Connection Value where
  tables := AList.singleton "FileList" ⟨fileListColumns, fileRows [([98], ⟨3, -4, 5⟩)]⟩
  saved := none
  failing := some 5

theorem dump_outcome_twoFiles : ∃ e c',
    (storeCksums twoFiles.entries).on dumpedBefore = (.error e, c') ∧
      fileList c' = some ⟨fileListColumns, []⟩ := by
  obtain ⟨result, c', fails, -, ends⟩ := dump_outcome (c := dumpedBefore) twoFiles rfl
  generalize there : fileList c' = table at ends
  cases ends with
  | stored _ later => exact absurd (later 5 rfl) (by decide)
  | kept _ refused => exact absurd refused (by decide)
  | missing _ _ create => exact absurd create (by decide)
  | empty e => exact ⟨e, c', fails, there⟩

/-- The old cache is lost, and the new one is not there. -/
theorem dump_loses_cache : ∃ e c',
    (storeCksums twoFiles.entries).on dumpedBefore = (.error e, c') ∧
      ¬ AllOrNothing twoFiles.entries dumpedBefore c' := by
  have fails := storeCksums_failed (c := dumpedBefore) twoFiles rfl (by decide) (k := 5) (by decide)
  refine ⟨_, _, fails, ?_⟩
  have empty : fileList { dumpedBefore with
      tables := emptied dumpedBefore.tables, failing := none } = some ⟨fileListColumns, []⟩ :=
    AList.lookup_insert _
  rintro (same | new)
  · have rows := congrArg (Option.map fun t => t.rows.length) (empty.symm.trans same)
    exact absurd rows (by decide)
  · have rows := congrArg (Option.map fun t => t.rows.length) (empty.symm.trans new)
    exact absurd rows (by decide)

end Dupa
