import Dupa.StoredComparison

/-!
# What the tables of a comparison tell

The rows of the six tables, in any order, are all there is to know about a report but for
the order of its candidates; so with the first directory they give the second one away,
except for contents that the first one does not have (`stored_comparison_determines`).
-/

namespace Dupa

variable {e e' : Event Bytes} {events events' : List (Event Bytes)}

namespace Event

/-- A row is written for each candidate, or one without a candidate. -/
def parts (e : Event Bytes) : List (Option Bytes) :=
  match e.candidates with
  | some candidates => candidates.map some
  | none => [none]

/-- The column of the candidate, if the table has one. -/
def candidateName (t : String × List Sql.Column) : String := (t.2.map Sql.Column.name)[1]?.getD ""

/-- A row that tells of a path and of a candidate. -/
def Says (t : String × List Sql.Column) (f : Bytes) (part : Option Bytes) (row : Sql.Row Value) :
    Prop :=
  row "path" = some (.text (strncpy f)) ∧
    row (candidateName t) = part.map fun c => .text (strncpy c)

theorem says_of_mem {row : Sql.Row Value} (hrow : row ∈ e.rows) :
    ∃ part ∈ e.parts, Says e.table e.subject part row := by
  cases e with
  | overwrittenBy f candidates | copiedFrom f candidates | renameTo f candidates =>
    obtain ⟨args, hargs, rfl⟩ := List.mem_map.mp hrow
    obtain ⟨candidate, hc, rfl⟩ := List.mem_map.mp hargs
    exact ⟨some candidate, List.mem_map_of_mem hc, rfl, rfl⟩
  | contentChanged f | removed f | newFile f =>
    obtain rfl := List.mem_singleton.mp hrow
    exact ⟨none, List.mem_singleton_self _, rfl, rfl⟩

theorem mem_rows_of_part {part : Option Bytes} (hpart : part ∈ e.parts) :
    ∃ row ∈ e.rows, Says e.table e.subject part row := by
  cases e with
  | overwrittenBy f candidates | copiedFrom f candidates | renameTo f candidates =>
    obtain ⟨candidate, hc, rfl⟩ := List.mem_map.mp hpart
    exact ⟨_, List.mem_map_of_mem (List.mem_map_of_mem hc), rfl, rfl⟩
  | contentChanged f | removed f | newFile f =>
    obtain rfl := List.mem_singleton.mp hpart
    exact ⟨_, List.mem_map_of_mem (List.mem_singleton_self _), rfl, rfl⟩

theorem sorted_eq (table : e.table = e'.table) (subject : e.subject = e'.subject)
    (parts : e.parts.Perm e'.parts) : e.sorted = e'.sorted := by
  have candidates {cs ds : List Bytes} (perm : (cs.map some).Perm (ds.map some)) : cs.Perm ds := by
    simpa using perm.filterMap id
  cases e <;> cases e' <;> simp_all [Event.table, Event.subject, Event.parts, Event.candidates,
    Event.sorted, sortedPaths_eq_iff]

/-- No path contains a zero. -/
def Plain (e : Event Bytes) : Prop := 0 ∉ e.subject ∧ ∀ c, some c ∈ e.parts → 0 ∉ c

end Event

/-- A list of calls as `DirCompare` makes them. -/
structure Reported (events : List (Event Bytes)) : Prop where
  subjects : (events.map Event.subject).Nodup
  nodup : ∀ e ∈ events, e.parts.Nodup
  ne_nil : ∀ e ∈ events, e.parts ≠ []
  plain : ∀ e ∈ events, e.Plain

theorem mem_tableOf {t : String × List Sql.Column} {row : Sql.Row Value} :
    row ∈ (tableOf events t).rows ↔ ∃ e ∈ events, e.table = t ∧ row ∈ e.rows := by
  simp [tableOf, List.mem_flatMap, and_assoc]

/-- Of two reports with the same rows, each call of one is in the other one as well. -/
theorem Reported.matched (told : Reported events) (told' : Reported events')
    (rows : ∀ t ∈ compareTables, ∀ row ∈ (tableOf events t).rows, row ∈ (tableOf events' t).rows)
    (he : e ∈ events) : ∃ e' ∈ events', e'.table = e.table ∧ e'.subject = e.subject ∧
      ∀ part ∈ e.parts, part ∈ e'.parts := by
  have found {part : Option Bytes} (hpart : part ∈ e.parts) : ∃ e' ∈ events', e'.table = e.table ∧
      e'.subject = e.subject ∧ part ∈ e'.parts := by
    obtain ⟨row, hrow, path, candidate⟩ := Event.mem_rows_of_part hpart
    obtain ⟨e', he', table, hrow'⟩ :=
      mem_tableOf.mp (rows e.table e.table_mem row (mem_tableOf.mpr ⟨e, he, rfl, hrow⟩))
    obtain ⟨part', hpart', path', candidate'⟩ := Event.says_of_mem hrow'
    have subject : e'.subject = e.subject := by
      have same := Value.text.inj (Option.some.inj (path'.symm.trans path))
      rwa [strncpy_of_plain (told'.plain e' he').1, strncpy_of_plain (told.plain e he).1] at same
    have part_eq : part' = part := by
      rw [table, candidate] at candidate'
      cases part with
      | none => cases part' with
        | none => rfl
        | some d => cases candidate'
      | some c => cases part' with
        | none => cases candidate'
        | some d =>
          have same := Value.text.inj (Option.some.inj candidate')
          rw [strncpy_of_plain ((told.plain e he).2 c hpart),
            strncpy_of_plain ((told'.plain e' he').2 d hpart')] at same
          rw [same]
    exact ⟨e', he', table, subject, part_eq ▸ hpart'⟩
  obtain ⟨part, hpart⟩ := List.exists_mem_of_ne_nil _ (told.ne_nil e he)
  obtain ⟨e', he', table, subject, -⟩ := found hpart
  refine ⟨e', he', table, subject, fun part hpart => ?_⟩
  -- The path of a call is that of no other one.
  obtain ⟨e'', he'', -, subject', hpart'⟩ := found hpart
  rwa [List.inj_on_of_nodup_map told'.subjects he' he'' (subject.trans subject'.symm)]

theorem Reported.sorted_mem (told : Reported events) (told' : Reported events')
    (rows : ∀ t ∈ compareTables, ∀ row, row ∈ (tableOf events t).rows ↔
      row ∈ (tableOf events' t).rows) (he : e ∈ events) : e.sorted ∈ events'.map Event.sorted := by
  obtain ⟨e', he', table, subject, parts⟩ :=
    told.matched told' (fun t ht row => (rows t ht row).mp) he
  obtain ⟨e'', he'', -, subject', parts'⟩ :=
    told'.matched told (fun t ht row => (rows t ht row).mpr) he'
  obtain rfl := List.inj_on_of_nodup_map told.subjects he he'' (subject'.trans subject).symm
  have perm : e.parts.Perm e'.parts := by
    rw [List.perm_ext_iff_of_nodup (told.nodup e he) (told'.nodup e' he')]
    exact fun part => ⟨parts part, parts' part⟩
  exact List.mem_map.mpr ⟨e', he', (Event.sorted_eq table.symm subject.symm perm).symm⟩

section
variable {skipRenames : Bool} {m1 m2 : PathHashes Bytes}

theorem dirCompare_reported (plain1 : m1.Plain) (plain2 : m2.Plain) :
    Reported (dirCompare skipRenames m1 m2) where
  subjects := subjects_nodup
  nodup e he := by
    cases hcs : e.candidates with
    | none => simp [Event.parts, hcs]
    | some cs =>
      rw [Event.parts, hcs]
      exact (candidates_nodup he hcs).map (Option.some_injective _)
  ne_nil e he := by
    cases hcs : e.candidates with
    | none => simp [Event.parts, hcs]
    | some cs => simp [Event.parts, hcs, (candidates_known he hcs).1]
  plain e he := by
    refine ⟨(subject_known he).elim (plain1 _) (plain2 _), fun c hc => ?_⟩
    cases hcs : e.candidates with
    | none => simp [Event.parts, hcs] at hc
    | some cs =>
      have hc : c ∈ cs := by simpa [Event.parts, hcs] using hc
      exact (candidate_known he hcs hc).elim (plain1 _) (plain2 _)

end

/-- The paths that are in a table. -/
theorem Reported.path_mem (told : Reported events) {db : Sql.Database Value}
    (stored : ∀ t ∈ compareTables, db.lookup t.1 = some (tableOf events t)) (he : e ∈ events) :
    .text e.subject ∈ db.values e.table.1 "path" := by
  obtain ⟨part, hpart⟩ := List.exists_mem_of_ne_nil _ (told.ne_nil e he)
  obtain ⟨row, hrow, path, -⟩ := Event.mem_rows_of_part hpart
  rw [strncpy_of_plain (told.plain e he).1] at path
  rw [Sql.Database.values, stored e.table e.table_mem]
  exact List.mem_filterMap.mpr ⟨row, mem_tableOf.mpr ⟨e, he, rfl, hrow⟩, path⟩

/-- Two comparisons of one directory with two others, each stored in some database: if the
tables have the same rows, in any order, the other directories are the same but for the
contents of the files that are named as changed or new. -/
theorem stored_comparison_determines {hashes1 hashes2 hashes2' : PathHashes Bytes}
    (plain1 : hashes1.Plain) (plain2 : hashes2.Plain) (plain2' : hashes2'.Plain)
    {s s' w w' : Console}
    (ran : (compareDirs true false hashes1 hashes2).on s = (.ok (), w))
    (ran' : (compareDirs true false hashes1 hashes2').on s' = (.ok (), w'))
    (same : ∀ t ∈ compareTables, ∃ rows rows', w.2.tables.lookup t.1 = some ⟨t.2, rows⟩ ∧
      w'.2.tables.lookup t.1 = some ⟨t.2, rows'⟩ ∧ rows.Perm rows')
    {p : Bytes} (changed : .text p ∉ w.2.tables.values "ContentChanged" "path")
    (new : .text p ∉ w.2.tables.values "NewFile" "path") : hashes2.find p = hashes2'.find p := by
  obtain ⟨-, -, tables, -⟩ := of_compareDirs ran
  obtain ⟨-, -, tables', -⟩ := of_compareDirs ran'
  have told : Reported (dirCompare false hashes1 hashes2) := dirCompare_reported plain1 plain2
  have told' : Reported (dirCompare false hashes1 hashes2') := dirCompare_reported plain1 plain2'
  have rows (t) (ht : t ∈ compareTables) (row : Sql.Row Value) :
      row ∈ (tableOf (dirCompare false hashes1 hashes2) t).rows ↔
        row ∈ (tableOf (dirCompare false hashes1 hashes2') t).rows := by
    obtain ⟨rows, rows', here, here', perm⟩ := same t ht
    rw [tables t ht, Option.some.injEq] at here
    rw [tables' t ht, Option.some.injEq] at here'
    rw [here, here', perm.mem_iff]
  apply (explains hashes1 hashes2).determined_sorted (explains hashes1 hashes2')
  · intro e
    constructor
    · intro he
      obtain ⟨d, hd, rfl⟩ := List.mem_map.mp he
      exact told.sorted_mem told' rows hd
    · intro he
      obtain ⟨d, hd, rfl⟩ := List.mem_map.mp he
      exact told'.sorted_mem told (fun t ht row => (rows t ht row).symm) hd
  · exact fun he => changed (told.path_mem tables he)
  · exact fun he => new (told.path_mem tables he)

/-- The change of `a` does not show, and all else does. -/
theorem stored_comparison_determines_rest :
    (comparedSecond 3).find [98] = (comparedSecond 4).find [98] := by
  obtain ⟨w, ran⟩ := compareDirs_on false [] (c := ⟨∅, none, none⟩) rfl rfl
    (by decide) comparedFirst_plain (comparedSecond_plain 3)
  obtain ⟨w', ran'⟩ := compareDirs_on false [] (c := ⟨∅, none, none⟩) rfl rfl
    (by decide) comparedFirst_plain (comparedSecond_plain 4)
  obtain ⟨-, -, tables, -⟩ := of_compareDirs ran
  obtain ⟨-, -, tables', -⟩ := of_compareDirs ran'
  have same : dirCompare false comparedFirst (comparedSecond 3) =
      dirCompare false comparedFirst (comparedSecond 4) := by decide
  refine stored_comparison_determines comparedFirst_plain (comparedSecond_plain 3)
    (comparedSecond_plain 4) ran ran' (fun t ht => ⟨_, _, tables t ht, tables' t ht, ?_⟩) ?_ ?_
  · rw [same]
  · rw [Sql.Database.values, tables ("ContentChanged", pathColumns) (by decide)]
    decide +kernel
  · rw [Sql.Database.values, tables ("NewFile", pathColumns) (by decide)]
    decide +kernel

end Dupa
