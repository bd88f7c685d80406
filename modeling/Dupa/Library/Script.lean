import Dupa.Library.Atomic

/-! Statements in a row, and scripts that drop tables and create them again. -/

namespace Sql

open Checked Session

variable {V : Type} [DecidableEq V] {c d : Connection V}

/-- `sqlite3_exec`: the statements of a script, until one fails. -/
def execAll (script : List (Statement V)) : Session Error (Connection V) Unit :=
  script.foldlM (fun _ s => exec s) ()

theorem execAll_cons {s : Statement V} (script : List (Statement V))
    (h : (exec s).on c = (.ok (), d)) : (execAll (s :: script)).on c = (execAll script).on d := by
  rw [execAll, List.foldlM_cons, on_bind h]
  rfl

theorem of_execAll_cons {s : Statement V} {script : List (Statement V)}
    (h : (execAll (s :: script)).on c = (.ok (), d)) :
    ∃ b, (exec s).on c = (.ok (), b) ∧ (execAll script).on b = (.ok (), d) := by
  rw [execAll, List.foldlM_cons] at h
  obtain ⟨_, b, first, rest⟩ := of_on_bind h
  exact ⟨b, first, rest⟩

theorem of_execAll_append {script more : List (Statement V)}
    (h : (execAll (script ++ more)).on c = (.ok (), d)) :
    ∃ b, (execAll script).on c = (.ok (), b) ∧ (execAll more).on b = (.ok (), d) := by
  rw [execAll, List.foldlM_append] at h
  obtain ⟨_, b, first, rest⟩ := of_on_bind h
  exact ⟨b, first, rest⟩

theorem execAll_append {script : List (Statement V)} (more : List (Statement V))
    (h : (execAll script).on c = (.ok (), d)) :
    (execAll (script ++ more)).on c = (execAll more).on d := by
  rw [execAll, List.foldlM_append]
  exact on_bind h

theorem Confined.execAll {script : List (Statement V)} (inside : ∀ s ∈ script, s.Inside) :
    Confined .whole (execAll script) := by
  rw [Sql.execAll]
  induction script with
  | nil => exact pure ()
  | cons s script ih =>
    rw [List.foldlM_cons]
    exact (exec (inside s List.mem_cons_self)).bind fun _ =>
      ih fun s hs => inside s (List.mem_cons_of_mem _ hs)

/-! ## Dropping -/

omit [DecidableEq V] in
/-- With fewer tables there are fewer references. -/
theorem Database.Referenced.of_erase {db : Database V} {table other : String}
    (referenced : Database.Referenced (db.erase other) table) : db.Referenced table := by
  obtain ⟨t, ht, column, hcolumn, unique, v, hv, from_, hfrom, rest⟩ := referenced
  have here : t ∈ db.lookup table := by
    by_cases same : table = other
    · rw [same, AList.lookup_erase] at ht
      cases ht
    · rwa [AList.lookup_erase_ne same] at ht
  have kept : from_ ∈ db.entries := (List.kerase_sublist other db.entries).subset hfrom
  exact ⟨t, here, column, hcolumn, unique, v, hv, from_, kept, rest⟩

theorem of_dropAll (tables : List String)
    (h : (execAll (tables.map .dropTableIfExists)).on c = (.ok (), d)) :
    (∀ t ∈ tables, d.tables.lookup t = none) ∧
      ∀ other ∉ tables, d.tables.lookup other = c.tables.lookup other := by
  induction tables generalizing c with
  | nil =>
    cases h
    exact ⟨by simp, fun _ _ => rfl⟩
  | cons table tables ih =>
    obtain ⟨b, first, rest⟩ := of_execAll_cons h
    obtain ⟨gone, others⟩ := ih rest
    have erased : b.tables = c.tables.erase table := of_exec_drop first
    refine ⟨fun t ht => ?_, fun other ho => ?_⟩
    · by_cases later : t ∈ tables
      · exact gone t later
      · obtain rfl : t = table := by simpa [later] using ht
        rw [others t later, erased, AList.lookup_erase]
    · obtain ⟨ne, later⟩ := not_or.mp (mt List.mem_cons.mpr ho)
      rw [others other later, erased, AList.lookup_erase_ne ne]

theorem dropAll_on (calm : c.failing = none) (tables : List String)
    (free : ∀ t ∈ tables, ¬c.tables.Referenced t) :
    ∃ d, (execAll (tables.map .dropTableIfExists)).on c = (.ok (), d) ∧ d.failing = none := by
  induction tables generalizing c with
  | nil => exact ⟨c, rfl, calm⟩
  | cons table tables ih =>
    have drops := exec_on calm (apply_drop (free table List.mem_cons_self))
    obtain ⟨d, rest, calm'⟩ := ih (c := { c with tables := c.tables.erase table }) calm
      fun t ht referenced => free t (List.mem_cons_of_mem _ ht) referenced.of_erase
    exact ⟨d, (execAll_cons _ drops).trans rest, calm'⟩

/-! ## Creating -/

theorem of_createAll {tables : List (String × List Column)} (distinct : (tables.map Prod.fst).Nodup)
    (h : (execAll (tables.map fun t => .createTable t.1 t.2)).on c = (.ok (), d)) :
    (∀ t ∈ tables, d.tables.lookup t.1 = some ⟨t.2, []⟩) ∧
      ∀ other ∉ tables.map Prod.fst, d.tables.lookup other = c.tables.lookup other := by
  induction tables generalizing c with
  | nil =>
    cases h
    exact ⟨by simp, fun _ _ => rfl⟩
  | cons table tables ih =>
    obtain ⟨absent, distinct⟩ := List.nodup_cons.mp distinct
    obtain ⟨b, first, rest⟩ := of_execAll_cons h
    obtain ⟨there, others⟩ := ih distinct rest
    have inserted : b.tables = c.tables.insert table.1 ⟨table.2, []⟩ := of_exec_create first
    refine ⟨fun t ht => ?_, fun other ho => ?_⟩
    · rcases List.mem_cons.mp ht with rfl | later
      · rw [others t.1 absent, inserted, AList.lookup_insert]
      · exact there t later
    · obtain ⟨ne, later⟩ := not_or.mp (mt List.mem_cons.mpr ho)
      rw [others other later, inserted, AList.lookup_insert_ne ne]

theorem createAll_on (calm : c.failing = none) {tables : List (String × List Column)}
    (distinct : (tables.map Prod.fst).Nodup) (absent : ∀ t ∈ tables, c.tables.lookup t.1 = none) :
    ∃ d, (execAll (tables.map fun t => .createTable t.1 t.2)).on c = (.ok (), d) ∧
      d.failing = none := by
  induction tables generalizing c with
  | nil => exact ⟨c, rfl, calm⟩
  | cons table tables ih =>
    obtain ⟨apart, distinct⟩ := List.nodup_cons.mp distinct
    have creates := exec_on calm (apply_create (absent table List.mem_cons_self) table.2)
    obtain ⟨d, rest, calm'⟩ := ih (c := { c with tables := c.tables.insert table.1 ⟨table.2, []⟩ })
      calm distinct fun t ht => by
        have ne : t.1 ≠ table.1 := fun same => apart (same ▸ List.mem_map_of_mem ht)
        exact (AList.lookup_insert_ne ne).trans (absent t (List.mem_cons_of_mem _ ht))
    exact ⟨d, (execAll_cons _ creates).trans rest, calm'⟩

end Sql
