import Dupa.CompareDb
import Dupa.Reports

/-!
# A stored comparison

No constraint of the six tables is ever violated, so only the database itself can keep a
comparison from being stored. Where it succeeds all of it is stored; whatever fails, and
wherever, what has been printed by then are whole lines (`comparison_stored`).
-/

namespace Dupa

open Checked Session

/-! ## The constraints -/

section
variable {events : List (Event Bytes)} {t : String × List Sql.Column} {e : Event Bytes}

theorem Event.notNull {row : Sql.Row Value} (hrow : row ∈ e.rows) {column : Sql.Column}
    (hcolumn : column ∈ e.table.2) : (row column.name).isSome := by
  cases e with
  | overwrittenBy f candidates | copiedFrom f candidates | renameTo f candidates =>
    obtain ⟨args, hargs, rfl⟩ := List.mem_map.mp hrow
    obtain ⟨candidate, -, rfl⟩ := List.mem_map.mp hargs
    fin_cases hcolumn <;> rfl
  | contentChanged f | removed f | newFile f =>
    obtain rfl := List.mem_singleton.mp hrow
    fin_cases hcolumn
    rfl

theorem Event.path_values (unique : e.table.2 = pathColumns) :
    e.rows.filterMap (· "path") = [.text (strncpy e.subject)] := by
  cases e with
  | overwrittenBy | copiedFrom | renameTo =>
    simp [table, pathColumns, candidateColumns] at unique
  | contentChanged | removed | newFile => rfl

/-- No path is in a table twice where it must not be. -/
theorem tableOf_meets (subjects : (events.map Event.subject).Nodup)
    (plain : ∀ e ∈ events, 0 ∉ e.subject) (ht : t ∈ compareTables) (db : Sql.Database Value) :
    (tableOf events t).Meets db := by
  intro column hcolumn
  refine ⟨fun _ row hrow => ?_, fun unique => ?_, fun key hkey => ?_⟩
  · obtain ⟨e, he, here⟩ := List.mem_flatMap.mp hrow
    obtain rfl : e.table = t := by simpa using (List.mem_filter.mp he).2
    exact e.notNull here hcolumn
  · obtain ⟨columns, name⟩ : t.2 = pathColumns ∧ column.name = "path" := by
      fin_cases ht <;> fin_cases hcolumn <;> simp_all [pathColumns]
    have values : (tableOf events t).values column.name =
        (events.filter fun e => e.table = t).map fun e => Value.text (strncpy e.subject) := by
      rw [name, Sql.Table.values, tableOf, List.filterMap_flatMap, List.map_eq_flatMap]
      apply List.flatMap_congr
      intro e he
      obtain rfl : e.table = t := by simpa using (List.mem_filter.mp he).2
      exact Event.path_values columns
    rw [values]
    apply List.Nodup.map_on _ ((List.Nodup.of_map _ subjects).filter _)
    intro a ha b hb same
    have ha := (List.mem_filter.mp ha).1
    have hb := (List.mem_filter.mp hb).1
    have same := Value.text.inj same
    rw [strncpy_of_plain (plain a ha), strncpy_of_plain (plain b hb)] at same
    exact List.inj_on_of_nodup_map subjects ha hb same
  · fin_cases ht <;> fin_cases hcolumn <;> simp at hkey

end

/-! ## Runs -/

section
variable {skipRenames : Bool} {hashes1 hashes2 : PathHashes Bytes} {events done : List (Event Bytes)}
  {e : Event Bytes} {w w' : Console} {db : Option DirCompDBStream} {before : Sql.Database Value}

/-- What is printed of a report. -/
def printed (events : List (Event Bytes)) : Bytes := events.flatMap printingOutputStream

/-- No path contains a zero. -/
def PathHashes.Plain (m : PathHashes Bytes) : Prop := ∀ p, (m.find p).isSome → 0 ∉ p

/-- The calls made so far have been printed, and written to the streams as prepared. -/
structure Echoed (stdout : Bytes) (before : Sql.Database Value) (done : List (Event Bytes))
    (db : Option DirCompDBStream) (w : Console) : Prop where
  printed : w.1 = stdout ++ printed done
  stream : db = some DirCompDBStream.prepared
  stored : Written before done w.2

theorem of_print {text : Bytes} {u : Unit} (h : (print text).on w = (.ok u, w')) :
    w' = (w.1 ++ text, w.2) := by
  cases h
  rfl

theorem Echoed.of_turn {stdout : Bytes} {db' : Option DirCompDBStream}
    (told : Echoed stdout before done db w) (h : (compareOutputStreams db e).on w = (.ok db', w')) :
    Echoed stdout before (done ++ [e]) db' w' := by
  obtain ⟨out, rfl, stored⟩ := told
  obtain ⟨_, u, prints, h⟩ := of_on_bind h
  obtain rfl := of_print prints
  obtain ⟨s, v, called, h⟩ := of_on_bind h
  obtain ⟨called, back⟩ := Focus.second.of_on_run called
  cases h
  obtain ⟨rfl, stored⟩ := stored.of_call called
  refine ⟨?_, rfl, stored⟩
  rw [back]
  simp [Focus.second, out, Dupa.printed]

/-- What is done between `BEGIN` and `COMMIT`. -/
def report (events : List (Event Bytes)) : Session Sql.Error Console Unit := do
  let s ← Focus.second.run DirCompDBStream.new
  let _ ← events.foldlM compareOutputStreams (some s)
  return ()

theorem compareDirs_true : compareDirs true skipRenames hashes1 hashes2 =
    Sql.transacted .second (report (dirCompare skipRenames hashes1 hashes2)) := rfl

theorem Echoed.of_new {s : DirCompDBStream}
    (h : (Focus.second.run DirCompDBStream.new).on w = (.ok s, w')) :
    Echoed w.1 w.2.tables [] (some s) w' := by
  obtain ⟨called, back⟩ := Focus.second.of_on_run h
  obtain ⟨rfl, stored⟩ := Dupa.of_new called
  refine ⟨?_, rfl, stored⟩
  rw [back]
  simp [Focus.second, Dupa.printed]

theorem of_report {u : Unit} (h : (report events).on w = (.ok u, w')) :
    w'.1 = w.1 ++ printed events ∧ Written w.2.tables events w'.2 := by
  obtain ⟨s, v, news, h⟩ := of_on_bind h
  obtain ⟨db', v', turns, h⟩ := of_on_bind h
  cases h
  have told := of_on_foldlM (I := Echoed w.1 w.2.tables) (fun _ _ _ _ _ _ told h => told.of_turn h)
    (Echoed.of_new news) turns
  exact ⟨told.printed, told.stored⟩

/-- Whatever fails, only whole lines have been printed, the last of them that of the call
that failed. -/
theorem of_report_error {fault : Sql.Error} (h : (report events).on w = (.error fault, w')) :
    ∃ done rest, events = done ++ rest ∧ w'.1 = w.1 ++ printed done := by
  rcases of_on_bind_error h with failed | ⟨s, v, news, h⟩
  · refine ⟨[], events, rfl, ?_⟩
    rw [(Focus.second.of_on_run failed).2]
    simp [Focus.second, printed]
  · rcases of_on_bind_error h with failed | ⟨db', v', turns, h⟩
    · obtain ⟨done, e, rest, db', u, rfl, told, failed⟩ :=
        of_on_foldlM_error (I := Echoed w.1 w.2.tables) (fun _ _ _ _ _ _ told h => told.of_turn h)
          (Echoed.of_new news) failed
      refine ⟨done ++ [e], rest, by simp, ?_⟩
      rcases of_on_bind_error failed with failed | ⟨_, u', prints, failed⟩
      · cases failed
      · obtain rfl := of_print prints
        obtain rfl := told.stream
        rcases of_on_bind_error failed with failed | ⟨_, _, -, failed⟩
        · rw [(Focus.second.of_on_run failed).2]
          simp [Focus.second, told.printed, printed]
        · cases failed
    · cases h

theorem compareOutputStreams_confined (e : Event Bytes) :
    Sql.Confined .second (compareOutputStreams (some DirCompDBStream.prepared) e) := by
  have prints : Sql.Confined .second (print (printingOutputStream e)) := fun _ => rfl
  exact prints.bind fun _ => (Sql.Confined.run (DirCompDBStream.call_confined e)).bind fun _ => .pure _

theorem report_confined (events : List (Event Bytes)) : Sql.Confined .second (report events) := by
  apply (Sql.Confined.run new_confined).bind_of
  intro w s w' h
  obtain ⟨rfl, -⟩ := of_new (Focus.second.of_on_run h).1
  refine (Sql.Confined.foldlM (I := (· = some DirCompDBStream.prepared)) ?_ ?_ rfl events).bind
    fun _ => .pure _
  · rintro _ e rfl
    exact compareOutputStreams_confined e
  · rintro _ e s b' s' rfl h
    obtain ⟨_, u, -, h⟩ := of_on_bind h
    obtain ⟨s, v, called, h⟩ := of_on_bind h
    cases h
    rw [DirCompDBStream.call_eq] at called
    obtain ⟨called, -⟩ := Focus.second.of_on_run called
    obtain ⟨out, d, written, h⟩ := of_on_bind called
    cases h
    rw [DBOutStream.of_writeAll_same e.out_unbound written, DirCompDBStream.put_out]

theorem report_on (calm : w.2.failing = none) (free : ∀ t ∈ compareTables, ¬w.2.tables.Referenced t.1)
    (subjects : (events.map Event.subject).Nodup) (plain : ∀ e ∈ events, 0 ∉ e.subject) :
    ∃ w', (report events).on w = (.ok (), w') ∧ w'.2.failing = none := by
  obtain ⟨c, news, calm'⟩ := new_on calm free
  have begun := (of_new news).2
  obtain ⟨_, w', turns, ⟨rfl, stored, calm''⟩⟩ := on_foldlM (f := compareOutputStreams)
    (I := fun done db v => db = some DirCompDBStream.prepared ∧ Written w.2.tables done v.2 ∧
      v.2.failing = none)
    (l := events) (b := some DirCompDBStream.prepared) (s := (w.1, c)) (by
      rintro done e rest _ v split ⟨rfl, stored, calm⟩
      have upto : (done ++ [e]).Sublist events := by
        rw [split]
        exact (List.singleton_sublist.mpr List.mem_cons_self).append_left done
      obtain ⟨d, called, calm'⟩ := stored.call_on calm (e := e)
        (tableOf_meets ((upto.map _).nodup subjects) (fun e he => plain e (upto.subset he))
          e.table_mem _)
      refine ⟨some DirCompDBStream.prepared, (v.1 ++ printingOutputStream e, d), ?_, rfl,
        (stored.of_call called).2, calm'⟩
      exact (on_bind (x := print _) rfl).trans
        (on_bind (Focus.second.on_run (s := (v.1 ++ printingOutputStream e, v.2)) called)))
    ⟨rfl, begun, calm'⟩
  refine ⟨w', ?_, calm''⟩
  rw [report, on_bind (Focus.second.on_run news)]
  exact on_bind turns

theorem compareDirs_on (skipRenames : Bool) (stdout : Bytes) {c : Sql.Connection Value}
    (calm : c.failing = none) (idle : c.saved = none)
    (free : ∀ t ∈ compareTables, ¬c.tables.Referenced t.1)
    (plain1 : hashes1.Plain) (plain2 : hashes2.Plain) :
    ∃ w, (compareDirs true skipRenames hashes1 hashes2).on (stdout, c) = (.ok (), w) := by
  rw [compareDirs_true]
  obtain ⟨w, ran, calm'⟩ := report_on (w := (stdout, { c with saved := some c.tables })) calm free
    subjects_nodup fun e he => (subject_known he).elim (plain1 _) (plain2 _)
  have ongoing : w.2.saved = some c.tables := by
    have kept := report_confined (dirCompare skipRenames hashes1 hashes2)
      (stdout, { c with saved := some c.tables })
    rwa [ran] at kept
  exact ⟨_, Sql.transacted_on calm idle ran calm' (by simp [Focus.second, ongoing]) rfl⟩

theorem of_compareDirs
    (h : (compareDirs true skipRenames hashes1 hashes2).on w = (.ok (), w')) :
    w'.1 = w.1 ++ printed (dirCompare skipRenames hashes1 hashes2) ∧ w'.2.saved = none ∧
      Written w.2.tables (dirCompare skipRenames hashes1 hashes2) w'.2 := by
  rw [compareDirs_true] at h
  obtain ⟨v, d, ran, tables, back, same, saved⟩ := Sql.of_transacted h
  obtain ⟨out, stored⟩ := of_report ran
  refine ⟨?_, saved, fun t ht => ?_, fun other ho => ?_⟩
  · rw [back]
    exact out
  · exact same ▸ stored.tables t ht
  · have kept := stored.others other ho
    exact (congrArg _ same).trans (kept.trans (congrArg _ tables))

theorem of_compareDirs_error {fault : Sql.Error}
    (h : (compareDirs true skipRenames hashes1 hashes2).on w = (.error fault, w')) :
    ∃ done rest, dirCompare skipRenames hashes1 hashes2 = done ++ rest ∧
      w'.1 = w.1 ++ printed done := by
  rw [compareDirs_true] at h
  rcases Sql.of_transacted_error Prod.fst (fun _ _ => rfl) h with same |
    ⟨d, result, v, ran, -, same⟩
  · exact ⟨[], _, rfl, by simpa [printed] using same⟩
  · rw [same]
    cases result with
    | ok => exact ⟨_, [], (List.append_nil _).symm, (of_report ran).1⟩
    | error => exact of_report_error (w := (w.1, d)) ran

/-- Without a database nothing can fail. -/
theorem compareDirs_false (w : Console) : (compareDirs false skipRenames hashes1 hashes2).on w =
    (.ok (), (w.1 ++ printed (dirCompare skipRenames hashes1 hashes2), w.2)) := by
  have turns : ∀ (events : List (Event Bytes)) (w : Console),
      Session.on (events.foldlM compareOutputStreams none) w =
        (.ok none, (w.1 ++ printed events, w.2)) := by
    intro events
    induction events with
    | nil =>
      intro w
      simp [printed]
    | cons e events ih =>
      intro w
      have turn : (compareOutputStreams none e).on w =
          (.ok none, (w.1 ++ printingOutputStream e, w.2)) := rfl
      rw [List.foldlM_cons, on_bind turn, ih]
      simp [printed]
  exact on_bind (turns _ w)

/-- A comparison is stored unless the database is in the way or fails; if it succeeds, the
tables hold what has been printed, and if it fails part of the report has been printed. -/
theorem comparison_stored (skipRenames : Bool) (hashes1 hashes2 : PathHashes Bytes) (stdout : Bytes)
    {c : Sql.Connection Value} (idle : c.saved = none) :
    (c.failing = none → (∀ t ∈ compareTables, ¬c.tables.Referenced t.1) →
      hashes1.Plain → hashes2.Plain →
        ∃ w, (compareDirs true skipRenames hashes1 hashes2).on (stdout, c) = (.ok (), w)) ∧
    (∀ w, (compareDirs true skipRenames hashes1 hashes2).on (stdout, c) = (.ok (), w) →
      w.1 = stdout ++ printed (dirCompare skipRenames hashes1 hashes2) ∧ w.2.saved = none ∧
        Written c.tables (dirCompare skipRenames hashes1 hashes2) w.2) ∧
    ∀ e w, (compareDirs true skipRenames hashes1 hashes2).on (stdout, c) = (.error e, w) →
      ∃ done rest, dirCompare skipRenames hashes1 hashes2 = done ++ rest ∧
        w.1 = stdout ++ printed done :=
  ⟨fun calm free => compareDirs_on skipRenames stdout calm idle free, fun _ h => of_compareDirs h,
    fun _ _ h => of_compareDirs_error h⟩

end

theorem PathHashes.plain_of_entries {m : PathHashes Bytes} (plain : ∀ entry ∈ m.entries, 0 ∉ entry.1) :
    m.Plain := by
  intro p there
  obtain ⟨h, hp⟩ := Option.isSome_iff_exists.mp there
  exact plain (p, h) (PathHashes.mem_entries.mpr hp)

/-- `a` and `b`, with different contents. -/
def comparedFirst : PathHashes Bytes := ⟨[([98], 2), ([97], 1)], by decide⟩

/-- `a` is changed, `b` is overwritten by the content of `a`, which is also copied to `c`. -/
def comparedSecond (changed : Cksum) : PathHashes Bytes :=
  ⟨[([97], changed), ([99], 1), ([98], 1)], show ([[97], [99], [98]] : List Bytes).Nodup by decide⟩

example : printed (dirCompare false comparedFirst (comparedSecond 3)) =
    bytes "CONTENT_CHANGED: a\nOVERWRITTEN_BY: b CANDIDATES: [a]\nCOPIED_FROM: c CANDIDATES: [a]\n" := by
  decide +kernel

theorem comparedFirst_plain : comparedFirst.Plain := PathHashes.plain_of_entries (by decide)

theorem comparedSecond_plain (changed : Cksum) : (comparedSecond changed).Plain := by
  apply PathHashes.plain_of_entries
  simp [comparedSecond]

theorem comparison_stored_example : ∃ w,
    (compareDirs true false comparedFirst (comparedSecond 3)).on ([], ⟨∅, none, none⟩) =
      (.ok (), w) ∧
    w.1 = printed (dirCompare false comparedFirst (comparedSecond 3)) ∧
    Written ∅ (dirCompare false comparedFirst (comparedSecond 3)) w.2 := by
  obtain ⟨stored, told, -⟩ := comparison_stored false comparedFirst (comparedSecond 3) []
    (c := ⟨∅, none, none⟩) rfl
  obtain ⟨w, ran⟩ := stored rfl (by decide) comparedFirst_plain (comparedSecond_plain 3)
  obtain ⟨out, -, tables⟩ := told w ran
  exact ⟨w, ran, out, tables⟩

end Dupa
