import Dupa.StoredComparison

/-!
# Reading what has been printed

A printed report can be read back if no path contains a blank or ends a line
(`printed_report_read`). With blanks in paths two reports may be printed alike
(`printed_alike`).
-/

namespace Dupa

/-! ## Words -/

/-- A path without a blank and without the end of a line. -/
def OneWord (p : Bytes) : Prop := 32 ∉ p ∧ 10 ∉ p

/-- The paths between brackets. -/
def readPaths (text : Bytes) : List Bytes := text.tail.dropLast.splitOn 32

def readLine (line : Bytes) : Option (Event Bytes) :=
  match line.splitOn 32 with
  | [tag, f] =>
    if tag = bytes "CONTENT_CHANGED:" then some (.contentChanged f)
    else if tag = bytes "REMOVED:" then some (.removed f)
    else if tag = bytes "NEW_FILE:" then some (.newFile f)
    else none
  | tag :: f :: _ :: paths =>
    let candidates := readPaths ([32].intercalate paths)
    if tag = bytes "OVERWRITTEN_BY:" then some (.overwrittenBy f candidates)
    else if tag = bytes "COPIED_FROM:" then some (.copiedFrom f candidates)
    else if tag = bytes "RENAME_TO:" then some (.renameTo f candidates)
    else none
  | _ => none

/-- The report that the lines of a text make. -/
def readReport (text : Bytes) : Option (List (Event Bytes)) :=
  (text.splitOn 10).dropLast.mapM readLine

/-! ## Lines -/

namespace Event

/-- The first word of the line. -/
def tag : Event Bytes → Bytes
  | overwrittenBy _ _ => bytes "OVERWRITTEN_BY:"
  | copiedFrom _ _ => bytes "COPIED_FROM:"
  | renameTo _ _ => bytes "RENAME_TO:"
  | contentChanged _ => bytes "CONTENT_CHANGED:"
  | removed _ => bytes "REMOVED:"
  | newFile _ => bytes "NEW_FILE:"

/-- What is printed, up to the end of the line. -/
def line (e : Event Bytes) : Bytes :=
  match e.candidates with
  | none => e.tag ++ 32 :: e.subject
  | some cs => e.tag ++ 32 :: (e.subject ++ 32 :: (bytes "CANDIDATES:" ++ 32 :: pathsText cs))

variable {e : Event Bytes}

theorem tag_word (e : Event Bytes) : OneWord e.tag := by
  cases e <;> simp only [tag, OneWord] <;> decide +kernel

theorem printed_line (e : Event Bytes) : printingOutputStream e = e.line ++ [10] := by
  have blank (s t : String) (h : bytes s = bytes t ++ [32]) (f : Bytes) :
      bytes s ++ f = bytes t ++ 32 :: f := by simp [h]
  have candidates : bytes " CANDIDATES: " = 32 :: (bytes "CANDIDATES:" ++ [32]) := by decide +kernel
  have last : bytes "\n" = [10] := by decide +kernel
  cases e with
  | overwrittenBy f cs =>
    rw [printingOutputStream, blank "OVERWRITTEN_BY: " "OVERWRITTEN_BY:" (by decide +kernel)]
    simp [line, tag, Event.subject, Event.candidates, candidates, last]
  | copiedFrom f cs =>
    rw [printingOutputStream, blank "COPIED_FROM: " "COPIED_FROM:" (by decide +kernel)]
    simp [line, tag, Event.subject, Event.candidates, candidates, last]
  | renameTo f cs =>
    rw [printingOutputStream, blank "RENAME_TO: " "RENAME_TO:" (by decide +kernel)]
    simp [line, tag, Event.subject, Event.candidates, candidates, last]
  | contentChanged f =>
    rw [printingOutputStream, blank "CONTENT_CHANGED: " "CONTENT_CHANGED:" (by decide +kernel)]
    simp [line, tag, Event.subject, Event.candidates, last]
  | removed f =>
    rw [printingOutputStream, blank "REMOVED: " "REMOVED:" (by decide +kernel)]
    simp [line, tag, Event.subject, Event.candidates, last]
  | newFile f =>
    rw [printingOutputStream, blank "NEW_FILE: " "NEW_FILE:" (by decide +kernel)]
    simp [line, tag, Event.subject, Event.candidates, last]

/-- All paths of a call are single words, and there are candidates if there could be. -/
structure Readable (e : Event Bytes) : Prop where
  subject : OneWord e.subject
  candidates : ∀ cs, e.candidates = some cs → cs ≠ [] ∧ ∀ c ∈ cs, OneWord c

theorem pathsText_eq (cs : List Bytes) : pathsText cs = 91 :: ([32].intercalate cs ++ [93]) := by
  have opening : bytes "[" = [91] := by decide +kernel
  have blank : bytes " " = [32] := by decide +kernel
  have closing : bytes "]" = [93] := by decide +kernel
  simp [pathsText, opening, blank, closing]

theorem readPaths_pathsText {cs : List Bytes} (ne : cs ≠ []) (words : ∀ c ∈ cs, OneWord c) :
    readPaths (pathsText cs) = cs := by
  rw [readPaths, pathsText_eq, List.tail_cons, List.dropLast_concat]
  exact List.splitOn_intercalate 32 (fun c hc => (words c hc).1) ne

theorem not_mem_intercalate {cs : List Bytes} {b : UInt8} (ne : b ≠ 32) (words : ∀ c ∈ cs, b ∉ c) :
    b ∉ [32].intercalate cs := by
  induction cs with
  | nil => simp
  | cons c cs ih =>
    cases cs with
    | nil => simpa using words c
    | cons d cs =>
      rw [List.intercalate_cons_cons]
      have rest := ih fun d hd => words d (List.mem_cons_of_mem _ hd)
      simp [words c List.mem_cons_self, ne, rest]

theorem Readable.line_ends (readable : e.Readable) : 10 ∉ e.line := by
  have candidates : 10 ∉ bytes "CANDIDATES:" := by decide +kernel
  cases hcs : e.candidates with
  | none => simp [line, hcs, (tag_word e).2, readable.subject.2]
  | some cs =>
    have words := not_mem_intercalate (b := 10) (by decide)
      fun c hc => ((readable.candidates cs hcs).2 c hc).2
    simp [line, hcs, (tag_word e).2, readable.subject.2, candidates, pathsText_eq, words]

theorem Readable.readLine_line (readable : e.Readable) : readLine e.line = some e := by
  have candidates : 32 ∉ bytes "CANDIDATES:" := by decide +kernel
  cases hcs : e.candidates with
  | none =>
    have split : e.line.splitOn 32 = [e.tag, e.subject] := by
      rw [line, hcs, List.splitOn_append_cons_self_of_not_mem (tag_word e).1,
        List.splitOn_eq_singleton readable.subject.1]
    have ne₁ : bytes "REMOVED:" ≠ bytes "CONTENT_CHANGED:" := by decide +kernel
    have ne₂ : bytes "NEW_FILE:" ≠ bytes "CONTENT_CHANGED:" := by decide +kernel
    have ne₃ : bytes "NEW_FILE:" ≠ bytes "REMOVED:" := by decide +kernel
    rw [readLine, split]
    cases e with
    | overwrittenBy | copiedFrom | renameTo => cases hcs
    | contentChanged f => exact if_pos rfl
    | removed f => exact (if_neg ne₁).trans (if_pos rfl)
    | newFile f => exact (if_neg ne₂).trans ((if_neg ne₃).trans (if_pos rfl))
  | some cs =>
    have split : e.line.splitOn 32 =
        e.tag :: e.subject :: bytes "CANDIDATES:" :: (pathsText cs).splitOn 32 := by
      rw [line, hcs, List.splitOn_append_cons_self_of_not_mem (tag_word e).1,
        List.splitOn_append_cons_self_of_not_mem readable.subject.1,
        List.splitOn_append_cons_self_of_not_mem candidates]
    have ne₁ : bytes "COPIED_FROM:" ≠ bytes "OVERWRITTEN_BY:" := by decide +kernel
    have ne₂ : bytes "RENAME_TO:" ≠ bytes "OVERWRITTEN_BY:" := by decide +kernel
    have ne₃ : bytes "RENAME_TO:" ≠ bytes "COPIED_FROM:" := by decide +kernel
    obtain ⟨ne, words⟩ := readable.candidates cs hcs
    rw [readLine, split]
    simp only [List.intercalate_splitOn, readPaths_pathsText ne words]
    cases e with
    | overwrittenBy f _ =>
      cases hcs
      exact if_pos rfl
    | copiedFrom f _ =>
      cases hcs
      exact (if_neg ne₁).trans (if_pos rfl)
    | renameTo f _ =>
      cases hcs
      exact (if_neg ne₂).trans ((if_neg ne₃).trans (if_pos rfl))
    | contentChanged | removed | newFile => cases hcs

end Event

theorem readReport_printed {events : List (Event Bytes)} (readable : ∀ e ∈ events, e.Readable) :
    readReport (printed events) = some events := by
  have lines : (printed events).splitOn 10 = events.map Event.line ++ [[]] := by
    induction events with
    | nil => simp [printed]
    | cons e events ih =>
      have rest := ih fun e he => readable e (List.mem_cons_of_mem _ he)
      have here := (readable e List.mem_cons_self).line_ends
      rw [printed, List.flatMap_cons, e.printed_line, List.append_assoc, List.singleton_append,
        List.splitOn_append_cons_self_of_not_mem here]
      exact congrArg (e.line :: ·) rest
  rw [readReport, lines, List.dropLast_concat]
  clear lines
  induction events with
  | nil => rfl
  | cons e events ih =>
    rw [List.map_cons, List.mapM_cons, (readable e List.mem_cons_self).readLine_line,
      ih fun e he => readable e (List.mem_cons_of_mem _ he)]
    rfl

/-- Every path in the map is a single word. -/
def PathHashes.OneWords (m : PathHashes Bytes) : Prop := ∀ p, (m.find p).isSome → OneWord p

/-- However a comparison ends, what it has printed by then reads as the beginning of its
report, and as all of it if nothing failed. -/
theorem printed_report_read {sqlOut skipRenames : Bool} {m1 m2 : PathHashes Bytes}
    (words1 : m1.OneWords) (words2 : m2.OneWords) {c : Sql.Connection Value}
    {result : Except Sql.Error Unit} {w : Console}
    (ran : (compareDirs sqlOut skipRenames m1 m2).on ([], c) = (result, w)) :
    ∃ done rest, dirCompare skipRenames m1 m2 = done ++ rest ∧ readReport w.1 = some done ∧
      (result = .ok () → rest = []) := by
  obtain ⟨done, rest, split, out, whole⟩ : ∃ done rest, dirCompare skipRenames m1 m2 = done ++ rest ∧
      w.1 = printed done ∧ (result = .ok () → rest = []) := by
    cases sqlOut with
    | false =>
      rw [compareDirs_false] at ran
      cases ran
      exact ⟨_, [], (List.append_nil _).symm, rfl, fun _ => rfl⟩
    | true =>
      cases result with
      | ok =>
        exact ⟨_, [], (List.append_nil _).symm, (of_compareDirs ran).1, fun _ => rfl⟩
      | error =>
        obtain ⟨done, rest, split, out⟩ := of_compareDirs_error ran
        exact ⟨done, rest, split, out, nofun⟩
  refine ⟨done, rest, split, ?_, whole⟩
  rw [out]
  apply readReport_printed
  intro e he
  have he : e ∈ dirCompare skipRenames m1 m2 := split ▸ List.mem_append_left rest he
  refine ⟨(subject_known he).elim (words1 _) (words2 _), fun cs hcs => ?_⟩
  exact ⟨(candidates_known he hcs).1, fun c hc =>
    (candidate_known he hcs hc).elim (words1 c) (words2 c)⟩

theorem PathHashes.oneWords_of_entries {m : PathHashes Bytes}
    (words : ∀ entry ∈ m.entries, OneWord entry.1) : m.OneWords := by
  intro p there
  obtain ⟨h, hp⟩ := Option.isSome_iff_exists.mp there
  exact words (p, h) (PathHashes.mem_entries.mpr hp)

theorem printed_report_read_changed : ∃ w,
    (compareDirs false false comparedFirst (comparedSecond 3)).on ([], ⟨∅, none, none⟩) =
      (.ok (), w) ∧
    readReport w.1 =
      some [.contentChanged [97], .overwrittenBy [98] [[97]], .copiedFrom [99] [[97]]] := by
  have words1 : comparedFirst.OneWords :=
    PathHashes.oneWords_of_entries (by simp [comparedFirst, OneWord])
  have words2 : (comparedSecond 3).OneWords :=
    PathHashes.oneWords_of_entries (by simp [comparedSecond, OneWord])
  have report : dirCompare false comparedFirst (comparedSecond 3) =
      [.contentChanged [97], .overwrittenBy [98] [[97]], .copiedFrom [99] [[97]]] := by decide
  have ran : (compareDirs false false comparedFirst (comparedSecond 3)).on ([], ⟨∅, none, none⟩) =
      (.ok (), _) := compareDirs_false _
  obtain ⟨done, rest, split, read, whole⟩ := printed_report_read words1 words2 ran
  obtain rfl := whole rfl
  rw [List.append_nil, report] at split
  exact ⟨_, ran, split ▸ read⟩

/-- One file is renamed to `a b`, or to both `a` and `b`. -/
theorem printed_alike : ∃ m1 m2 m2' : PathHashes Bytes,
    dirCompare false m1 m2 ≠ dirCompare false m1 m2' ∧
      printed (dirCompare false m1 m2) = printed (dirCompare false m1 m2') :=
  ⟨⟨[([99], 1)], by decide⟩, ⟨[([97, 32, 98], 1)], by decide⟩, ⟨[([97], 1), ([98], 1)], by decide⟩,
    by decide, by decide +kernel⟩

end Dupa
