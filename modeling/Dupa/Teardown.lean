import Dupa.ScanDirectory

/-!
# The end of `ScanDirectory`

The pool is declared before the mutex, so the mutex is destroyed first, and the
destructor of the pool then waits for tasks that still use it. Here a task locks the
mutex and calls the processor in two steps. Forgetting who holds the mutex gives a
run of the scan as it was before.
-/

namespace Dupa

/-- A scan, and the worker whose task holds the local mutex. -/
structure Guarded (files : FileSystem) (σ H : Type) (n : ℕ) where
  scan : Scan files σ H n
  holder : Option (Fin n)

/-- What a step is to the mutex, apart from the scanning thread's own use of it. -/
inductive MutexEvent where
  | other
  | destroy
  /-- A task locks it. -/
  | lock
  /-- A task that holds it calls `processor.File`. -/
  | file
  deriving DecidableEq

def Job.path {files : FileSystem} {H : Type} : Job files H → Path
  | analyze path _ => path
  | report path _ _ _ _ => path

/-- The file of the job has a checksum to report. -/
def Job.Reports {files : FileSystem} {H : Type} (job : Job files H) : Prop :=
  ∃ info, files.hash job.path = some info ∧ info.sum ≠ 0

variable {files : FileSystem} {σ H : Type} {n : ℕ}

/-- Some task that is being submitted, waits or runs has a checksum to report. -/
def Scan.Awaited (s : Scan files σ H n) : Prop := ∃ job ∈ s.pool.tasks, job.Reports

namespace Guarded

/-- The scanning thread takes the mutex to tell of a directory and to push one. -/
inductive Step (P : ScanProcessor (StateM σ) H) (s : Guarded files σ H n) :
    MutexEvent → Guarded files σ H n → Prop where
  | other {made : List Call} {s' : Scan files σ H n} (step : s.scan.Step P made s')
      (notFile : ∀ path info, Call.file path info ∉ made) (stays : s'.pc.left = s.scan.pc.left)
      (free : made ≠ [] ∨ s.scan.stack.length < s'.stack.length → s.holder = none) :
      Step P s .other { s with scan := s' }
  | destroy {s' : Scan files σ H n} (step : s.scan.Step P [] s') (before : s.scan.pc.left = false)
      (after : s'.pc.left = true) : Step P s .destroy { s with scan := s' }
  | lock (w : Fin n) (path : Path) (parent : H) (info : FileInfo)
      (known : files.hash path = some info) (kept : info.sum ≠ 0)
      (here : s.scan.pool.worker w = .running (.report path parent info known kept))
      (free : s.holder = none) : Step P s .lock { s with holder := some w }
  | file (w : Fin n) (path : Path) (parent : H) (info : FileInfo)
      (known : files.hash path = some info) (kept : info.sum ≠ 0)
      (here : s.scan.pool.worker w = .running (.report path parent info known kept))
      (holds : s.holder = some w) :
      Step P s .file {
        scan := { s.scan with
          pool := s.scan.pool.setWorker w .ready
          processor := ((P.file path.filename parent info).run s.scan.processor).2 }
        holder := none }

/-- The states of a scan, and the events with the states in which they happened. -/
inductive Run (P : ScanProcessor (StateM σ) H) (root : Path) (processor : σ)
    (cache : Path → Option FileInfo) :
    List (Guarded files σ H n × MutexEvent) → Guarded files σ H n → Prop where
  | start : Run P root processor cache [] ⟨.start root processor cache, none⟩
  | next {trace : List (Guarded files σ H n × MutexEvent)} {s s' : Guarded files σ H n}
      {event : MutexEvent} (run : Run P root processor cache trace s) (step : Step P s event s') :
      Run P root processor cache (trace ++ [(s, event)]) s'

/-- No task locks the mutex, or calls the processor under it, once it has been destroyed. -/
def Safe (trace : List (Guarded files σ H n × MutexEvent)) : Prop :=
  ∀ x ∈ trace, x.2 = .lock ∨ x.2 = .file → x.1.scan.pc.left = false

/-- When the mutex is destroyed, no task that is not done has a checksum to report. -/
def Quiet (trace : List (Guarded files σ H n × MutexEvent)) : Prop :=
  ∀ x ∈ trace, x.2 = .destroy → ¬ x.1.scan.Awaited

end Guarded

namespace Scan

variable {P : ScanProcessor (StateM σ) H} {root : Path} {processor : σ}
  {cache : Path → Option FileInfo} {made calls : List Call} {s s' : Scan files σ H n}

theorem awaited_of_running {w : Fin n} {job : Job files H}
    (here : s.pool.worker w = .running job) (reports : job.Reports) : s.Awaited :=
  ⟨job, by rw [SyncThreadPool.tasks_finish here]; exact Multiset.mem_cons_self _ _, reports⟩

theorem Run.aligned (run : Run P root processor cache calls s) : s.Aligned := by
  induction run with
  | start => exact start_aligned
  | next _ step ih => exact step.aligned ih

/-- A step reports a file, ends the loop, or does neither. -/
theorem Step.kinds (step : Step P s made s') :
    (∃ w path parent info known kept,
      s.pool.worker w = .running (.report path parent info known kept) ∧
      made = [.file path info] ∧ s' = { s with
        pool := s.pool.setWorker w .ready
        processor := ((P.file path.filename parent info).run s.processor).2 }) ∨
    (made = [] ∧ s.pc.left = false ∧ s'.pc.left = true) ∨
    ((∀ path info, Call.file path info ∉ made) ∧ s'.pc.left = s.pc.left) := by
  cases step with
  | file w path parent info known kept here =>
    exact Or.inl ⟨w, path, parent, info, known, kept, here, rfl, rfl⟩
  | unlock here => exact Or.inr (Or.inl ⟨rfl, by simp [here, Pc.left], rfl⟩)
  | opened dir parent names listing here =>
    exact Or.inr (Or.inr ⟨by cases parent <;> simp [openCall], by simp [here, Pc.left]⟩)
  | pool | unlistable | fail | zero | hashed => exact Or.inr (Or.inr ⟨by simp, rfl⟩)
  | list | skip | push | submit | submitted | next | stop | finish =>
    exact Or.inr (Or.inr ⟨by simp, by simp [‹s.pc = _›, Pc.left]⟩)

/-- Once the loop has ended, only calls to the processor settle what is awaited. -/
theorem Step.awaited (step : Step P s made s') (after : s'.pc.left = true)
    (notFile : ∀ path info, Call.file path info ∉ made) : s'.Awaited ↔ s.Awaited := by
  -- a task that ends without a call had nothing to report
  have ends {w : Fin n} {job : Job files H} (here : s.pool.worker w = .running job)
      (silent : ¬ job.Reports) :
      (∃ j ∈ (s.pool.setWorker w .ready).tasks, j.Reports) ↔ s.Awaited := by
    unfold Awaited
    rw [SyncThreadPool.tasks_finish here]
    simp [silent]
  cases step with
  | pool p step => rw [Awaited, Awaited, step.tasks]
  | unlistable dir parent rest here => simp [here, Pc.left] at after
  | list | opened | skip | push | submit | submitted | next => cases after
  | unlock | stop | finish => rfl
  | fail w path parent here throws =>
    apply ends here
    rintro ⟨info, known, -⟩
    simp [Job.path, throws] at known
  | zero w path parent info here known dropped =>
    apply ends here
    rintro ⟨info', known', kept⟩
    simp only [Job.path, known, Option.some.injEq] at known'
    exact kept (known' ▸ dropped)
  | hashed w path parent info here known kept =>
    have reports : ∀ job : Job files H, job.path = path → job.Reports :=
      fun job same => ⟨info, same ▸ known, kept⟩
    refine iff_of_true ?_ (awaited_of_running here (reports _ rfl))
    exact awaited_of_running (w := w) (Function.update_self ..) (reports _ rfl)
  | file w path parent info => exact absurd List.mem_cons_self (notFile path info)

end Scan

namespace Guarded

variable {P : ScanProcessor (StateM σ) H} {root : Path} {processor : σ}
  {cache : Path → Option FileInfo} {event : MutexEvent} {s s' : Guarded files σ H n}
  {trace : List (Guarded files σ H n × MutexEvent)}

/-- Locking changes nothing else; every other step is one of the scan. -/
theorem Step.scan (step : Step P s event s') :
    s'.scan = s.scan ∨ ∃ made, s.scan.Step P made s'.scan := by
  cases step with
  | other step => exact Or.inr ⟨_, step⟩
  | destroy step => exact Or.inr ⟨_, step⟩
  | lock => exact Or.inl rfl
  | file w path parent info known kept here =>
    exact Or.inr ⟨_, .file w path parent info known kept here⟩

theorem Run.scan (run : Run P root processor cache trace s) :
    ∃ calls, Scan.Run P root processor cache calls s.scan := by
  induction run with
  | start => exact ⟨[], .start⟩
  | next _ step ih =>
    obtain ⟨calls, run⟩ := ih
    rcases step.scan with same | ⟨made, step⟩
    · exact ⟨calls, same ▸ run⟩
    · exact ⟨calls ++ made, run.next step⟩

/-- Every run of the scan is such a run, in which a task is done as soon as it has locked. -/
theorem run_of_scan {calls : List Call} {t : Scan files σ H n}
    (run : Scan.Run P root processor cache calls t) :
    ∃ trace, Run P root processor cache trace ⟨t, none⟩ := by
  induction run with
  | start => exact ⟨[], .start⟩
  | next _ step ih =>
    obtain ⟨trace, run⟩ := ih
    rcases step.kinds with ⟨w, path, parent, info, known, kept, here, -, rfl⟩ |
      ⟨rfl, before, after⟩ | ⟨notFile, stays⟩
    · exact ⟨_, (run.next (.lock w path parent info known kept here rfl)).next
        (.file w path parent info known kept here rfl)⟩
    · exact ⟨_, run.next (.destroy step before after)⟩
    · exact ⟨_, run.next (.other step notFile stays fun _ => rfl)⟩

/-- A task that locks the mutex or holds it has a checksum to report. -/
theorem Step.awaited_before (step : Step P s event s') (uses : event = .lock ∨ event = .file) :
    s.scan.Awaited := by
  cases step with
  | other => simp at uses
  | destroy => simp at uses
  | lock w path parent info known kept here =>
    exact Scan.awaited_of_running here ⟨info, known, kept⟩
  | file w path parent info known kept here =>
    exact Scan.awaited_of_running here ⟨info, known, kept⟩

/-- After the loop, what is awaited stays so until the processor is called. -/
theorem Step.awaited_after (step : Step P s event s') (after : s'.scan.pc.left = true)
    (notFile : event ≠ .file) : s'.scan.Awaited ↔ s.scan.Awaited := by
  cases step with
  | other step silent => exact step.awaited after silent
  | destroy step => exact step.awaited after nofun
  | lock => rfl
  | file => exact absurd rfl notFile

/-- The loop ends when the mutex is destroyed. -/
theorem Step.left_iff (step : Step P s event s') :
    s'.scan.pc.left = true ↔ s.scan.pc.left = true ∨ event = .destroy := by
  cases step with
  | other step silent stays => simp [stays]
  | destroy step before after => simp [after]
  | lock => simp
  | file => simp

/-- If nothing is awaited when the mutex is destroyed, nothing is from then on. -/
theorem Run.settled (run : Run P root processor cache trace s) (quiet : Quiet trace) :
    Safe trace ∧ (s.scan.pc.left = true → ¬ s.scan.Awaited) := by
  induction run with
  | start => exact ⟨nofun, nofun⟩
  | @next trace s s' event before step ih =>
    obtain ⟨safe, settled⟩ := ih fun x hx => quiet x (List.mem_append_left _ hx)
    have here : event = .destroy → ¬ s.scan.Awaited := quiet (s, event) (by simp)
    have unused : event = .lock ∨ event = .file → s.scan.pc.left = false := by
      intro uses
      by_contra left
      exact settled (by simpa using left) (step.awaited_before uses)
    refine ⟨?_, fun after => ?_⟩
    · intro x hx
      rcases List.mem_append.mp hx with old | last
      · exact safe x old
      · obtain rfl := List.mem_singleton.mp last
        exact unused
    · by_cases ends : event = .destroy
      · rw [step.awaited_after after (by simp [ends])]
        exact here ends
      · have left : s.scan.pc.left = true := (step.left_iff.mp after).resolve_right ends
        have notFile : event ≠ .file := by
          intro file
          simp [unused (Or.inr file)] at left
        rw [step.awaited_after after notFile]
        exact settled left

/-- What is awaited when the mutex is destroyed is reported later, or still awaited. -/
theorem Run.reported (run : Run P root processor cache trace s)
    (awaited : ∃ x ∈ trace, x.2 = .destroy ∧ x.1.scan.Awaited) :
    (∃ x ∈ trace, x.2 = .file ∧ x.1.scan.pc.left = true) ∨
      s.scan.pc.left = true ∧ s.scan.Awaited := by
  induction run with
  | start => simp at awaited
  | @next trace s s' event before step ih =>
    obtain ⟨x, hx, ends, pending⟩ := awaited
    rcases List.mem_append.mp hx with old | last
    · rcases ih ⟨x, old, ends, pending⟩ with ⟨y, hy, reports⟩ | ⟨left, still⟩
      · exact Or.inl ⟨y, List.mem_append_left _ hy, reports⟩
      · by_cases file : event = .file
        · exact Or.inl ⟨(s, event), by simp, file, left⟩
        · have after := step.left_iff.mpr (Or.inl left)
          exact Or.inr ⟨after, (step.awaited_after after file).mpr still⟩
    · obtain rfl := List.mem_singleton.mp last
      have after := step.left_iff.mpr (Or.inr ends)
      exact Or.inr ⟨after, (step.awaited_after after (by simp_all)).mpr pending⟩

theorem Run.drained (run : Run P root processor cache trace s)
    (returned : s.scan.pc = .returned) : ¬ s.scan.Awaited := by
  obtain ⟨calls, run⟩ := run.scan
  have aligned := run.aligned
  rintro ⟨job, pending, -⟩
  rw [aligned.pool.stopped (aligned.stopped returned)] at pending
  exact Multiset.notMem_zero job pending

/-- Whatever the tree, the workers and the schedule: no task uses the mutex after it has
been destroyed if nothing is awaited when it is, and, in a run to the end, only then. -/
theorem mutex_outlives_iff (run : Run P root processor cache trace s) :
    (Quiet trace → Safe trace) ∧ (s.scan.pc = .returned → (Safe trace ↔ Quiet trace)) := by
  refine ⟨fun quiet => (run.settled quiet).1, fun returned => ⟨?_, fun quiet => ?_⟩⟩
  · intro safe x hx ends pending
    rcases run.reported ⟨x, hx, ends, pending⟩ with ⟨y, hy, file, left⟩ | ⟨-, still⟩
    · rw [safe y hy (Or.inr file)] at left
      cases left
    · exact run.drained returned still
  · exact (run.settled quiet).1

end Guarded

abbrev DeepScan := Guarded (deepFile ⟨1, 2, 3⟩) (List (Path × FileInfo)) Path 1

/-- The task for the only file has been pushed; the scanning thread is still in `Submit`. -/
def pushed : DeepScan where
  scan := {
    stack := []
    pc := .submitting ["r", "d"] ["r", "d"] []
    pool := { SyncThreadPool.create with
      outstanding := 1, q := [.analyze ["r", "d", "x"] ["r", "d"]] }
    processor := []
    cache := fun _ => none }
  holder := none

theorem pushed_run : ∃ trace, trace.map Prod.snd = [.other, .other, .other, .other] ∧
    Guarded.Run (Call.locator id) ["r", "d"] [] (fun _ => none) trace pushed := by
  have r0 : Guarded.Run (Call.locator id) ["r", "d"] [] (fun _ => none) []
    (⟨.start ["r", "d"] [] (fun _ => none), none⟩ : DeepScan) := .start
  have r1 := r0.next (.other (.list ["r", "d"] none [] ["x"] rfl rfl rfl) (by simp) rfl fun _ => rfl)
  have r2 := r1.next (.other (.opened ["r", "d"] none ["x"] rfl rfl) (by simp [openCall]) rfl
    fun _ => rfl)
  have r3 := r2.next (.other (.submit ["r", "d"] _ "x" [] rfl rfl) (by simp) rfl fun _ => rfl)
  have r4 := r3.next (.other (.pool _ (.push () _ rfl (Nat.zero_le _)
    (.nobody fun _ asleep => by cases asleep))) (by simp) rfl fun _ => rfl)
  exact ⟨_, rfl, r4⟩

/-- The loop ends and the mutex is destroyed before the task for the file locks it. -/
theorem locked_after_destroyed : ∃ (trace : List (DeepScan × MutexEvent)) (s : DeepScan),
    Guarded.Run (Call.locator id) ["r", "d"] [] (fun _ => none) trace s ∧
      s.scan.processor = [(["r", "d", "x"], ⟨1, 2, 3⟩)] ∧ ¬ Guarded.Safe trace := by
  obtain ⟨trace, -, r4⟩ := pushed_run
  have r5 := r4.next (.other (.submitted ["r", "d"] _ [] rfl rfl) nofun rfl fun _ => rfl)
  have r6 := r5.next (.other (.next ["r", "d"] _ rfl) nofun rfl fun _ => rfl)
  have r7 := r6.next (.destroy (.unlock rfl rfl) rfl rfl)
  have r8 := r7.next (.other (.pool _ (.take 0 _ [] rfl rfl rfl (.nobody (fun _ _ => nofun) nofun)))
    nofun rfl fun _ => rfl)
  have r9 := r8.next (.other (.hashed 0 ["r", "d", "x"] _ ⟨1, 2, 3⟩ rfl rfl (by decide)) nofun rfl
    fun _ => rfl)
  have r10 := r9.next (.lock 0 ["r", "d", "x"] _ ⟨1, 2, 3⟩ rfl (by decide) rfl rfl)
  have r11 := r10.next (.file 0 ["r", "d", "x"] _ ⟨1, 2, 3⟩ rfl (by decide) rfl rfl)
  refine ⟨_, _, r11, rfl, fun safe => ?_⟩
  have left := safe _ (List.mem_append_right _ (List.mem_singleton_self _)) (Or.inr rfl)
  cases left

/-- The task is done before the loop ends. -/
theorem mutex_outlives_iff_done : ∃ (trace : List (DeepScan × MutexEvent)) (s : DeepScan),
    Guarded.Run (Call.locator id) ["r", "d"] [] (fun _ => none) trace s ∧
      s.scan.processor = [(["r", "d", "x"], ⟨1, 2, 3⟩)] ∧ MutexEvent.destroy ∈ trace.map Prod.snd ∧
      Guarded.Safe trace := by
  obtain ⟨trace, others, r4⟩ := pushed_run
  have r5 := r4.next (.other (.pool _ (.take 0 _ [] rfl rfl rfl (.nobody (fun _ _ => nofun) nofun)))
    nofun rfl fun _ => rfl)
  have r6 := r5.next (.other (.hashed 0 ["r", "d", "x"] _ ⟨1, 2, 3⟩ rfl rfl (by decide)) nofun rfl
    fun _ => rfl)
  have r7 := r6.next (.lock 0 ["r", "d", "x"] _ ⟨1, 2, 3⟩ rfl (by decide) rfl rfl)
  have r8 := r7.next (.file 0 ["r", "d", "x"] _ ⟨1, 2, 3⟩ rfl (by decide) rfl rfl)
  have r9 := r8.next (.other (.submitted ["r", "d"] _ [] rfl rfl) nofun rfl fun _ => rfl)
  have r10 := r9.next (.other (.next ["r", "d"] _ rfl) nofun rfl fun _ => rfl)
  have r11 := r10.next (.destroy (.unlock rfl rfl) rfl rfl)
  refine ⟨_, _, r11, rfl, by simp, (Guarded.mutex_outlives_iff r11).1 ?_⟩
  intro x hx ends
  simp only [List.append_assoc, List.mem_append, List.mem_singleton] at hx
  rcases hx with early | rfl | rfl | rfl | rfl | rfl | rfl | rfl
  · have : x.2 ∈ trace.map Prod.snd := List.mem_map_of_mem early
    simp [others, ends] at this
  all_goals try cases ends
  rintro ⟨job, pending, -⟩
  exact Multiset.notMem_zero job pending

end Dupa
