import Dupa.Library.Pace
import Dupa.PoolPace
import Dupa.ScanDirectory

/-!
# A scan returns

Below a root of finite depth there is only so much to visit. However the threads
are scheduled, a scan makes a bounded number of steps for that, not counting
wakeups that nobody asked for and one step after each of them, and until it has
returned some thread can go on.
-/

namespace Dupa

/-- No directory of the tree has a longer path. -/
def FileSystem.Shallow (files : FileSystem) (root : Path) (depth : ℕ) : Prop :=
  ∀ dir, files.Listed root dir → dir.length ≤ depth

variable {files : FileSystem} {σ H : Type} {n : ℕ} {root dir : Path} {depth : ℕ}

/-! ## What is left to visit -/

namespace Work

/-- How far above the bottom of the tree an item is. -/
def height (depth : ℕ) : Work → ℕ
  | .root path => 2 * (depth + 1 - path.length)
  | .dir path => 2 * (depth + 1 - path.length)
  | .entry path => 2 * (depth + 1 - path.length) + 1
  | .file _ => 0

/-- The items that a visit of this one leads to, and the item itself. -/
def visits (files : FileSystem) (depth : ℕ) (work : Work) : ℕ :=
  (traversal files).visits (height depth work) work

theorem visits_pos (files : FileSystem) (depth : ℕ) (work : Work) :
    0 < work.visits files depth :=
  (traversal files).visits_pos _ work

theorem visits_openWork (shallow : files.Shallow root depth) (listed : files.Listed root dir)
    {names : List String} (listing : files.list dir = some names) (parent : Option H) :
    1 + (names.map fun name => visits files depth (.entry (dir ++ [name]))).sum ≤
      (openWork dir parent).visits files depth := by
  have short := shallow dir listed
  have inside : (traversal files).children (openWork dir parent) =
      names.map fun name => .entry (dir ++ [name]) := Scan.children_openWork listing
  have falls := (traversal files).visits_falls (height depth) (a := openWork dir parent) (by
    intro child hc
    rw [inside] at hc
    obtain ⟨name, -, rfl⟩ := List.mem_map.mp hc
    have height_eq : height depth (openWork dir parent) = 2 * (depth + 1 - dir.length) := by
      cases parent <;> rfl
    rw [height_eq, height, List.length_append, List.length_singleton]
    omega)
  rwa [inside, List.map_map] at falls

theorem visits_entry {path : Path} {child : Work} (only : children files (.entry path) = [child])
    (here : child = .dir path ∨ child = .file path) :
    1 + child.visits files depth ≤ visits files depth (.entry path) := by
  have falls := (traversal files).visits_falls (height depth) (a := .entry path) (by
    intro c hc
    obtain rfl := List.mem_singleton.mp (only ▸ hc : c ∈ [child])
    rcases here with rfl | rfl <;> simp only [height] <;> omega)
  have inside : (traversal files).children (.entry path) = [child] := only
  rwa [inside, List.map_singleton, List.sum_singleton] at falls

end Work

/-! ## Steps and wakeups -/

def Job.effort : Job files H → ℕ
  | analyze _ _ => 3
  | report _ _ _ _ _ => 2

/-- The steps of the scanning thread, with eight for each item that it leads to. -/
def Pc.effort (depth n : ℕ) : Pc files H → ℕ
  | loop => n + 5
  | listed dir parent _ _ => 8 * (openWork dir parent).visits files depth + (n + 4)
  | entries dir _ names =>
    8 * (names.map fun name => Work.visits files depth (.entry (dir ++ [name]))).sum + (n + 6)
  | submitting dir _ names =>
    8 * (names.map fun name => Work.visits files depth (.entry (dir ++ [name]))).sum + (n + 7)
  | unlocked => n + 4
  | stopping => 1
  | returned => 0

namespace Scan

variable {P : ScanProcessor (StateM σ) H} {processor : σ} {cache : Path → Option FileInfo}
  {made calls : List Call} {s s' : Scan files σ H n}

/-- A thread of the pool wakes up without having been notified. -/
def Wakes (P : ScanProcessor (StateM σ) H) (s s' : Scan files σ H n) : Prop :=
  (∃ made, Step P s made s') ∧ s.pool.Wakes s'.pool

/-- Any other step of any thread. -/
def Acts (P : ScanProcessor (StateM σ) H) (s s' : Scan files σ H n) : Prop :=
  (∃ made, Step P s made s') ∧ ¬s.pool.Wakes s'.pool

def effort (depth : ℕ) (s : Scan files σ H n) : ℕ :=
  8 * (s.stack.map fun item => (openWork item.1 item.2).visits files depth).sum +
    s.pc.effort depth n + s.pool.effort Job.effort

theorem effort_start (depth : ℕ) :
    (start root processor cache : Scan files σ H n).effort depth =
      8 * (Work.root root).visits files depth + 2 * n + 5 := by
  have created : (SyncThreadPool.create : SyncThreadPool Unit (Fin n) (Job files H)).effort
      Job.effort = n := by
    rw [SyncThreadPool.effort_create, Fintype.card_fin]
  simp only [effort, start, created, List.map_singleton, List.sum_singleton, Pc.effort, openWork]
  omega

theorem Run.known [Inhabited H] (run : Run P root processor cache calls s) {ticket : Ticket H}
    (member : ticket ∈ s.tickets) : ticket.1.Found files root :=
  Work.reach_iff.mp (run.told.2.accounts.known _ (Multiset.mem_map_of_mem Prod.fst member))

/-- Where the scanning thread and the pool are together, whatever is in the cache. -/
structure OnCourse (root : Path) (s : Scan files σ H n) : Prop where
  idle : s.pc.submits = false → s.pool.client () = .idle
  working : s.pc.stops = false → s.pool.owner = .working
  /-- A directory whose iterator has been created belongs to the tree. -/
  listed : ∀ dir parent names listing, s.pc = .listed dir parent names listing →
    files.Listed root dir

theorem Run.onCourse [Inhabited H] (run : Run P root processor cache calls s) :
    s.OnCourse root where
  idle := run.told.1.idle
  working := run.told.1.working
  listed := by
    intro dir parent names listing here
    have member : (openWork dir parent, parent) ∈ s.tickets := by
      rw [tickets, here, ticketsAt_pc]
      exact Multiset.mem_add.mpr (Or.inl (Multiset.mem_singleton_self _))
    have found := run.known member
    apply FileSystem.listed_iff.mpr
    cases parent with
    | none => exact ⟨by simp [listing], Or.inl found⟩
    | some parent => exact ⟨by simp [listing], Or.inr found⟩

theorem effort_entries (depth : ℕ) (dir : Path) (handle : H) (name : String) (rest : List String) :
    (Pc.entries dir handle (name :: rest) : Pc files H).effort depth n =
      8 * Work.visits files depth (.entry (dir ++ [name])) +
        (Pc.entries dir handle rest : Pc files H).effort depth n := by
  simp only [Pc.effort, List.map_cons, List.sum_cons]
  omega

/-- Every step that is not a wakeup lowers the effort. -/
theorem Step.lowers (shallow : files.Shallow root depth) (course : s.OnCourse root)
    (step : Step P s made s') : s'.effort depth < s.effort depth ∨
      s.pool.Wakes s'.pool ∧ s'.effort depth = s.effort depth + 1 := by
  have worker : ∀ {w : Fin n} {job : Job files H} (x : Worker (Job files H)),
      s.pool.worker w = .running job → (s.pool.setWorker w x).effort Job.effort + job.effort =
        s.pool.effort Job.effort + x.effort Job.effort := by
    intro w job x here
    have moved := SyncThreadPool.effort_setWorker Job.effort s.pool w x
    rwa [here, Worker.effort] at moved
  cases step with
  | pool p step =>
    by_cases wakes : s.pool.Wakes p
    · have := wakes.effort_eq Job.effort
      refine Or.inr ⟨wakes, ?_⟩
      simp only [effort]
      omega
    · have := step.effort_lt Job.effort wakes
      simp only [effort]
      omega
  | unlistable dir parent rest here top throws =>
    have := Work.visits_pos files depth (openWork dir parent)
    simp only [effort, top, List.map_cons, List.sum_cons]
    omega
  | list dir parent rest names here top listing =>
    simp only [effort, top, here, Pc.effort, List.map_cons, List.sum_cons]
    omega
  | opened dir parent names listing here =>
    have := Work.visits_openWork shallow (course.listed dir parent names listing here) listing parent
    simp only [effort, here, Pc.effort]
    omega
  | skip dir handle name rest here kind =>
    have := Work.visits_pos files depth (.entry (dir ++ [name]))
    simp only [effort, here, effort_entries]
    omega
  | push dir handle name rest here kind =>
    have only : Work.children files (.entry (dir ++ [name])) = [.dir (dir ++ [name])] := by
      simp only [Work.children, kind]
    have falls : 1 + (Work.dir (dir ++ [name])).visits files depth ≤
        Work.visits files depth (.entry (dir ++ [name])) := Work.visits_entry only (Or.inl rfl)
    simp only [effort, here, effort_entries, openWork, List.map_cons, List.sum_cons]
    omega
  | submit dir handle name rest here kind =>
    have := Work.visits_pos files depth (.entry (dir ++ [name]))
    have submitted := SyncThreadPool.effort_submit Job.effort (course.idle (by simp [here, Pc.submits]))
      (.analyze (dir ++ [name]) handle)
    simp only [effort, here, effort_entries, submitted]
    simp only [Pc.effort, Job.effort]
    omega
  | submitted dir handle rest here done =>
    simp only [effort, here, Pc.effort]
    omega
  | next dir handle here =>
    simp only [effort, here, Pc.effort, List.map_nil, List.sum_nil]
    omega
  | unlock here empty =>
    simp only [effort, here, Pc.effort]
    omega
  | stop here =>
    have stopped := SyncThreadPool.effort_stop Job.effort
      (course.working (by simp [here, Pc.stops]))
    rw [Fintype.card_fin] at stopped
    simp only [effort, here, Pc.effort, stopped]
    omega
  | finish here stopped =>
    simp only [effort, here, Pc.effort]
    omega
  | fail w path parent here throws =>
    have := worker .ready here
    simp only [Job.effort, Worker.effort] at this
    simp only [effort]
    omega
  | zero w path parent info here known dropped =>
    have := worker .ready here
    simp only [Job.effort, Worker.effort] at this
    simp only [effort]
    omega
  | hashed w path parent info here known kept =>
    have := worker (.running (.report path parent info known kept)) here
    simp only [Job.effort, Worker.effort] at this
    simp only [effort]
    omega
  | file w path parent info known kept here =>
    have := worker .ready here
    simp only [Job.effort, Worker.effort] at this
    simp only [effort]
    omega

/-! ## Some thread can go on -/

/-- No thread of the pool waits in vain, and a pool told to stop does not forget it. -/
structure Awake (s : Scan files σ H n) : Prop where
  lively : s.pool.Lively
  busy : s.pc.stops = true → s.pool.owner ≠ .working

theorem Step.awake (h : Step P s made s') (al : s.Aligned) (awake : s.Awake) : s'.Awake := by
  obtain ⟨lively, busy⟩ := awake
  cases h with
  | pool p step => exact ⟨step.lively lively al.pool, fun stops => step.busy (busy stops)⟩
  | submit dir handle name rest here kind =>
    refine ⟨lively.wakeClient ?_, fun stops => by cases stops⟩
    rw [al.idle (by simp [here, Pc.submits])]
    rfl
  | stop here =>
    exact ⟨lively.setOwner (fun blocked => by cases blocked), fun _ => by simp [SyncThreadPool.stop]⟩
  | finish here stopped => exact ⟨lively, fun _ => by simp [stopped]⟩
  | fail w path parent here | zero w path parent info here | file w path parent info known kept here =>
    exact ⟨lively.wakeWorker (by simp [here]), busy⟩
  | hashed w path parent info here known kept => exact ⟨lively.work here _, busy⟩
  | unlistable => exact ⟨lively, busy⟩
  | list | opened | skip | push | submitted | next | unlock =>
    exact ⟨lively, fun stops => by cases stops⟩

theorem Run.awake [Inhabited H] (run : Run P root processor cache calls s) : s.Awake := by
  induction run with
  | start => exact ⟨SyncThreadPool.create_lively, fun stops => by cases stops⟩
  | next run step ih => exact step.awake run.told.1 ih

theorem not_wakes {p p' : SyncThreadPool Unit (Fin n) (Job files H)}
    (other : p'.effort (fun _ => 0) ≠ p.effort (fun _ => 0) + 1) : ¬p.Wakes p' :=
  fun wakes => other (wakes.effort_eq _)

/-- The scanning thread goes on by itself. -/
theorem Step.acts (h : Step P s made s') (same : s'.pool = s.pool) : Acts P s s' := by
  refine ⟨⟨made, h⟩, not_wakes ?_⟩
  rw [same]
  omega

/-- So does a worker with its task. -/
theorem Step.acts_worker {w : Fin n} {job : Job files H} (h : Step P s made s')
    (here : s.pool.worker w = .running job) (done : s'.pool.worker w ≠ .running job) :
    Acts P s s' := by
  refine ⟨⟨made, h⟩, fun wakes => ?_⟩
  exact wakes.still (t := .worker w) (Or.inr ⟨job, here⟩) fun same => done (same.trans here)

theorem acts_of_running {w : Fin n} {job : Job files H} (here : s.pool.worker w = .running job) :
    ∃ s', Acts P s s' := by
  have ready : ∀ {x : Worker (Job files H)}, x ≠ .running job →
      (s.pool.setWorker w x).worker w ≠ .running job := by
    intro x other
    simpa [SyncThreadPool.setWorker] using other
  cases job with
  | analyze path parent =>
    cases known : files.hash path with
    | none => exact ⟨_, (Step.fail w path parent here known).acts_worker here (ready (by simp))⟩
    | some info =>
      by_cases kept : info.sum = 0
      · exact ⟨_, (Step.zero w path parent info here known kept).acts_worker here (ready (by simp))⟩
      · exact ⟨_, (Step.hashed w path parent info here known kept).acts_worker here (ready (by simp))⟩
  | report path parent info known kept =>
    exact ⟨_, (Step.file w path parent info known kept here).acts_worker here (ready (by simp))⟩

theorem acts_of_pending (al : s.Aligned) (awake : s.Awake) (pending : s.pool.Pending)
    (served : 0 < n ∨ s.pool.tasks = 0) : ∃ s', Acts P s s' := by
  have workers : Nonempty (Fin n) ∨ s.pool.tasks = 0 := served.imp_left fun h => ⟨⟨0, h⟩⟩
  rcases awake.lively.acts al.pool pending workers with ⟨p, step, quiet⟩ | ⟨w, job, here⟩
  · exact ⟨_, ⟨[], .pool p step⟩, quiet⟩
  · exact acts_of_running here

/-- As long as there are workers, or no tasks, a scan that has not returned goes on. -/
theorem Run.acts [Inhabited H] (run : Run P root processor cache calls s)
    (alive : s.pc ≠ .returned) (served : 0 < n ∨ s.pool.tasks = 0) : ∃ s', Acts P s s' := by
  have al := run.told.1
  cases here : s.pc with
  | loop =>
    cases top : s.stack with
    | nil => exact ⟨_, (Step.unlock here top).acts rfl⟩
    | cons item rest =>
      obtain ⟨dir, parent⟩ := item
      cases listing : files.list dir with
      | none =>
        exact ⟨_, (Step.unlistable dir parent rest here top listing).acts rfl⟩
      | some names =>
        exact ⟨_, (Step.list dir parent rest names here top listing).acts rfl⟩
  | listed dir parent names listing =>
    exact ⟨_, (Step.opened dir parent names listing here).acts rfl⟩
  | entries dir handle names =>
    cases names with
    | nil => exact ⟨_, (Step.next dir handle here).acts rfl⟩
    | cons name rest =>
      by_cases directory : files.kind (dir ++ [name]) = some .directory
      · exact ⟨_, (Step.push dir handle name rest here directory).acts rfl⟩
      by_cases regular : files.kind (dir ++ [name]) = some .regular
      · refine ⟨_, ⟨[], .submit dir handle name rest here regular⟩, not_wakes ?_⟩
        rw [SyncThreadPool.effort_submit _ (al.idle (by simp [here, Pc.submits]))]
        omega
      · exact ⟨_, (Step.skip dir handle name rest here ⟨directory, regular⟩).acts rfl⟩
  | submitting dir handle rest =>
    by_cases done : s.pool.client () = .idle
    · exact ⟨_, (Step.submitted dir handle rest here done).acts rfl⟩
    · exact acts_of_pending al run.awake (Or.inl ⟨(), done⟩) served
  | unlocked =>
    refine ⟨_, ⟨[], .stop here⟩, not_wakes ?_⟩
    rw [SyncThreadPool.effort_stop _ (al.working (by simp [here, Pc.stops]))]
    omega
  | stopping =>
    by_cases stopped : s.pool.owner = .stopped
    · exact ⟨_, (Step.finish here stopped).acts rfl⟩
    · exact acts_of_pending al run.awake
        (Or.inr ⟨run.awake.busy (by simp [here, Pc.stops]), stopped⟩) served
  | returned => exact absurd here alive

theorem potential [Inhabited H] (shallow : files.Shallow root depth)
    (P : ScanProcessor (StateM σ) H) (processor : σ) (cache : Path → Option FileInfo) :
    Potential (Acts P) (Wakes P)
      (fun s : Scan files σ H n => ∃ calls, Run P root processor cache calls s) (effort depth) where
  acted := by
    rintro s s' ⟨calls, run⟩ ⟨⟨made, step⟩, quiet⟩
    refine ⟨⟨_, run.next step⟩, ?_⟩
    exact (step.lowers shallow run.onCourse).resolve_right fun wakes => quiet wakes.1
  woken := by
    rintro s s' ⟨calls, run⟩ ⟨⟨made, step⟩, -⟩
    refine ⟨⟨_, run.next step⟩, ?_⟩
    rcases step.lowers shallow run.onCourse with lower | ⟨-, upper⟩ <;> omega

/-! ## What becomes of the files -/

theorem Run.file_known [Inhabited H] (run : Run P root processor cache calls s)
    {job : Job files H} (member : job ∈ s.pool.tasks) : ∃ path, files.Regular root path := by
  have found : job.ticket.1.Found files root := by
    apply run.known
    rw [tickets, ticketsAt]
    exact Multiset.mem_add.mpr (Or.inr (Multiset.mem_map_of_mem _ member))
  cases job with
  | analyze path | report path => exact ⟨path, found⟩

theorem Run.served [Inhabited H] (run : Run P root processor cache calls s)
    (served : 0 < n ∨ ∀ path, ¬files.Regular root path) : 0 < n ∨ s.pool.tasks = 0 := by
  apply served.imp_right
  intro none
  apply Multiset.eq_zero_of_forall_notMem
  intro job member
  obtain ⟨path, regular⟩ := run.file_known member
  exact none path regular

def isFile : Ticket H → Prop := fun ticket => ∃ path, ticket.1 = .file path

/-- The files that are to do are the tasks. -/
theorem card_tasks (s : Scan files σ H n) [DecidablePred (isFile (H := H))] :
    s.tickets.countP isFile = s.pool.tasks.card := by
  have stacked : ∀ item : Path × Option H, ¬isFile (openWork item.1 item.2, item.2) := by
    rintro ⟨dir, parent⟩ ⟨path, same⟩
    cases parent <;> cases same
  have loose : ∀ ticket ∈ s.pc.tickets, ¬isFile ticket := by
    intro ticket member
    cases here : s.pc with
    | listed dir parent =>
      obtain rfl : ticket = (openWork dir parent, parent) := by simpa [here, Pc.tickets] using member
      exact stacked (dir, parent)
    | entries dir handle names | submitting dir handle names =>
      simp only [here, Pc.tickets, List.mem_map] at member
      obtain ⟨name, -, rfl⟩ := member
      rintro ⟨path, same⟩
      cases same
    | loop | unlocked | stopping | returned => simp [here, Pc.tickets] at member
  have tasks : ∀ job : Job files H, isFile job.ticket := by
    rintro (⟨path⟩ | ⟨path⟩) <;> exact ⟨path, rfl⟩
  simpa [tickets, ticketsAt, Multiset.countP_add, Multiset.countP_map, stacked, tasks] using
    fun work handle => loose (work, handle)

/-- Without a worker no task comes to an end. -/
theorem Step.card_tasks_le (h : Step P s made s') (al : s.Aligned) (nobody : ¬0 < n) :
    s.pool.tasks.card ≤ s'.pool.tasks.card := by
  have gone : Fin n → False := fun w => nobody w.pos
  cases h with
  | pool p step => rw [step.tasks]
  | submit dir handle name rest here kind =>
    rw [SyncThreadPool.tasks_submit (al.idle (by simp [here, Pc.submits])), Multiset.card_cons]
    exact Nat.le_succ _
  | stop => exact le_refl s.pool.tasks.card
  | fail w | zero w | hashed w | file w => exact (gone w).elim
  | unlistable | list | opened | skip | push | submitted | next | unlock | finish => exact le_refl _

/-- The file of the path is to do, or it is in something that is. -/
def Waits (path : Path) (s : Scan files σ H n) : Prop :=
  ∃ ticket ∈ s.tickets, (traversal files).Reach ticket.1 (.file path)

theorem Step.waits (h : Step P s made s') (al : s.Aligned) (nobody : ¬0 < n) {path : Path}
    (waits : s.Waits path) : s'.Waits path := by
  classical
  obtain ⟨t, member, reach⟩ := waits
  cases h.progress al with
  | move silent same tickets cache => exact ⟨t, tickets ▸ member, reach⟩
  | visit ticket handle rest before visit after cache looked =>
    rw [before] at member
    rw [Waits, after]
    rcases Multiset.mem_cons.mp member with rfl | member
    · rcases reach.cases_head with same | ⟨child, hc, reach⟩
      · -- The file's task would have ended.
        have fewer := h.card_tasks_le al nobody
        rw [← card_tasks, ← card_tasks, before, after, same] at fewer
        rw [Multiset.countP_cons_of_pos _ ⟨path, same⟩] at fewer
        simp [Work.children] at fewer
      · refine ⟨(child, handle), Multiset.mem_add.mpr (Or.inl ?_), reach⟩
        exact Multiset.mem_coe.mpr (List.mem_map_of_mem hc)
    · exact ⟨t, Multiset.mem_add.mpr (Or.inr member), reach⟩

theorem Run.waits [Inhabited H] (run : Run P root processor cache calls s) (nobody : ¬0 < n)
    {path : Path} (regular : files.Regular root path) : s.Waits path := by
  induction run with
  | start =>
    refine ⟨(.root root, none), ?_, Work.reach_iff.mpr regular⟩
    rw [start_tickets]
    exact Multiset.mem_singleton_self _
  | next run step ih => exact step.waits run.told.1 nobody ih

/-- There is a bound for the steps of a scan, wakeups apart and those that each of
them costs again. A scan that has not returned can make one, and when no thread
can, it has returned and told of the whole tree. -/
theorem scanDirectory_returns [Inhabited H] (shallow : files.Shallow root depth)
    (served : 0 < n ∨ ∀ path, ¬files.Regular root path) :
    ∃ bound : ℕ, ∀ (P : ScanProcessor (StateM σ) H) (processor : σ)
      (cache : Path → Option FileInfo) (acts wakes : ℕ) (s : Scan files σ H n),
      Paced (Acts P) (Wakes P) (start root processor cache) acts wakes s →
        acts ≤ bound + wakes ∧ (s.pc ≠ .returned → ∃ s', Acts P s s') ∧
        ∃ calls s', Relation.ReflTransGen (Acts P) s s' ∧ Run P root processor cache calls s' ∧
          s'.pc = .returned ∧ Scanned files root calls := by
  refine ⟨8 * (Work.root root).visits files depth + 2 * n + 5, ?_⟩
  intro P processor cache acts wakes s paced
  have pot := potential (n := n) shallow P processor cache
  obtain ⟨⟨calls, run⟩, bound⟩ := pot.paced ⟨[], .start⟩ paced
  rw [effort_start] at bound
  refine ⟨by omega, fun alive => run.acts alive (run.served served), ?_⟩
  obtain ⟨s', steps, ⟨calls', run'⟩, stuck⟩ := pot.exists_stuck ⟨calls, run⟩
  have returned : s'.pc = .returned := by
    by_contra alive
    obtain ⟨t, step⟩ := run'.acts alive (run'.served served)
    exact stuck t step
  exact ⟨calls', s', steps, run', returned, run'.scanned returned⟩

theorem deepFile_shallow (info : FileInfo) : (deepFile info).Shallow ["r"] 2 := by
  intro dir listed
  have here : ((deepFile info).list dir).isSome := listed.isSome
  simp only [deepFile] at here
  split_ifs at here with top inner
  · simp [top]
  · simp [inner]
  · cases here

theorem scanDirectory_returns_deepFile : ∃ bound : ℕ, ∀ (acts wakes : ℕ)
    (s : Scan (deepFile ⟨1, 2, 3⟩) (List (Path × FileInfo)) Path 1),
    Paced (Acts (Call.locator id)) (Wakes (Call.locator id)) (start ["r"] [] fun _ => none)
      acts wakes s →
      acts ≤ bound + wakes := by
  obtain ⟨bound, returns⟩ := @scanDirectory_returns (deepFile ⟨1, 2, 3⟩) (List (Path × FileInfo))
    Path 1 ["r"] 2 _ (deepFile_shallow _) (Or.inl Nat.one_pos)
  exact ⟨bound, fun acts wakes s paced => (returns _ _ _ acts wakes s paced).1⟩

/-- Some run returns. -/
theorem exists_returned [Inhabited H] (shallow : files.Shallow root depth)
    (served : 0 < n ∨ ∀ path, ¬files.Regular root path)
    (P : ScanProcessor (StateM σ) H) (processor : σ) (cache : Path → Option FileInfo) :
    ∃ calls, ∃ s : Scan files σ H n, Run P root processor cache calls s ∧ s.pc = .returned := by
  have pot := potential (n := n) shallow P processor cache
  obtain ⟨s, -, ⟨calls, run⟩, stuck⟩ := pot.exists_stuck ⟨[], .start⟩
  refine ⟨calls, s, run, ?_⟩
  by_contra alive
  obtain ⟨t, step⟩ := run.acts alive (run.served served)
  exact stuck t step

/-- A scan can return if there is a worker, or no file to be analyzed, and only then:
this is what the pool asserts. -/
theorem scanDirectory_returns_iff [Inhabited H] (shallow : files.Shallow root depth)
    (P : ScanProcessor (StateM σ) H) (processor : σ) (cache : Path → Option FileInfo) :
    (∃ calls, ∃ s : Scan files σ H n, Run P root processor cache calls s ∧ s.pc = .returned) ↔
      0 < n ∨ ∀ path, ¬files.Regular root path := by
  constructor
  · rintro ⟨calls, s, run, returned⟩
    by_contra unserved
    obtain ⟨nobody, some⟩ := not_or.mp unserved
    obtain ⟨path, regular⟩ := not_forall_not.mp some
    obtain ⟨ticket, member, -⟩ := run.waits nobody regular
    rw [run.tickets_eq_zero returned] at member
    exact Multiset.notMem_zero ticket member
  · exact fun served => exists_returned shallow served P processor cache

theorem scanDirectory_returns_iff_nobody :
    ¬∃ calls, ∃ s : Scan (deepFile ⟨1, 2, 3⟩) (List (Path × FileInfo)) Path 0,
      Run (Call.locator id) ["r"] [] (fun _ => none) calls s ∧ s.pc = .returned := by
  rw [scanDirectory_returns_iff (deepFile_shallow ⟨1, 2, 3⟩)]
  rintro (nobody | none)
  · exact absurd nobody (Nat.lt_irrefl 0)
  · have top : (deepFile ⟨1, 2, 3⟩).Listed ["r"] ["r"] := .root rfl
    have inner : (deepFile ⟨1, 2, 3⟩).Listed ["r"] (["r"] ++ ["d"]) :=
      .child top rfl List.mem_cons_self rfl rfl
    exact none ["r", "d", "x"]
      ⟨⟨["r", "d"], ["x"], "x", inner, rfl, List.mem_cons_self, rfl⟩, rfl⟩

end Scan

end Dupa
