import Dupa.ThreadPool
import Dupa.Visits

/-!
# Scanning a directory

`ScanDirectory` walks the directories with a stack of its own and leaves the
files to the workers of a pool. Its local mutex serialises the calls to the
processor, so a call is one step. Every step of any thread either visits one item
of the traversal or only moves items about.
-/

namespace Dupa

/-- Where the scanning thread is. -/
inductive Pc (files : FileSystem) (H : Type) where
  /-- At the loop's condition. -/
  | loop
  /-- The `directory_iterator` has been created. -/
  | listed (dir : Path) (parent : Option H) (names : List String)
      (listing : files.list dir = some names)
  | entries (dir : Path) (handle : H) (names : List String)
  /-- In `pool.Submit`. -/
  | submitting (dir : Path) (handle : H) (names : List String)
  /-- The mutex has been destroyed. -/
  | unlocked
  /-- In the destructor of the pool. -/
  | stopping
  | returned

/-- What is left to run of the task for a file. -/
inductive Job (files : FileSystem) (H : Type) where
  | analyze (path : Path) (parent : H)
  | report (path : Path) (parent : H) (info : FileInfo) (known : files.hash path = some info)
      (kept : info.sum ≠ 0)

/-- One call of `ScanDirectory` with a pool of `n` workers. -/
structure Scan (files : FileSystem) (σ H : Type) (n : ℕ) where
  stack : List (Path × Option H)
  pc : Pc files H
  pool : SyncThreadPool Unit (Fin n) (Job files H)
  processor : σ
  /-- The entries of `HashCache`. -/
  cache : Path → Option FileInfo

namespace Scan

variable {files : FileSystem} {σ H : Type} {n : ℕ}

def start (root : Path) (processor : σ) (cache : Path → Option FileInfo) : Scan files σ H n where
  stack := [(root, none)]
  pc := .loop
  pool := .create
  processor := processor
  cache := cache

/-- A step of any thread, and the call to the processor that it makes. -/
inductive Step (P : ScanProcessor (StateM σ) H) (s : Scan files σ H n) :
    List Call → Scan files σ H n → Prop where
  | pool (p : SyncThreadPool Unit (Fin n) (Job files H)) (step : s.pool.Step p) :
      Step P s [] { s with pool := p }
  /-- The exception is logged. -/
  | unlistable (dir : Path) (parent : Option H) (rest : List (Path × Option H))
      (here : s.pc = .loop) (top : s.stack = (dir, parent) :: rest)
      (throws : files.list dir = none) : Step P s [] { s with stack := rest }
  | list (dir : Path) (parent : Option H) (rest : List (Path × Option H)) (names : List String)
      (here : s.pc = .loop) (top : s.stack = (dir, parent) :: rest)
      (listing : files.list dir = some names) :
      Step P s [] { s with stack := rest, pc := .listed dir parent names listing }
  | opened (dir : Path) (parent : Option H) (names : List String)
      (listing : files.list dir = some names) (here : s.pc = .listed dir parent names listing) :
      Step P s [openCall dir parent]
        { s with
          pc := .entries dir ((openDir P dir parent).run s.processor).1 names
          processor := ((openDir P dir parent).run s.processor).2 }
  /-- A symlink, a special file, or an entry that cannot be examined. -/
  | skip (dir : Path) (handle : H) (name : String) (rest : List String)
      (here : s.pc = .entries dir handle (name :: rest))
      (kind : files.kind (dir ++ [name]) ≠ some .directory ∧
        files.kind (dir ++ [name]) ≠ some .regular) :
      Step P s [] { s with pc := .entries dir handle rest }
  | push (dir : Path) (handle : H) (name : String) (rest : List String)
      (here : s.pc = .entries dir handle (name :: rest))
      (kind : files.kind (dir ++ [name]) = some .directory) :
      Step P s [] { s with
        stack := (dir ++ [name], some handle) :: s.stack, pc := .entries dir handle rest }
  | submit (dir : Path) (handle : H) (name : String) (rest : List String)
      (here : s.pc = .entries dir handle (name :: rest))
      (kind : files.kind (dir ++ [name]) = some .regular) :
      Step P s [] { s with
        pc := .submitting dir handle rest
        pool := s.pool.submit () (.analyze (dir ++ [name]) handle) }
  | submitted (dir : Path) (handle : H) (rest : List String)
      (here : s.pc = .submitting dir handle rest) (done : s.pool.client () = .idle) :
      Step P s [] { s with pc := .entries dir handle rest }
  | next (dir : Path) (handle : H) (here : s.pc = .entries dir handle []) :
      Step P s [] { s with pc := .loop }
  | unlock (here : s.pc = .loop) (empty : s.stack = []) : Step P s [] { s with pc := .unlocked }
  | stop (here : s.pc = .unlocked) : Step P s [] { s with pc := .stopping, pool := s.pool.stop }
  | finish (here : s.pc = .stopping) (stopped : s.pool.owner = .stopped) :
      Step P s [] { s with pc := .returned }
  /-- `HashCache` throws; the exception is logged. -/
  | fail (w : Fin n) (path : Path) (parent : H)
      (here : s.pool.worker w = .running (.analyze path parent))
      (throws : files.hash path = none) : Step P s [] { s with pool := s.pool.setWorker w .ready }
  /-- What `HashCache` returns is, by then, what it holds for the path. -/
  | zero (w : Fin n) (path : Path) (parent : H) (info : FileInfo)
      (here : s.pool.worker w = .running (.analyze path parent))
      (known : files.hash path = some info) (dropped : info.sum = 0) :
      Step P s [] { s with
        pool := s.pool.setWorker w .ready
        cache := Function.update s.cache path (some info) }
  | hashed (w : Fin n) (path : Path) (parent : H) (info : FileInfo)
      (here : s.pool.worker w = .running (.analyze path parent))
      (known : files.hash path = some info) (kept : info.sum ≠ 0) :
      Step P s [] { s with
        pool := s.pool.setWorker w (.running (.report path parent info known kept))
        cache := Function.update s.cache path (some info) }
  | file (w : Fin n) (path : Path) (parent : H) (info : FileInfo)
      (known : files.hash path = some info) (kept : info.sum ≠ 0)
      (here : s.pool.worker w = .running (.report path parent info known kept)) :
      Step P s [.file path info] { s with
        pool := s.pool.setWorker w .ready
        processor := ((P.file path.filename parent info).run s.processor).2 }

/-- The states of a scan, with the calls made so far. -/
inductive Run (P : ScanProcessor (StateM σ) H) (root : Path) (processor : σ)
    (cache : Path → Option FileInfo) : List Call → Scan files σ H n → Prop where
  | start : Run P root processor cache [] (start root processor cache)
  | next {calls made : List Call} {s s' : Scan files σ H n}
      (run : Run P root processor cache calls s) (step : Step P s made s') :
      Run P root processor cache (calls ++ made) s'

end Scan

/-! ## Where the items to do are -/

variable {files : FileSystem} {σ H : Type} {n : ℕ}

def Job.ticket : Job files H → Ticket H
  | analyze path parent => (.file path, some parent)
  | report path parent _ _ _ => (.file path, some parent)

def Pc.tickets : Pc files H → List (Ticket H)
  | listed dir parent _ _ => [(openWork dir parent, parent)]
  | entries dir handle names => names.map fun name => (.entry (dir ++ [name]), some handle)
  | submitting dir handle names => names.map fun name => (.entry (dir ++ [name]), some handle)
  | _ => []

def Pc.submits : Pc files H → Bool
  | submitting _ _ _ => true
  | _ => false

/-- The loop has ended. -/
def Pc.left : Pc files H → Bool
  | unlocked => true
  | stopping => true
  | returned => true
  | _ => false

/-- The pool has been told to stop. -/
def Pc.stops : Pc files H → Bool
  | stopping => true
  | returned => true
  | _ => false

namespace Scan

variable {P : ScanProcessor (StateM σ) H} {root : Path} {processor : σ}
  {cache : Path → Option FileInfo} {made calls : List Call} {s s' : Scan files σ H n}

def ticketsAt (stack : List (Path × Option H)) (pc : Pc files H) (tasks : Multiset (Job files H)) :
    Multiset (Ticket H) :=
  (stack.map fun item => (openWork item.1 item.2, item.2) : List (Ticket H)) +
    pc.tickets + tasks.map Job.ticket

def tickets (s : Scan files σ H n) : Multiset (Ticket H) := ticketsAt s.stack s.pc s.pool.tasks

section
variable (stack : List (Path × Option H)) (pc : Pc files H) (tasks : Multiset (Job files H))

theorem ticketsAt_cons (dir : Path) (parent : Option H) :
    ticketsAt ((dir, parent) :: stack) pc tasks =
      (openWork dir parent, parent) ::ₘ ticketsAt stack pc tasks := by
  simp only [ticketsAt, List.map_cons, ← Multiset.cons_coe, Multiset.cons_add]

theorem ticketsAt_task (job : Job files H) :
    ticketsAt stack pc (job ::ₘ tasks) = job.ticket ::ₘ ticketsAt stack pc tasks := by
  simp only [ticketsAt, Multiset.map_cons, Multiset.add_cons]

theorem ticketsAt_pc :
    ticketsAt stack pc tasks = (pc.tickets : Multiset (Ticket H)) + ticketsAt stack .loop tasks := by
  simp only [ticketsAt, Pc.tickets, Multiset.coe_nil, add_zero]
  ac_rfl

theorem ticketsAt_entry (dir : Path) (handle : H) (name : String) (rest : List String) :
    ticketsAt stack (.entries dir handle (name :: rest)) tasks =
      (.entry (dir ++ [name]), some handle) ::ₘ
        ticketsAt stack (.entries dir handle rest) tasks := by
  simp only [ticketsAt, Pc.tickets, List.map_cons, ← Multiset.cons_coe, Multiset.add_cons,
    Multiset.cons_add]

end

/-- Results that are about to be reported are in the cache. -/
def Reported (cache : Path → Option FileInfo) (tasks : Multiset (Job files H)) : Prop :=
  ∀ path parent info known kept, Job.report path parent info known kept ∈ tasks →
    cache path = some info

/-- The scanning thread, its pool and the cache agree on where the scan is. -/
structure Aligned (s : Scan files σ H n) : Prop where
  pool : s.pool.Sound
  idle : s.pc.submits = false → s.pool.client () = .idle
  working : s.pc.stops = false → s.pool.owner = .working
  emptied : s.pc.left = true → s.stack = []
  stopped : s.pc = .returned → s.pool.owner = .stopped
  reported : Reported s.cache s.pool.tasks

theorem create_tasks : (.create : SyncThreadPool Unit (Fin n) (Job files H)).tasks = 0 := by
  simp [SyncThreadPool.tasks, SyncThreadPool.create, Worker.tasks, Client.tasks]

theorem start_aligned : (start root processor cache : Scan files σ H n).Aligned where
  pool := SyncThreadPool.create_sound
  idle _ := rfl
  working _ := rfl
  emptied h := by cases h
  stopped h := by cases h
  reported path parent info known kept job := by
    change _ ∈ (SyncThreadPool.create : SyncThreadPool Unit (Fin n) (Job files H)).tasks at job
    simp [create_tasks] at job

theorem Aligned.setWorker (h : s.Aligned) {w : Fin n} (here : s.pool.worker w ≠ .exited)
    {x : Worker (Job files H)} (processor : σ) {cache : Path → Option FileInfo}
    (kept : ∀ path info, files.hash path = some info → s.cache path = some info →
      cache path = some info) (new : Reported cache x.tasks) :
    Aligned { s with pool := s.pool.setWorker w x, processor := processor, cache := cache } where
  pool := h.pool.setWorker here x
  idle := h.idle
  working := h.working
  emptied := h.emptied
  stopped := h.stopped
  reported path parent info known nonzero job := by
    have moved := SyncThreadPool.tasks_setWorker s.pool w x
    have : Job.report path parent info known nonzero ∈ s.pool.tasks + x.tasks :=
      moved ▸ Multiset.mem_add.mpr (Or.inl job)
    rcases Multiset.mem_add.mp this with old | fresh
    · exact kept path info known (h.reported path parent info known nonzero old)
    · exact new path parent info known nonzero fresh

theorem cache_update {path : Path} {info : FileInfo} (known : files.hash path = some info) :
    ∀ path' info', files.hash path' = some info' → s.cache path' = some info' →
      Function.update s.cache path (some info) path' = some info' := by
  intro path' info' known' cached
  by_cases same : path' = path
  · subst same
    rw [Function.update_self, ← known, known']
  · rwa [Function.update_of_ne same]

theorem reported_ready (cache : Path → Option FileInfo) :
    Reported cache (Worker.ready : Worker (Job files H)).tasks :=
  fun _ _ _ _ _ job => absurd job (Multiset.notMem_zero _)

/-- Inside the loop only the thread's own state moves. -/
theorem Aligned.move (h : s.Aligned) {pc : Pc files H} (stack : List (Path × Option H))
    (processor : σ) (before : s.pc.left = false) (after : pc.left = false)
    (idle : pc.submits = false → s.pool.client () = .idle) :
    Aligned { s with stack := stack, pc := pc, processor := processor } where
  pool := h.pool
  idle := idle
  working _ := h.working (by cases hpc : s.pc <;> simp_all [Pc.left, Pc.stops])
  emptied left := by simp [after] at left
  stopped returned := by
    obtain rfl : pc = .returned := returned
    cases after
  reported := h.reported

theorem Step.aligned (h : Step P s made s') (al : s.Aligned) : s'.Aligned := by
  cases h with
  | pool p step =>
    obtain ⟨pool, idle, working, emptied, stopped, reported⟩ := al
    refine ⟨step.sound pool, fun h => step.idle (idle h), fun h => ?_, emptied, fun h => ?_,
      by rwa [step.tasks]⟩
    · exact (step.owner_eq (Or.inl (working h))).trans (working h)
    · exact (step.owner_eq (Or.inr (stopped h))).trans (stopped h)
  | unlistable dir parent rest here top throws =>
    exact al.move rest s.processor (by simp [here, Pc.left]) (by simp [here, Pc.left]) al.idle
  | list dir parent rest names here top listing =>
    exact al.move rest s.processor (by simp [here, Pc.left]) rfl
      fun _ => al.idle (by simp [here, Pc.submits])
  | opened dir parent names listing here =>
    exact al.move s.stack _ (by simp [here, Pc.left]) rfl
      fun _ => al.idle (by simp [here, Pc.submits])
  | skip dir handle name rest here kind =>
    exact al.move s.stack s.processor (by simp [here, Pc.left]) rfl
      fun _ => al.idle (by simp [here, Pc.submits])
  | push dir handle name rest here kind =>
    exact al.move _ s.processor (by simp [here, Pc.left]) rfl
      fun _ => al.idle (by simp [here, Pc.submits])
  | submit dir handle name rest here kind =>
    have working : s.pool.owner = .working := al.working (by simp [here, Pc.stops])
    refine ⟨al.pool.submit working _ _, nofun, fun _ => working, nofun, nofun, ?_⟩
    intro path parent info known kept job
    rw [SyncThreadPool.tasks_submit (al.idle (by simp [here, Pc.submits]))] at job
    exact al.reported path parent info known kept ((Multiset.mem_cons.mp job).resolve_left nofun)
  | submitted dir handle rest here done =>
    exact al.move s.stack s.processor (by simp [here, Pc.left]) rfl fun _ => done
  | next dir handle here =>
    exact al.move s.stack s.processor (by simp [here, Pc.left]) rfl
      fun _ => al.idle (by simp [here, Pc.submits])
  | unlock here empty =>
    exact ⟨al.pool, fun _ => al.idle (by simp [here, Pc.submits]),
      fun _ => al.working (by simp [here, Pc.stops]), fun _ => empty, nofun, al.reported⟩
  | stop here =>
    have working : s.pool.owner = .working := al.working (by simp [here, Pc.stops])
    have idle : s.pool.client () = .idle := al.idle (by simp [here, Pc.submits])
    exact ⟨al.pool.stop working fun _ => idle, fun _ => idle, nofun,
      fun _ => al.emptied (by simp [here, Pc.left]), nofun, al.reported⟩
  | finish here stopped =>
    exact ⟨al.pool, fun _ => al.idle (by simp [here, Pc.submits]), nofun,
      fun _ => al.emptied (by simp [here, Pc.left]), fun _ => stopped, al.reported⟩
  | fail w path parent here throws =>
    exact al.setWorker (by simp [here]) _ (fun _ _ _ cached => cached) (reported_ready _)
  | zero w path parent info here known dropped =>
    exact al.setWorker (by simp [here]) _ (cache_update known) (reported_ready _)
  | hashed w path parent info here known kept =>
    apply al.setWorker (by simp [here]) _ (cache_update known)
    intro path' parent' info' known' kept' job
    cases Multiset.mem_singleton.mp job
    exact Function.update_self ..
  | file w path parent info known kept here =>
    exact al.setWorker (by simp [here]) _ (fun _ _ _ cached => cached) (reported_ready _)

/-- The cache is left alone, or takes in the result for a file that is to do. -/
def CacheStep (s s' : Scan files σ H n) : Prop :=
  s'.cache = s.cache ∨ ∃ path info, .file path ∈ s.tickets.map Prod.fst ∧
    files.hash path = some info ∧ s'.cache = Function.update s.cache path (some info)

/-- A step moves items about, or visits one of them. -/
inductive Progress (P : ScanProcessor (StateM σ) H) (s : Scan files σ H n) (made : List Call)
    (s' : Scan files σ H n) : Prop where
  | move (silent : made = []) (same : s'.processor = s.processor) (tickets : s'.tickets = s.tickets)
      (cache : CacheStep s s')
  | visit (ticket : Ticket H) (handle : Option H) (rest : Multiset (Ticket H))
      (before : s.tickets = ticket ::ₘ rest)
      (visit : Visit files P ticket s.processor made handle s'.processor)
      (after : s'.tickets =
        (((ticket.1.children files).map fun child => (child, handle) : List (Ticket H)) + rest))
      (cache : CacheStep s s')
      (looked : ∀ path info, ticket.1 = .file path → files.hash path = some info →
        s'.cache path = some info)

theorem children_openWork {dir : Path} {parent : Option H} {names : List String}
    (listing : files.list dir = some names) :
    (openWork dir parent).children files = names.map fun name => .entry (dir ++ [name]) := by
  cases parent <;> simp [openWork, Work.children, Work.listing, listing]

theorem unlisted_openWork {dir : Path} {parent : Option H} (throws : files.list dir = none) :
    (openWork dir parent).emits files = [] ∧ (openWork dir parent).children files = [] := by
  cases parent <;> simp [openWork, Work.emits, Work.children, Work.listing, throws]

theorem tickets_running {w : Fin n} {job : Job files H} (here : s.pool.worker w = .running job) :
    s.tickets = job.ticket ::ₘ ticketsAt s.stack s.pc (s.pool.setWorker w .ready).tasks := by
  rw [tickets, SyncThreadPool.tasks_finish here, ticketsAt_task]

/-- An entry makes no call; what it is decides what is to do next. -/
theorem Progress.entry {dir : Path} {handle : H} {name : String} {rest : List String}
    (here : s.pc = .entries dir handle (name :: rest)) (same : s'.processor = s.processor)
    (cache : s'.cache = s.cache)
    (after : s'.tickets = (((Work.entry (dir ++ [name])).children files).map
      fun child => (child, some handle) : List (Ticket H)) +
        ticketsAt s.stack (.entries dir handle rest) s.pool.tasks) : Progress P s [] s' := by
  refine .visit (.entry (dir ++ [name]), some handle) (some handle) _ ?_ ?_ after (Or.inl cache) nofun
  · rw [tickets, here, ticketsAt_entry]
  · rw [same]
    exact .quiet _ _ _ rfl

theorem Step.progress (h : Step P s made s') (al : s.Aligned) : Progress P s made s' := by
  have idle : s.pc.submits = false → s.pool.client () = .idle := al.idle
  have running : ∀ {w : Fin n} {job : Job files H}, s.pool.worker w = .running job →
      job.ticket.1 ∈ s.tickets.map Prod.fst := by
    intro w job here
    rw [tickets_running here]
    exact Multiset.mem_map_of_mem Prod.fst (Multiset.mem_cons_self _ _)
  cases h with
  | pool p step => exact .move rfl rfl (by simp only [tickets, step.tasks]) (Or.inl rfl)
  | unlistable dir parent rest here top throws =>
    obtain ⟨silent, childless⟩ : (openWork dir parent).emits files = [] ∧
        (openWork dir parent).children files = [] := unlisted_openWork throws
    refine .visit (openWork dir parent, parent) parent (ticketsAt rest s.pc s.pool.tasks) ?_
      (.quiet _ _ _ silent) ?_ (Or.inl rfl) (by cases parent <;> exact nofun)
    · rw [tickets, top, ticketsAt_cons]
    · rw [childless, List.map_nil, Multiset.coe_nil, zero_add, tickets]
  | list dir parent rest names here top listing =>
    refine .move rfl rfl ?_ (Or.inl rfl)
    rw [tickets, tickets, top, here, ticketsAt_cons, ticketsAt_pc]
    rfl
  | opened dir parent names listing here =>
    refine .visit (openWork dir parent, parent) _ (ticketsAt s.stack .loop s.pool.tasks) ?_
      (.opened _ _ _ (by simp [listing])) ?_ (Or.inl rfl) (by cases parent <;> exact nofun)
    · rw [tickets, here, ticketsAt_pc]
      rfl
    · rw [tickets, ticketsAt_pc, children_openWork listing, List.map_map]
      rfl
  | skip dir handle name rest here kind =>
    refine .entry here rfl rfl ?_
    have childless : (Work.entry (dir ++ [name])).children files = [] := by
      simp only [Work.children]
      split
      · exact absurd ‹_› kind.1
      · exact absurd ‹_› kind.2
      · rfl
    rw [childless, List.map_nil, Multiset.coe_nil, zero_add, tickets]
  | push dir handle name rest here kind =>
    refine .entry here rfl rfl ?_
    rw [tickets, ticketsAt_cons]
    simp only [Work.children, kind]
    rfl
  | submit dir handle name rest here kind =>
    refine .entry here rfl rfl ?_
    rw [tickets, SyncThreadPool.tasks_submit (idle (by simp [here, Pc.submits])), ticketsAt_task]
    simp only [Work.children, kind]
    rfl
  | submitted dir handle rest here done =>
    exact .move rfl rfl (by simp only [tickets, here, ticketsAt, Pc.tickets]) (Or.inl rfl)
  | next dir handle here =>
    refine .move rfl rfl ?_ (Or.inl rfl)
    simp only [tickets, here, ticketsAt, Pc.tickets, List.map_nil]
  | unlock here empty =>
    exact .move rfl rfl (by simp only [tickets, here, ticketsAt, Pc.tickets]) (Or.inl rfl)
  | stop here =>
    refine .move rfl rfl ?_ (Or.inl rfl)
    rw [tickets, tickets, here, ticketsAt_pc, ticketsAt_pc _ Pc.unlocked]
    rfl
  | finish here stopped =>
    exact .move rfl rfl (by simp only [tickets, here, ticketsAt, Pc.tickets]) (Or.inl rfl)
  | fail w path parent here throws =>
    refine .visit (.file path, some parent) (some parent) _ (tickets_running here)
      (.quiet _ _ _ (by simp [Work.emits, throws])) (zero_add _).symm (Or.inl rfl) ?_
    intro path' info' same known
    cases same
    simp [throws] at known
  | zero w path parent info here known dropped =>
    refine .visit (.file path, some parent) (some parent) _ (tickets_running here)
      (.quiet _ _ _ (by simp [Work.emits, known, dropped])) (zero_add _).symm
      (Or.inr ⟨path, info, running here, known, rfl⟩) ?_
    intro path' info' same known'
    cases same
    exact (Function.update_self ..).trans (known ▸ known')
  | hashed w path parent info here known kept =>
    refine .move rfl rfl ?_ (Or.inr ⟨path, info, running here, known, rfl⟩)
    rw [tickets_running here, tickets, SyncThreadPool.tasks_work here, ticketsAt_task]
    rfl
  | file w path parent info known kept here =>
    refine .visit (.file path, some parent) (some parent) _ (tickets_running here)
      (.file _ _ _ _ known kept) (zero_add _).symm (Or.inl rfl) ?_
    intro path' info' same known'
    cases same
    rw [← known', known]
    apply al.reported path parent info known kept
    rw [SyncThreadPool.tasks_finish here]
    exact Multiset.mem_cons_self _ _

theorem start_tickets :
    (start root processor cache : Scan files σ H n).tickets = {(.root root, none)} := by
  simp [tickets, ticketsAt, start, Pc.tickets, openWork, create_tasks]

variable [Inhabited H]

/-- In every state the processor has been told of all that is not in some thread's hands. -/
theorem Run.told (run : Run P root processor cache calls s) :
    s.Aligned ∧ Told files P root processor s.tickets calls s.processor := by
  induction run with
  | start => exact ⟨start_aligned, start_tickets ▸ told_start⟩
  | next run step ih =>
    obtain ⟨aligned, told⟩ := ih
    refine ⟨step.aligned aligned, ?_⟩
    cases step.progress aligned with
    | move silent same tickets cache => rwa [silent, same, tickets, List.append_nil]
    | visit ticket handle rest before visit after cache looked =>
      rw [before] at told
      rw [after]
      exact told.visit visit

/-- What the cache holds: old entries, and the results for files of the scan, among
them all that are not to do. -/
structure Cached (root : Path) (cache : Path → Option FileInfo) (s : Scan files σ H n) : Prop where
  old : ∀ path, s.cache path = cache path ∨
    files.Regular root path ∧ (files.hash path).isSome ∧ s.cache path = files.hash path
  new : ∀ path info, files.Regular root path → files.hash path = some info →
    s.cache path = some info ∨ ∃ t ∈ s.tickets, (traversal files).Reach t.1 (.file path)

omit [Inhabited H] in
theorem CacheStep.keeps (h : CacheStep s s') {path : Path} {info : FileInfo}
    (known : files.hash path = some info) (cached : s.cache path = some info) :
    s'.cache path = some info := by
  rcases h with same | ⟨path', info', -, known', update⟩
  · rwa [same]
  · rw [update]
    exact cache_update known' path info known cached

theorem CacheStep.old (h : CacheStep s s') (c : s.Cached root cache)
    (told : Told files P root processor s.tickets calls s.processor) (path : Path) :
    s'.cache path = cache path ∨
      files.Regular root path ∧ (files.hash path).isSome ∧ s'.cache path = files.hash path := by
  rcases h with same | ⟨path', info, member, known, update⟩
  · rw [same]
    exact c.old path
  · by_cases here : path = path'
    · subst here
      have found := Work.reach_iff.mp (told.accounts.known _ member)
      exact Or.inr ⟨found, by simp [known], by rw [update, Function.update_self, known]⟩
    · rw [update, Function.update_of_ne here]
      exact c.old path

theorem Step.cached (h : Step P s made s') (al : s.Aligned)
    (told : Told files P root processor s.tickets calls s.processor) (c : s.Cached root cache) :
    s'.Cached root cache := by
  cases h.progress al with
  | move silent same tickets cacheStep =>
    refine ⟨cacheStep.old c told, fun path info regular known => ?_⟩
    rcases c.new path info regular known with cached | pending
    · exact Or.inl (cacheStep.keeps known cached)
    · exact Or.inr (tickets ▸ pending)
  | visit ticket handle rest before visit after cacheStep looked =>
    refine ⟨cacheStep.old c told, fun path info regular known => ?_⟩
    rcases c.new path info regular known with cached | ⟨t, ht, reach⟩
    · exact Or.inl (cacheStep.keeps known cached)
    · rw [before] at ht
      rw [after]
      rcases Multiset.mem_cons.mp ht with rfl | ht
      · rcases reach.cases_head with same | ⟨child, hc, reach⟩
        · exact Or.inl (looked path info same known)
        · refine Or.inr ⟨(child, handle), Multiset.mem_add.mpr (Or.inl ?_), reach⟩
          exact Multiset.mem_coe.mpr (List.mem_map_of_mem hc)
      · exact Or.inr ⟨t, Multiset.mem_add.mpr (Or.inr ht), reach⟩

theorem Run.cached (run : Run P root processor cache calls s) : s.Cached root cache := by
  induction run with
  | start =>
    refine ⟨fun path => Or.inl rfl, fun path info regular known => Or.inr ?_⟩
    rw [start_tickets]
    exact ⟨_, Multiset.mem_singleton_self _, Work.reach_iff.mpr regular⟩
  | next run step ih => exact step.cached run.told.1 run.told.2 ih

theorem Run.tickets_eq_zero (run : Run P root processor cache calls s)
    (returned : s.pc = .returned) : s.tickets = 0 := by
  have aligned := run.told.1
  simp [tickets, ticketsAt, aligned.emptied (by simp [returned, Pc.left]), returned, Pc.tickets,
    aligned.pool.stopped (aligned.stopped returned)]

/-- When the scan has returned, the cache holds the results for its files, and
what it held before for all other paths. -/
theorem Run.cache_eq (run : Run P root processor cache calls s) (returned : s.pc = .returned)
    (path : Path) :
    (files.Regular root path → (files.hash path).isSome → s.cache path = files.hash path) ∧
      (¬(files.Regular root path ∧ (files.hash path).isSome) → s.cache path = cache path) := by
  constructor
  · intro regular known
    obtain ⟨info, known⟩ := Option.isSome_iff_exists.mp known
    rcases run.cached.new path info regular known with cached | ⟨t, ht, -⟩
    · rw [cached, known]
    · rw [run.tickets_eq_zero returned] at ht
      exact absurd ht (Multiset.notMem_zero t)
  · intro other
    apply (run.cached.old path).resolve_right
    rintro ⟨regular, known, -⟩
    exact other ⟨regular, known⟩

theorem Run.scanned (run : Run P root processor cache calls s) (returned : s.pc = .returned) :
    Scanned files root calls := by
  have told := run.told.2
  rw [run.tickets_eq_zero returned] at told
  exact told.scanned

/-- When `ScanDirectory` has returned, its processor has been told of the tree
below the root and of nothing else, whatever the order of the listings and
however the threads were scheduled. -/
theorem scanDirectory_calls (run : Run P root processor cache calls s) (returned : s.pc = .returned) :
    Scanned files root calls ∧ (files.list root = none → calls = []) ∧
    ((Call.issueAll P (fun _ => default) calls).run processor).2 = s.processor ∧
    ∀ (files' : FileSystem) (n' : ℕ) (cache' : Path → Option FileInfo) (calls' : List Call)
      (s' : Scan files' σ H n'), Run P root processor cache' calls' s' → s'.pc = .returned →
      (files.AgreeOn files' (fun _ => True) → calls.Perm calls') ∧
      ∀ seen : Path → Prop, (∀ path name, seen (path ++ [name]) → seen path) →
        files.AgreeOn files' seen →
        ∀ call, seen call.path → (call ∈ calls ↔ call ∈ calls') := by
  have scanned := run.scanned returned
  refine ⟨scanned, scanned.unlisted, run.told.2.state, ?_⟩
  intro files' n' cache' calls' s' run' returned'
  have scanned' := run'.scanned returned'
  exact ⟨scanned.perm scanned', fun seen up agree call hp =>
    scanned.mem_iff_of_agree scanned' agree up hp⟩

end Scan

/-- A directory with a directory with one file. -/
def deepFile (info : FileInfo) : FileSystem where
  list p := if p = ["r"] then some ["d"] else if p = ["r", "d"] then some ["x"] else none
  kind p :=
    if p = ["r", "d"] then some .directory
    else if p = ["r", "d", "x"] then some .regular else none
  hash p := if p = ["r", "d", "x"] then some info else none
  distinct := by
    intro dir names h
    split_ifs at h <;> obtain rfl := Option.some.inj h <;> decide

section
variable {σ H : Type} {info : FileInfo} {P : ScanProcessor (StateM σ) H} {root : Path}
  {processor now : σ} {cache held : Path → Option FileInfo} {calls : List Call} {parent : Option H}

/-- The inner directory is scanned, and its file analyzed after the loop has ended. -/
theorem deepFile_finish (run : Scan.Run P root processor cache calls
      (⟨[(["r", "d"], parent)], .loop, .create, now, held⟩ : Scan (deepFile info) σ H 1)) :
    ∃ s : Scan (deepFile info) σ H 1, s.pc = .returned ∧ Scan.Run P root processor cache
      (calls ++ [openCall ["r", "d"] parent] ++ (Work.file ["r", "d", "x"]).emits (deepFile info))
      s := by
  have r1 := run.next (.list ["r", "d"] parent [] ["x"] rfl rfl rfl)
  have r2 := r1.next (.opened ["r", "d"] parent ["x"] rfl rfl)
  have r3 := r2.next (.submit ["r", "d"] _ "x" [] rfl rfl)
  have r4 := r3.next (.pool _ (.push () _ rfl (Nat.zero_le _) (.nobody fun _ => nofun)))
  have r5 := r4.next (.submitted ["r", "d"] _ [] rfl rfl)
  have r6 := r5.next (.next ["r", "d"] _ rfl)
  have r7 := r6.next (.unlock rfl rfl)
  have r8 := r7.next (.stop rfl)
  have r9 := r8.next (.pool _ (.take 0 _ [] rfl rfl rfl (.nobody (fun _ _ => nofun) nofun)))
  have r10 := r9.next (.pool _ (.stop rfl rfl))
  by_cases kept : info.sum = 0
  · have r11 := r10.next (.zero 0 ["r", "d", "x"] _ info rfl rfl kept)
    have r12 := r11.next (.pool _ (.exit 0 rfl rfl))
    have r13 := r12.next (.pool _ (.join rfl (Fin.forall_fin_one.mpr rfl)))
    have r14 := r13.next (.finish rfl rfl)
    have silent : (Work.file ["r", "d", "x"]).emits (deepFile info) = [] := by
      simp [Work.emits, deepFile, kept]
    rw [silent]
    simp only [List.append_nil] at r14 ⊢
    exact ⟨_, rfl, r14⟩
  · have r11 := r10.next (.hashed 0 ["r", "d", "x"] _ info rfl rfl kept)
    have r12 := r11.next (.file 0 ["r", "d", "x"] _ info rfl kept rfl)
    have r13 := r12.next (.pool _ (.exit 0 rfl rfl))
    have r14 := r13.next (.pool _ (.join rfl (Fin.forall_fin_one.mpr rfl)))
    have r15 := r14.next (.finish rfl rfl)
    have told : (Work.file ["r", "d", "x"]).emits (deepFile info) =
        [.file ["r", "d", "x"] info] := by
      simp [Work.emits, deepFile, kept]
    rw [told]
    simp only [List.append_nil] at r15
    exact ⟨_, rfl, r15⟩

theorem deepFile_run (info : FileInfo) (P : ScanProcessor (StateM σ) H) (processor : σ)
    (cache : Path → Option FileInfo) :
    ∃ s : Scan (deepFile info) σ H 1, s.pc = .returned ∧ Scan.Run P ["r"] processor cache
      ([.rootDir ["r"], .dir ["r", "d"]] ++ (Work.file ["r", "d", "x"]).emits (deepFile info))
      s := by
  have r0 : Scan.Run P ["r"] processor cache []
    (.start ["r"] processor cache : Scan (deepFile info) σ H 1) := .start
  have r1 := r0.next (.list ["r"] none [] ["d"] rfl rfl rfl)
  have r2 := r1.next (.opened ["r"] none ["d"] rfl rfl)
  have r3 := r2.next (.push ["r"] _ "d" [] rfl rfl)
  have r4 := r3.next (.next ["r"] _ rfl)
  exact deepFile_finish r4

end

theorem scanDirectory_calls_deepFile :
    ∃ s : Scan (deepFile ⟨1, 2, 3⟩) (List (Path × FileInfo)) Path 1,
      s.processor = [(["r", "d", "x"], ⟨1, 2, 3⟩)] ∧ Scanned (deepFile ⟨1, 2, 3⟩) ["r"]
        [.rootDir ["r"], .dir ["r", "d"], .file ["r", "d", "x"] ⟨1, 2, 3⟩] := by
  obtain ⟨s, returned, run⟩ := deepFile_run ⟨1, 2, 3⟩ (Call.locator id) [] fun _ => none
  obtain ⟨scanned, -, told, -⟩ := Scan.scanDirectory_calls run returned
  exact ⟨s, told.symm, scanned⟩

end Dupa
