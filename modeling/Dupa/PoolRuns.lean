import Dupa.ThreadPool
import Mathlib.Logic.Relation

/-!
# Runs of `SyncThreadPool`

Any number of threads call `Submit`, again and again, and the owner calls `Stop` when
all of these calls have returned. A run keeps account of what was submitted, taken from
the queue and finished. No wakeup is lost: a thread waits only while others are awake
that will see to its wakeup or to its work.
-/

set_option linter.unusedSectionVars false

namespace Dupa

namespace SyncThreadPool

/-- What a critical section takes from the queue: its head, or nothing. -/
def Pops {T : Type} (q q' : List T) (taken : Multiset T) : Prop :=
  taken = 0 ∧ q <+: q' ∨ ∃ task, taken = {task} ∧ q = task :: q'

/-- A pool and the tasks that have been submitted to it, taken from its queue and run. -/
structure History (C W T : Type) where
  pool : SyncThreadPool C W T
  submitted : Multiset T
  taken : Multiset T
  finished : Multiset T

def History.start {C W T : Type} : History C W T := ⟨create, 0, 0, 0⟩

variable {C W T : Type} [Fintype C] [DecidableEq C] [Fintype W] [DecidableEq W]
  {p p' : SyncThreadPool C W T} {c : C} {w : W} {task : T}

/-- What happens next: a call, the end of a task or a critical section of the pool. -/
inductive History.Next (s : History C W T) : History C W T → Prop
  | submit (c : C) (task : T) (idle : s.pool.client c = .idle) (working : s.pool.owner = .working) :
      Next s { s with pool := s.pool.submit c task, submitted := task ::ₘ s.submitted }
  | stop (working : s.pool.owner = .working) (returned : ∀ c, s.pool.client c = .idle) :
      Next s { s with pool := s.pool.stop }
  | finish (w : W) (task : T) (here : s.pool.worker w = .running task) :
      Next s { s with pool := s.pool.setWorker w .ready, finished := task ::ₘ s.finished }
  | step (p' : SyncThreadPool C W T) (taken : Multiset T) (step : s.pool.Step p')
      (pops : Pops s.pool.q p'.q taken) :
      Next s { s with pool := p', taken := taken + s.taken }

def History.Reachable (s : History C W T) : Prop := Relation.ReflTransGen Next .start s

/-! ## Threads that are awake -/

end SyncThreadPool

def Worker.awake {T : Type} : Worker T → ℕ
  | .ready => 1
  | _ => 0

def Client.awake {T : Type} : Client T → ℕ
  | .submitting _ => 1
  | _ => 0

namespace SyncThreadPool

variable {C W T : Type} [Fintype C] [DecidableEq C] [Fintype W] [DecidableEq W]
  {p p' : SyncThreadPool C W T} {c : C} {w : W} {task : T}

def running (p : SyncThreadPool C W T) : Multiset T := ∑ w, (p.worker w).tasks

def awakeWorkers (p : SyncThreadPool C W T) : ℕ := ∑ w, (p.worker w).awake

def awakeClients (p : SyncThreadPool C W T) : ℕ := ∑ c, (p.client c).awake

theorem running_setWorker (p : SyncThreadPool C W T) (w : W) (x : Worker T) :
    (p.setWorker w x).running + (p.worker w).tasks = p.running + x.tasks :=
  sum_update Worker.tasks p.worker w x

theorem awakeWorkers_setWorker (p : SyncThreadPool C W T) (w : W) (x : Worker T) :
    (p.setWorker w x).awakeWorkers + (p.worker w).awake = p.awakeWorkers + x.awake :=
  sum_update Worker.awake p.worker w x

theorem awakeClients_setClient (p : SyncThreadPool C W T) (c : C) (x : Client T) :
    (p.setClient c x).awakeClients + (p.client c).awake = p.awakeClients + x.awake :=
  sum_update Client.awake p.client c x

theorem awakeWorkers_eq_zero (asleep : ∀ w, p.worker w ≠ .ready) : p.awakeWorkers = 0 := by
  apply Finset.sum_eq_zero
  intro w _
  have := asleep w
  cases h : p.worker w <;> simp_all [Worker.awake]

theorem awakeClients_eq_zero (asleep : ∀ c task, p.client c ≠ .submitting task) :
    p.awakeClients = 0 := by
  apply Finset.sum_eq_zero
  intro c _
  have := asleep c
  cases h : p.client c <;> simp_all [Client.awake]

/-- `cv_.notify_one()` touches the workers only. -/
theorem NotifyWorker.rest (h : NotifyWorker p p') :
    p'.q = p.q ∧ p'.outstanding = p.outstanding ∧ p'.closing = p.closing := by
  cases h with
  | wake | nobody => exact ⟨rfl, rfl, rfl⟩

theorem NotifyWorker.running_eq (h : NotifyWorker p p') : p'.running = p.running := by
  cases h with
  | wake w here => simpa [here, Worker.tasks] using running_setWorker p w .ready
  | nobody => rfl

/-- `user_cv_.notify_one()` touches the workers and the queue at no place. -/
theorem NotifyUser.rest (h : NotifyUser p p') :
    p'.q = p.q ∧ p'.outstanding = p.outstanding ∧ p'.closing = p.closing ∧
      p'.worker = p.worker := by
  cases h with
  | client | owner | nobody => exact ⟨rfl, rfl, rfl, rfl⟩

theorem NotifyUser.running_eq (h : NotifyUser p p') : p'.running = p.running := by
  unfold running
  rw [h.rest.2.2.2]

theorem NotifyWorker.total (p : SyncThreadPool C W T) : ∃ p', NotifyWorker p p' := by
  by_cases waiting : ∃ w, p.worker w = .waiting
  · obtain ⟨w, here⟩ := waiting
    exact ⟨_, .wake w here⟩
  · exact ⟨p, .nobody fun w here => waiting ⟨w, here⟩⟩

theorem NotifyUser.total (p : SyncThreadPool C W T) : ∃ p', NotifyUser p p' := by
  by_cases blocked : ∃ c task, p.client c = .blocked task
  · obtain ⟨c, task, here⟩ := blocked
    exact ⟨_, .client c task here⟩
  by_cases owner : p.owner = .blocked
  · exact ⟨_, .owner owner⟩
  · exact ⟨p, .nobody (fun c task here => blocked ⟨c, task, here⟩) owner⟩

/-! ## The queue -/

/-- What a step takes from the queue starts to run. -/
theorem Step.pops (h : Step p p') :
    ∃ taken, Pops p.q p'.q taken ∧ p'.running = taken + p.running := by
  have still : ∀ p' : SyncThreadPool C W T, p.q <+: p'.q → p'.running = p.running →
      ∃ taken, Pops p.q p'.q taken ∧ p'.running = taken + p.running := by
    intro p' kept same
    exact ⟨0, Or.inl ⟨rfl, kept⟩, by rw [same, zero_add]⟩
  cases h with
  | push c task here room notify =>
    apply still
    · rw [notify.rest.1]
      exact List.prefix_append _ _
    · exact notify.running_eq
  | take w task rest here _ next notify =>
    refine ⟨{task}, Or.inr ⟨task, rfl, notify.rest.1.symm ▸ next⟩, ?_⟩
    have moved := running_setWorker p w (.running task)
    rw [here] at moved
    have same : p'.running = (p.setWorker w (.running task)).running := notify.running_eq
    rw [same, add_comm _ p.running]
    simpa [Worker.tasks] using moved
  | wait w here =>
    apply still (p.setWorker w .waiting) (List.prefix_refl p.q)
    simpa [here, Worker.tasks] using running_setWorker p w .waiting
  | wakeWorker w here =>
    apply still (p.setWorker w .ready) (List.prefix_refl p.q)
    simpa [here, Worker.tasks] using running_setWorker p w .ready
  | exit w here =>
    apply still (p.setWorker w .exited) (List.prefix_refl p.q)
    simpa [here, Worker.tasks] using running_setWorker p w .exited
  | stop =>
    refine still _ (List.prefix_refl p.q) ?_
    apply Finset.sum_congr rfl
    intro w _
    cases h : p.worker w <;> simp [notified, h, Worker.tasks]
  | block | stopBlock | join | wakeClient | wakeOwner => exact still _ (List.prefix_refl p.q) rfl

theorem Pops.unique {q q' : List T} {taken taken' : Multiset T} (h : Pops q q' taken)
    (h' : Pops q q' taken') : taken = taken' := by
  have shorter : ∀ {task}, q = task :: q' → ¬q <+: q' := by
    rintro task rfl kept
    have := kept.length_le
    simp only [List.length_cons] at this
    omega
  rcases h with ⟨rfl, kept⟩ | ⟨task, rfl, popped⟩ <;>
    rcases h' with ⟨rfl, kept'⟩ | ⟨task', rfl, popped'⟩
  · rfl
  · exact absurd kept (shorter popped')
  · exact absurd kept' (shorter popped)
  · rw [popped, List.cons.injEq] at popped'
    rw [popped'.1]

/-! ## No wakeup is lost -/

/-- Who waits has others to wait for: workers for those that are awake, one for each
queued task; clients for the room that awake clients have been told of; the owner
for a task. -/
structure Lively (p : SyncThreadPool C W T) : Prop where
  within : p.outstanding ≤ Fintype.card W + 1
  served : ∀ w, p.worker w = .waiting → p.q.length ≤ p.awakeWorkers
  crowded : ∀ c task, p.client c = .blocked task →
    Fintype.card W < p.outstanding + p.awakeClients
  busy : p.owner = .blocked → p.outstanding ≠ 0
  closed : p.closing = true → ∀ w, p.worker w ≠ .waiting
  exited : ∀ w, p.worker w = .exited → p.closing = true

theorem create_lively : (create : SyncThreadPool C W T).Lively where
  within := Nat.zero_le _
  served _ h := by cases h
  crowded _ _ h := by cases h
  busy h := by cases h
  closed h := by cases h
  exited _ h := by cases h

theorem worker_of_setWorker {x y : Worker T} {v : W} (h : (p.setWorker w x).worker v = y)
    (other : x ≠ y) : p.worker v = y := by
  simp only [setWorker, Function.update_apply] at h
  split at h
  · exact absurd h other
  · exact h

theorem client_of_setClient {x y : Client T} {d : C} (h : (p.setClient c x).client d = y)
    (other : x ≠ y) : p.client d = y := by
  simp only [setClient, Function.update_apply] at h
  split at h
  · exact absurd h other
  · exact h

/-- A worker may wake up whenever it likes. -/
theorem Lively.wakeWorker (h : p.Lively) (here : p.worker w ≠ .ready) :
    (p.setWorker w .ready).Lively where
  within := h.within
  served v waiting := by
    have more := awakeWorkers_setWorker p w .ready
    have asleep : (p.worker w).awake = 0 := by
      cases hw : p.worker w <;> first | rfl | exact absurd hw here
    have := h.served v (worker_of_setWorker waiting (by simp))
    rw [asleep, Worker.awake] at more
    change p.q.length ≤ _
    omega
  crowded := h.crowded
  busy := h.busy
  closed closing v waiting := h.closed closing v (worker_of_setWorker waiting (by simp))
  exited v gone := h.exited v (worker_of_setWorker gone (by simp))

/-- So may a client. -/
theorem Lively.wakeClient (h : p.Lively) (here : (p.client c).awake = 0) :
    (p.setClient c (.submitting task)).Lively where
  within := h.within
  served := h.served
  crowded d task' blocked := by
    have more := awakeClients_setClient p c (.submitting task)
    have := h.crowded d task' (client_of_setClient blocked (by simp))
    rw [here, Client.awake] at more
    change _ < p.outstanding + _
    omega
  busy := h.busy
  closed := h.closed
  exited := h.exited

/-- The owner may wait for tasks only. -/
theorem Lively.setOwner (h : p.Lively) {owner : Owner}
    (busy : owner = .blocked → p.outstanding ≠ 0) : Lively { p with owner := owner } where
  within := h.within
  served := h.served
  crowded := h.crowded
  busy := busy
  closed := h.closed
  exited := h.exited

/-- A client is blocked when the queue is full. -/
theorem Lively.block (h : p.Lively) (full : Fintype.card W < p.outstanding) :
    (p.setClient c (.blocked task)).Lively where
  within := h.within
  served := h.served
  crowded _ _ _ := Nat.lt_add_right _ full
  busy := h.busy
  closed := h.closed
  exited := h.exited

/-- A task that is pushed wakes a worker, if one is asleep. -/
theorem Lively.push (h : p.Lively) (here : p.client c = .submitting task)
    (room : p.outstanding ≤ Fintype.card W)
    (notify : NotifyWorker
      { p.setClient c .idle with q := p.q ++ [task], outstanding := p.outstanding + 1 } p') :
    p'.Lively := by
  have clients : p'.client = (p.setClient c .idle).client := notify.frame.1
  have outstanding : p'.outstanding = p.outstanding + 1 := notify.rest.2.1
  have closing : p'.closing = p.closing := notify.rest.2.2
  have asleep : ∀ {w x}, p'.worker w = x → .ready ≠ x → p.worker w = x := by
    intro w x there other
    cases notify with
    | wake v _ => exact worker_of_setWorker (p := { p with }) there other
    | nobody => exact there
  constructor
  case within => omega
  case served =>
    intro w waiting
    cases notify with
    | nobody none => exact absurd waiting (none w)
    | wake v sleeping =>
      have before := h.served w (asleep waiting (by simp))
      have more : (p.setWorker v .ready).awakeWorkers + (p.worker v).awake =
        p.awakeWorkers + 1 := awakeWorkers_setWorker p v .ready
      have slept : (p.worker v).awake = 0 := by
        rw [show p.worker v = .waiting from sleeping]
        rfl
      change (p.q ++ [task]).length ≤ (p.setWorker v .ready).awakeWorkers
      rw [List.length_append, List.length_singleton]
      omega
  case crowded =>
    intro d task' blocked
    rw [clients] at blocked
    have before := h.crowded d task' (client_of_setClient blocked (by simp))
    have fewer := awakeClients_setClient p c .idle
    have same : p'.awakeClients = (p.setClient c .idle).awakeClients := by
      unfold awakeClients
      rw [clients]
    simp only [here, Client.awake] at fewer
    omega
  case busy => omega
  case closed =>
    intro closes w waiting
    exact h.closed (closing ▸ closes) w (asleep waiting (by simp))
  case exited =>
    intro w gone
    exact closing ▸ h.exited w (asleep gone (by simp))

/-- A task that is taken tells a client, if one is blocked, or else the owner. -/
theorem Lively.take {rest : List T} (h : p.Lively) (sound : p.Sound) (here : p.worker w = .ready)
    (running : p.closing = false) (next : p.q = task :: rest)
    (notify : NotifyUser
      { p.setWorker w (.running task) with q := rest, outstanding := p.outstanding - 1 } p') :
    p'.Lively := by
  obtain ⟨q, outstanding, closing, workers⟩ := notify.rest
  have queued : p.outstanding = rest.length + 1 := by rw [sound.outstanding, next, List.length_cons]
  have alone : p.owner = .blocked → ∀ c task', p.client c ≠ .blocked task' := by
    intro blocked c task' there
    have := sound.idle (by simp [blocked]) c
    simp [this] at there
  have same : p'.awakeWorkers = (p.setWorker w (.running task)).awakeWorkers := by
    unfold awakeWorkers
    rw [workers]
  have fewer := awakeWorkers_setWorker p w (.running task)
  simp only [here, Worker.awake] at fewer
  have within := h.within
  simp only at q outstanding closing workers
  constructor
  case within => omega
  case served =>
    intro v waiting
    rw [workers] at waiting
    have before := h.served v (worker_of_setWorker waiting (by simp))
    rw [next, List.length_cons] at before
    rw [q]
    omega
  case crowded =>
    intro d task' blocked
    cases notify with
    | client e task'' there =>
      have before := h.crowded d task' (client_of_setClient (p := { p with }) blocked (by simp))
      have more : (p.setClient e (.submitting task'')).awakeClients + (p.client e).awake =
        p.awakeClients + 1 := awakeClients_setClient p e (.submitting task'')
      have slept : (p.client e).awake = 0 := by
        rw [show p.client e = .blocked task'' from there]
        rfl
      change _ < p.outstanding - 1 + (p.setClient e (.submitting task'')).awakeClients
      omega
    | owner there => exact absurd blocked (alone there d task')
    | nobody none => exact absurd blocked (none d task')
  case busy =>
    intro blocked
    cases notify with
    | client e task'' there => exact absurd there (alone blocked e task'')
    | owner => cases blocked
    | nobody none busy => exact absurd blocked busy
  case closed =>
    intro closes
    rw [closing] at closes
    simp [setWorker, running] at closes
  case exited =>
    intro v gone
    rw [workers] at gone
    rw [closing]
    exact h.exited v (worker_of_setWorker gone (by simp))

theorem Step.lively (step : Step p p') (h : p.Lively) (sound : p.Sound) : p'.Lively := by
  cases step with
  | push c task here room notify => exact h.push here room notify
  | block c task here full => exact h.block full
  | take w task rest here running next notify => exact h.take sound here running next notify
  | wait w here running empty =>
    exact ⟨h.within, fun v _ => by simp [setWorker, empty], h.crowded, h.busy,
      fun closing => by simp [setWorker, running] at closing,
      fun v gone => h.exited v (worker_of_setWorker gone (by simp))⟩
  | exit w here closing =>
    exact ⟨h.within, fun v _ => by simp [setWorker, sound.drained closing], h.crowded, h.busy,
      fun closing v waiting => h.closed closing v (worker_of_setWorker waiting (by simp)),
      fun _ _ => closing⟩
  | stop here empty =>
    have awake : ∀ w, notified (p.worker w) ≠ .waiting := by
      intro w
      cases p.worker w <;> simp [notified]
    exact ⟨h.within, fun w waiting => absurd waiting (awake w), h.crowded, (fun busy => by cases busy),
      fun _ => awake, fun _ _ => rfl⟩
  | stopBlock here busy => exact h.setOwner fun _ => busy
  | join here exited => exact h.setOwner fun busy => by cases busy
  | wakeWorker w here => exact h.wakeWorker (by simp [here])
  | wakeClient c task here => exact h.wakeClient (by simp [here, Client.awake])
  | wakeOwner here => exact h.setOwner fun busy => by cases busy

/-! ## Runs -/

/-- What holds at every moment of a run. -/
structure History.Kept (s : History C W T) : Prop where
  sound : s.pool.Sound
  lively : s.pool.Lively
  taken : s.taken = s.pool.running + s.finished
  submitted : s.submitted = s.pool.tasks + s.finished

theorem History.start_kept : (start : History C W T).Kept where
  sound := create_sound
  lively := create_lively
  taken := by simp [start, running, create, Worker.tasks]
  submitted := by simp [start, tasks, create, Worker.tasks, Client.tasks]

theorem History.Next.kept {s s' : History C W T} (next : s.Next s') (h : s.Kept) : s'.Kept := by
  obtain ⟨sound, lively, taken, submitted⟩ := h
  cases next with
  | submit c task idle working =>
    refine ⟨sound.submit working c task, lively.wakeClient (by rw [idle]; rfl), taken, ?_⟩
    rw [tasks_submit idle, Multiset.cons_add, ← submitted]
  | stop working returned =>
    exact ⟨sound.stop working returned, lively.setOwner (fun busy => by cases busy), taken,
      submitted⟩
  | finish w task here =>
    refine ⟨sound.setWorker (by simp [here]) _, lively.wakeWorker (by simp [here]), ?_, ?_⟩
    · have moved := running_setWorker s.pool w .ready
      rw [here] at moved
      simp only [Worker.tasks, add_zero] at moved
      change s.taken = (s.pool.setWorker w .ready).running + task ::ₘ s.finished
      rw [taken, ← moved, add_assoc, Multiset.singleton_add]
    · rw [submitted, tasks_finish here]
      simp
  | step p' taken' step pops =>
    obtain ⟨started, popped, ran⟩ := step.pops
    obtain rfl := popped.unique pops
    refine ⟨step.sound sound, step.lively lively sound, ?_, ?_⟩
    · rw [ran, taken, add_assoc]
    · rw [step.tasks, submitted]

theorem History.Reachable.kept {s : History C W T} (h : s.Reachable) : s.Kept := by
  induction h with
  | refl => exact start_kept
  | tail _ next ih => exact next.kept ih

/-! ## Nobody is stuck -/

/-- The threads that use a pool. -/
inductive Thread (C W : Type) where
  | client (c : C)
  | worker (w : W)
  | owner

/-- The thread is neither in a wait nor done: it can enter its next critical section,
finish its task or return. -/
def Runnable (p : SyncThreadPool C W T) : Thread C W → Prop
  | .client c => ∃ task, p.client c = .submitting task
  | .worker w => p.worker w = .ready ∨ ∃ task, p.worker w = .running task
  | .owner => p.owner = .stopping ∨ p.owner = .joining ∧ ∀ w, p.worker w = .exited

/-- The thread is at another place than before. -/
def Moves (p p' : SyncThreadPool C W T) : Thread C W → Prop
  | .client c => p'.client c ≠ p.client c
  | .worker w => p'.worker w ≠ p.worker w
  | .owner => p'.owner ≠ p.owner

/-- A call to `Submit` or to `Stop` has not returned. -/
def Pending (p : SyncThreadPool C W T) : Prop :=
  (∃ c, p.client c ≠ .idle) ∨ p.owner ≠ .working ∧ p.owner ≠ .stopped

theorem Step.next {s : History C W T} (step : s.pool.Step p') :
    ∃ s', s.Next s' ∧ s'.pool = p' := by
  obtain ⟨taken, pops, -⟩ := step.pops
  exact ⟨_, .step p' taken step pops, rfl⟩

theorem setWorker_moves {x : Worker T} (other : x ≠ p.worker w) :
    Moves p (p.setWorker w x) (.worker w) := by
  simpa [Moves, setWorker] using other

theorem setClient_moves {x : Client T} (other : x ≠ p.client c) :
    Moves p (p.setClient c x) (.client c) := by
  simpa [Moves, setClient] using other

/-- A runnable thread can go on. -/
theorem Runnable.moves {s : History C W T} {t : Thread C W} (h : s.pool.Runnable t) :
    ∃ s', s.Next s' ∧ s.pool.Moves s'.pool t := by
  have go : ∀ p', s.pool.Step p' → s.pool.Moves p' t → ∃ s', s.Next s' ∧ s.pool.Moves s'.pool t := by
    intro p' step moves
    obtain ⟨s', next, rfl⟩ := step.next
    exact ⟨s', next, moves⟩
  cases t with
  | client c =>
    obtain ⟨task, here⟩ := h
    by_cases room : s.pool.outstanding ≤ Fintype.card W
    · obtain ⟨p', notify⟩ := NotifyWorker.total { s.pool.setClient c .idle with
        q := s.pool.q ++ [task], outstanding := s.pool.outstanding + 1 }
      apply go p' (.push c task here room notify)
      have moved := setClient_moves (p := s.pool) (c := c) (x := .idle) (by simp [here])
      simpa only [Moves, notify.frame.1] using moved
    · exact go _ (.block c task here (by omega)) (setClient_moves (by simp [here]))
  | worker w =>
    rcases h with here | ⟨task, here⟩
    · by_cases closing : s.pool.closing = true
      · exact go _ (.exit w here closing) (setWorker_moves (by simp [here]))
      have running : s.pool.closing = false := by simpa using closing
      cases next : s.pool.q with
      | nil => exact go _ (.wait w here running next) (setWorker_moves (by simp [here]))
      | cons task rest =>
        obtain ⟨p', notify⟩ := NotifyUser.total { s.pool.setWorker w (.running task) with
          q := rest, outstanding := s.pool.outstanding - 1 }
        apply go p' (.take w task rest here running next notify)
        have moved := setWorker_moves (p := s.pool) (w := w) (x := .running task) (by simp [here])
        simpa only [Moves, notify.rest.2.2.2] using moved
    · exact ⟨_, .finish w task here, setWorker_moves (by simp [here])⟩
  | owner =>
    rcases h with here | ⟨here, exited⟩
    · by_cases empty : s.pool.outstanding = 0
      · exact go _ (.stop here empty) (by simp [Moves, here])
      · exact go _ (.stopBlock here empty) (by simp [Moves, here])
    · exact go _ (.join here exited) (by simp [Moves, here])

/-- While there is something to do, somebody can do it. -/
theorem Lively.runnable [Nonempty W] (h : p.Lively) (sound : p.Sound)
    (work : p.Pending ∨ p.q ≠ []) : ∃ t, p.Runnable t := by
  by_contra stuck
  have stuck : ∀ t, ¬p.Runnable t := fun t runnable => stuck ⟨t, runnable⟩
  have asleep : ∀ w, p.worker w ≠ .ready := fun w ready => stuck (.worker w) (Or.inl ready)
  have still : ∀ c task, p.client c ≠ .submitting task := fun c task here =>
    stuck (.client c) ⟨task, here⟩
  have parked : ∀ w, p.worker w = .waiting ∨ p.worker w = .exited := by
    intro w
    cases here : p.worker w with
    | ready => exact absurd here (asleep w)
    | waiting => exact Or.inl rfl
    | running task => exact absurd (Or.inr ⟨task, here⟩) (stuck (.worker w))
    | exited => exact Or.inr rfl
  by_cases closing : p.closing = true
  · -- All workers have seen the flag, so the owner can return.
    have exited : ∀ w, p.worker w = .exited := fun w =>
      (parked w).resolve_left (h.closed closing w)
    have done : p.owner ≠ .joining := fun joining => stuck .owner (Or.inr ⟨joining, exited⟩)
    have stopped : p.owner = .stopped := (sound.closing.mp closing).resolve_left done
    rcases work with (⟨c, busy⟩ | ⟨-, busy⟩) | queued
    · exact busy (sound.idle (by simp [stopped]) c)
    · exact busy stopped
    · exact queued (sound.drained closing)
  · -- All workers wait, so the queue is empty and there is room in it.
    obtain ⟨w⟩ := ‹Nonempty W›
    have waiting : p.worker w = .waiting :=
      (parked w).resolve_right fun gone => closing (h.exited w gone)
    have none := h.served w waiting
    rw [awakeWorkers_eq_zero asleep] at none
    have empty : p.q = [] := List.length_eq_zero_iff.mp (by omega)
    have outstanding : p.outstanding = 0 := by rw [sound.outstanding, empty, List.length_nil]
    rcases work with (⟨c, busy⟩ | ⟨busy, pending⟩) | queued
    · cases here : p.client c with
      | idle => exact busy here
      | submitting task => exact still c task here
      | blocked task =>
        have := h.crowded c task here
        rw [awakeClients_eq_zero still, outstanding] at this
        omega
    · cases here : p.owner with
      | working => exact busy here
      | stopping => exact stuck .owner (Or.inl here)
      | blocked => exact h.busy here outstanding
      | joining => exact closing (sound.closing.mpr (Or.inl here))
      | stopped => exact pending here
    · exact queued empty

end SyncThreadPool

open SyncThreadPool in
/-- In every run the queue stays short, no task is taken twice, `Stop` returns when all
tasks have been run and all workers have exited, and while there is something to do
some thread can go on. -/
theorem pool_runs {C W T : Type} [Fintype C] [DecidableEq C] [Fintype W] [DecidableEq W]
    [Nonempty W] {s : History C W T} (reachable : s.Reachable) :
    s.pool.outstanding = s.pool.q.length ∧ s.pool.outstanding ≤ Fintype.card W + 1 ∧
    s.taken ≤ s.submitted ∧
    (s.pool.owner = .stopped → s.finished = s.submitted ∧ ∀ w, s.pool.worker w = .exited) ∧
    (s.pool.Pending ∨ s.pool.q ≠ [] →
      ∃ t, s.pool.Runnable t ∧ ∃ s', s.Next s' ∧ s.pool.Moves s'.pool t) := by
  obtain ⟨sound, lively, taken, submitted⟩ := reachable.kept
  refine ⟨sound.outstanding, lively.within, ?_, fun stopped => ⟨?_, sound.exited stopped⟩, ?_⟩
  · rw [taken, submitted]
    exact Multiset.add_le_add_right (Multiset.le_add_left s.pool.running _)
  · rw [submitted, sound.stopped stopped, zero_add]
  · intro work
    obtain ⟨t, runnable⟩ := lively.runnable sound work
    exact ⟨t, runnable, runnable.moves⟩

open SyncThreadPool in
theorem pool_runs_oneTask : ∃ s : History Unit Unit ℕ, s.Reachable ∧ s.pool.owner = .stopped ∧
    s.submitted = {7} ∧ s.taken ≤ s.submitted ∧ s.finished = s.submitted := by
  have submitted : History.Reachable (C := Unit) (W := Unit) _ :=
    .tail .refl (.submit () 7 rfl rfl)
  have pushed : History.Reachable _ := submitted.tail
    (.step _ 0 (.push () 7 rfl (by decide) (.nobody fun _ h => by cases h)) (Or.inl ⟨rfl, ⟨[7], rfl⟩⟩))
  have taken : History.Reachable _ := pushed.tail
    (.step _ {7} (.take () 7 [] rfl rfl rfl (.nobody (fun _ _ h => by cases h) fun h => by cases h))
      (Or.inr ⟨7, rfl, rfl⟩))
  have finished : History.Reachable _ := taken.tail (.finish () 7 rfl)
  have stopping : History.Reachable _ := finished.tail (.stop rfl fun _ => rfl)
  have joining : History.Reachable _ := stopping.tail
    (.step _ 0 (.stop rfl rfl) (Or.inl ⟨rfl, List.prefix_refl []⟩))
  have exited : History.Reachable _ := joining.tail
    (.step _ 0 (.exit () rfl rfl) (Or.inl ⟨rfl, List.prefix_refl []⟩))
  have stopped : History.Reachable _ := exited.tail
    (.step _ 0 (.join rfl fun _ => rfl) (Or.inl ⟨rfl, List.prefix_refl []⟩))
  obtain ⟨-, -, once, done, -⟩ := pool_runs stopped
  exact ⟨_, stopped, rfl, rfl, once, (done rfl).1⟩

end Dupa
