import Mathlib.Algebra.Order.BigOperators.Group.Finset
import Mathlib.Algebra.Order.Group.Multiset
import Mathlib.Algebra.Order.Group.Nat
import Mathlib.Algebra.Ring.Nat
import Dupa.PoolRuns

/-!
# What a pool has left to do

Threads may wake up without having been notified. Every other critical section
brings the pool nearer to its end: `effort`, which weighs each task, falls. One
that waits has paid for its wakeup by a notification before.
-/

set_option linter.unusedSectionVars false

namespace Dupa

section
variable {T : Type} (weight : T → ℕ)

def Worker.effort : Worker T → ℕ
  | .ready => 1
  | .waiting => 0
  | .running task => weight task
  | .exited => 0

def Client.effort : Client T → ℕ
  | .idle => 0
  | .submitting task => weight task + 3
  | .blocked task => weight task + 2

/-- The owner of a pool with so many workers. -/
def Owner.effort (workers : ℕ) : Owner → ℕ
  | .working => 0
  | .stopping => workers + 2
  | .blocked => workers + 1
  | .joining => 1
  | .stopped => 0

end

namespace SyncThreadPool

variable {C W T : Type} [Fintype C] [DecidableEq C] [Fintype W] [DecidableEq W]
  {p p' : SyncThreadPool C W T} {c : C} {w : W} {task : T} (weight : T → ℕ)

/-- A thread leaves its wait without having been notified. -/
inductive Wakes (p : SyncThreadPool C W T) : SyncThreadPool C W T → Prop
  | worker (w : W) (here : p.worker w = .waiting) : Wakes p (p.setWorker w .ready)
  | client (c : C) (task : T) (here : p.client c = .blocked task) :
      Wakes p (p.setClient c (.submitting task))
  | owner (here : p.owner = .blocked) : Wakes p { p with owner := .stopping }

def effort (p : SyncThreadPool C W T) : ℕ :=
  (p.q.map fun task => weight task + 1).sum + ∑ c, (p.client c).effort weight +
    ∑ w, (p.worker w).effort weight + p.owner.effort (Fintype.card W)

theorem effort_create : (create : SyncThreadPool C W T).effort weight = Fintype.card W := by
  simp only [effort, create, Client.effort, Worker.effort, Owner.effort, List.map_nil,
    List.sum_nil, Finset.sum_const_zero, ← Fintype.card_eq_sum_ones, zero_add, add_zero]

theorem effort_setWorker (p : SyncThreadPool C W T) (w : W) (x : Worker T) :
    (p.setWorker w x).effort weight + (p.worker w).effort weight =
      p.effort weight + x.effort weight := by
  have := sum_update (Worker.effort weight) p.worker w x
  simp only [effort, setWorker]
  omega

theorem effort_setClient (p : SyncThreadPool C W T) (c : C) (x : Client T) :
    (p.setClient c x).effort weight + (p.client c).effort weight =
      p.effort weight + x.effort weight := by
  have := sum_update (Client.effort weight) p.client c x
  simp only [effort, setClient]
  omega

theorem effort_setOwner (p : SyncThreadPool C W T) (owner : Owner) :
    effort weight { p with owner := owner } + p.owner.effort (Fintype.card W) =
      p.effort weight + owner.effort (Fintype.card W) := by
  simp only [effort]
  omega

theorem Wakes.step (h : Wakes p p') : p.Step p' := by
  cases h with
  | worker w here => exact .wakeWorker w here
  | client c task here => exact .wakeClient c task here
  | owner here => exact .wakeOwner here

theorem Wakes.effort_eq (h : Wakes p p') : p'.effort weight = p.effort weight + 1 := by
  cases h with
  | worker w here =>
    have := effort_setWorker weight p w .ready
    simpa [here, Worker.effort] using this
  | client c task here =>
    have := effort_setClient weight p c (.submitting task)
    simp only [here, Client.effort] at this
    omega
  | owner here =>
    have := effort_setOwner weight p .stopping
    simp only [here, Owner.effort] at this
    omega

theorem Wakes.irrefl (h : Wakes p p) : False := by
  have := h.effort_eq fun _ => 0
  omega

theorem NotifyWorker.effort_le (h : NotifyWorker p p') :
    p'.effort weight ≤ p.effort weight + 1 := by
  cases h with
  | wake w here => exact (Wakes.worker w here).effort_eq weight |>.le
  | nobody => exact Nat.le_succ _

theorem NotifyUser.effort_le (h : NotifyUser p p') : p'.effort weight ≤ p.effort weight + 1 := by
  cases h with
  | client c task here => exact (Wakes.client c task here).effort_eq weight |>.le
  | owner here => exact (Wakes.owner here).effort_eq weight |>.le
  | nobody => exact Nat.le_succ _

/-- Those who wait and are all notified at once have been paid for by the owner. -/
theorem effort_notified (p : SyncThreadPool C W T) :
    ∑ w, (notified (p.worker w)).effort weight ≤
      ∑ w, (p.worker w).effort weight + Fintype.card W := by
  have each : ∀ w, (notified (p.worker w)).effort weight ≤ (p.worker w).effort weight + 1 := by
    intro w
    cases p.worker w <;> simp [notified, Worker.effort]
  calc ∑ w, (notified (p.worker w)).effort weight
      ≤ ∑ w, ((p.worker w).effort weight + 1) := Finset.sum_le_sum fun w _ => each w
    _ = ∑ w, (p.worker w).effort weight + Fintype.card W := by
      rw [Finset.sum_add_distrib, ← Fintype.card_eq_sum_ones]

/-- A critical section that is not a wakeup for nothing lowers the effort. -/
theorem Step.effort_lt (h : Step p p') (acts : ¬Wakes p p') :
    p'.effort weight < p.effort weight := by
  cases h with
  | push c task here room notify =>
    have notified := notify.effort_le weight
    have moved := effort_setClient weight p c .idle
    have queued : effort weight { p.setClient c .idle with
        q := p.q ++ [task], outstanding := p.outstanding + 1 } =
        (p.setClient c .idle).effort weight + (weight task + 1) := by
      simp only [effort, setClient, List.map_append, List.sum_append, List.map_singleton,
        List.sum_singleton]
      omega
    simp only [here, Client.effort] at moved
    omega
  | block c task here full =>
    have moved := effort_setClient weight p c (.blocked task)
    simp only [here, Client.effort] at moved
    omega
  | take w task rest here running next notify =>
    have notified := notify.effort_le weight
    have moved := effort_setWorker weight p w (.running task)
    have popped : effort weight { p.setWorker w (.running task) with
        q := rest, outstanding := p.outstanding - 1 } + (weight task + 1) =
        (p.setWorker w (.running task)).effort weight := by
      simp only [effort, setWorker, next, List.map_cons, List.sum_cons]
      omega
    simp only [here, Worker.effort] at moved
    omega
  | wait w here =>
    have moved := effort_setWorker weight p w .waiting
    simp only [here, Worker.effort] at moved
    omega
  | exit w here =>
    have moved := effort_setWorker weight p w .exited
    simp only [here, Worker.effort] at moved
    omega
  | stop here empty =>
    have woken := effort_notified weight p
    simp only [effort, here, Owner.effort]
    omega
  | stopBlock here =>
    have moved := effort_setOwner weight p .blocked
    simp only [here, Owner.effort] at moved
    omega
  | join here exited =>
    have moved := effort_setOwner weight p .stopped
    simp only [here, Owner.effort] at moved
    omega
  | wakeWorker w here => exact absurd (.worker w here) acts
  | wakeClient c task here => exact absurd (.client c task here) acts
  | wakeOwner here => exact absurd (.owner here) acts

theorem effort_submit (idle : p.client c = .idle) (task : T) :
    (p.submit c task).effort weight = p.effort weight + (weight task + 3) := by
  have moved := effort_setClient weight p c (.submitting task)
  simpa [submit, idle, Client.effort] using moved

theorem effort_stop (working : p.owner = .working) :
    p.stop.effort weight = p.effort weight + (Fintype.card W + 2) := by
  have moved := effort_setOwner weight p .stopping
  simpa [stop, working, Owner.effort] using moved

/-! ## Who can go on -/

/-- A worker that goes on with its task makes no difference to those who wait. -/
theorem Lively.work (h : p.Lively) (here : p.worker w = .running task) (task' : T) :
    (p.setWorker w (.running task')).Lively where
  within := h.within
  served v waiting := by
    have same := awakeWorkers_setWorker p w (.running task')
    have := h.served v (worker_of_setWorker waiting (by simp))
    simp only [here, Worker.awake] at same
    change p.q.length ≤ _
    omega
  crowded := h.crowded
  busy := h.busy
  closed closing v waiting := h.closed closing v (worker_of_setWorker waiting (by simp))
  exited v gone := h.exited v (worker_of_setWorker gone (by simp))

/-- `Stop` does not take back what it has begun. -/
theorem Step.busy (h : Step p p') (busy : p.owner ≠ .working) : p'.owner ≠ .working := by
  cases h with
  | push c task here room notify => rwa [notify.frame.2]
  | take w task rest here running next notify =>
    cases notify with
    | client | nobody => exact busy
    | owner => simp
  | stop | stopBlock | join | wakeOwner => simp
  | block | wait | exit | wakeWorker | wakeClient => exact busy

/-- A wakeup leaves the threads alone that do not wait. -/
theorem Wakes.still (h : Wakes p p') {t : Thread C W} (runnable : p.Runnable t) :
    ¬p.Moves p' t := by
  cases h with
  | worker w here =>
    cases t with
    | worker v =>
      have other : v ≠ w := by
        rintro rfl
        simp [Runnable, here] at runnable
      simp [Moves, setWorker, Function.update_of_ne other]
    | client | owner => simp [Moves, setWorker]
  | client c task here =>
    cases t with
    | client d =>
      have other : d ≠ c := by
        rintro rfl
        simp [Runnable, here] at runnable
      simp [Moves, setClient, Function.update_of_ne other]
    | worker | owner => simp [Moves, setClient]
  | owner here =>
    cases t with
    | owner => simp [Runnable, here] at runnable
    | client | worker => simp [Moves]

/-- A runnable thread enters a critical section that is no wakeup, unless it runs a task. -/
theorem Runnable.acts {t : Thread C W} (h : p.Runnable t) :
    (∃ p', p.Step p' ∧ ¬p.Wakes p') ∨ ∃ w task, p.worker w = .running task := by
  obtain ⟨s', next, moves⟩ := Runnable.moves (s := ⟨p, 0, 0, 0⟩) h
  cases next with
  | submit c task idle working =>
    cases t with
    | client d =>
      have other : d ≠ c := by
        rintro rfl
        obtain ⟨task, here⟩ := h
        simp [here] at idle
      simp [Moves, submit, setClient, Function.update_of_ne other] at moves
    | worker | owner => simp [Moves, submit, setClient] at moves
  | stop working returned =>
    cases t with
    | owner => rcases h with h | ⟨h, -⟩ <;> cases working.symm.trans h
    | client | worker => simp [Moves, stop] at moves
  | finish w task here => exact Or.inr ⟨w, task, here⟩
  | step p' taken step pops => exact Or.inl ⟨p', step, fun wakes => wakes.still h moves⟩

/-- While there is something to do, somebody can do it: also without a worker when
there is no task. -/
theorem Lively.acts (h : p.Lively) (sound : p.Sound) (work : p.Pending)
    (served : Nonempty W ∨ p.tasks = 0) :
    (∃ p', p.Step p' ∧ ¬p.Wakes p') ∨ ∃ w task, p.worker w = .running task := by
  by_cases workers : Nonempty W
  · obtain ⟨t, runnable⟩ := h.runnable sound (Or.inl work)
    exact runnable.acts
  have nobody : ∀ w : W, False := fun w => workers ⟨w⟩
  have none : p.tasks = 0 := served.resolve_left workers
  simp only [tasks, add_eq_zero, Finset.sum_eq_zero_iff, Finset.mem_univ, true_implies] at none
  obtain ⟨⟨empty, clients⟩, -⟩ := none
  have idle : ∀ c, p.client c = .idle := by
    intro c
    have := clients c
    cases here : p.client c <;> simp [here, Client.tasks] at this ⊢
  have outstanding : p.outstanding = 0 := by
    rw [sound.outstanding, (Multiset.coe_eq_zero p.q).mp empty, List.length_nil]
  obtain ⟨busy, pending⟩ : p.owner ≠ .working ∧ p.owner ≠ .stopped := by
    apply work.resolve_left
    rintro ⟨c, busy⟩
    exact busy (idle c)
  cases here : p.owner with
  | working => exact absurd here busy
  | stopping => exact Runnable.acts (t := .owner) (Or.inl here)
  | blocked => exact absurd outstanding (h.busy here)
  | joining => exact Runnable.acts (t := .owner) (Or.inr ⟨here, fun w => (nobody w).elim⟩)
  | stopped => exact absurd here pending

end SyncThreadPool

end Dupa
