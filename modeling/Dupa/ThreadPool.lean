import Mathlib.Algebra.BigOperators.Group.Finset.Basic
import Mathlib.Data.Fintype.BigOperators
import Mathlib.Data.Multiset.Basic
import Mathlib.Logic.Function.Basic

/-!
# `SyncThreadPool`

A step is one critical section of the pool's mutex. Which threads wait on which
condition variable is part of where they are, so that a notification wakes an
arbitrary one of them; any of them may also wake by itself.
-/

set_option linter.unusedSectionVars false

namespace Dupa

/-- Where a worker is in `ThreadLoop`. -/
inductive Worker (T : Type) where
  | ready
  /-- In `cv_.wait`. -/
  | waiting
  | running (task : T)
  | exited

/-- Where a thread that submits tasks is in `Submit`. -/
inductive Client (T : Type) where
  | idle
  | submitting (task : T)
  /-- In `user_cv_.wait`. -/
  | blocked (task : T)

/-- Where the thread that calls `Stop` is. -/
inductive Owner where
  | working
  | stopping
  /-- In `user_cv_.wait`. -/
  | blocked
  | joining
  | stopped
  deriving DecidableEq

structure SyncThreadPool (C W T : Type) where
  closing : Bool
  outstanding : ℕ
  q : List T
  worker : W → Worker T
  client : C → Client T
  owner : Owner

namespace SyncThreadPool

variable {C W T : Type} {p p' : SyncThreadPool C W T} {c : C} {w : W} {task : T}

def create : SyncThreadPool C W T where
  closing := false
  outstanding := 0
  q := []
  worker := fun _ => .ready
  client := fun _ => .idle
  owner := .working

section
variable [DecidableEq C] [DecidableEq W]

def setWorker (p : SyncThreadPool C W T) (w : W) (x : Worker T) : SyncThreadPool C W T :=
  { p with worker := Function.update p.worker w x }

def setClient (p : SyncThreadPool C W T) (c : C) (x : Client T) : SyncThreadPool C W T :=
  { p with client := Function.update p.client c x }

/-- `cv_.notify_one()`. -/
inductive NotifyWorker (p : SyncThreadPool C W T) : SyncThreadPool C W T → Prop
  | wake (w : W) (here : p.worker w = .waiting) : NotifyWorker p (p.setWorker w .ready)
  | nobody (none : ∀ w, p.worker w ≠ .waiting) : NotifyWorker p p

/-- `user_cv_.notify_one()`. -/
inductive NotifyUser (p : SyncThreadPool C W T) : SyncThreadPool C W T → Prop
  | client (c : C) (task : T) (here : p.client c = .blocked task) :
      NotifyUser p (p.setClient c (.submitting task))
  | owner (here : p.owner = .blocked) : NotifyUser p { p with owner := .stopping }
  | nobody (none : ∀ c task, p.client c ≠ .blocked task) (busy : p.owner ≠ .blocked) :
      NotifyUser p p

/-- `cv_.notify_all()`, as one worker sees it. -/
def notified : Worker T → Worker T
  | .waiting => .ready
  | x => x

inductive Step [Fintype W] (p : SyncThreadPool C W T) : SyncThreadPool C W T → Prop
  | push (c : C) (task : T) {p' : SyncThreadPool C W T} (here : p.client c = .submitting task)
      (room : p.outstanding ≤ Fintype.card W)
      (notify : NotifyWorker
        { p.setClient c .idle with q := p.q ++ [task], outstanding := p.outstanding + 1 } p') :
      Step p p'
  | block (c : C) (task : T) (here : p.client c = .submitting task)
      (full : Fintype.card W < p.outstanding) : Step p (p.setClient c (.blocked task))
  | take (w : W) (task : T) (rest : List T) {p' : SyncThreadPool C W T}
      (here : p.worker w = .ready) (running : p.closing = false) (next : p.q = task :: rest)
      (notify : NotifyUser
        { p.setWorker w (.running task) with q := rest, outstanding := p.outstanding - 1 } p') :
      Step p p'
  | wait (w : W) (here : p.worker w = .ready) (running : p.closing = false) (empty : p.q = []) :
      Step p (p.setWorker w .waiting)
  | exit (w : W) (here : p.worker w = .ready) (closing : p.closing = true) :
      Step p (p.setWorker w .exited)
  | stop (here : p.owner = .stopping) (empty : p.outstanding = 0) :
      Step p { p with closing := true, owner := .joining, worker := fun w => notified (p.worker w) }
  | stopBlock (here : p.owner = .stopping) (busy : p.outstanding ≠ 0) :
      Step p { p with owner := .blocked }
  | join (here : p.owner = .joining) (exited : ∀ w, p.worker w = .exited) :
      Step p { p with owner := .stopped }
  | wakeWorker (w : W) (here : p.worker w = .waiting) : Step p (p.setWorker w .ready)
  | wakeClient (c : C) (task : T) (here : p.client c = .blocked task) :
      Step p (p.setClient c (.submitting task))
  | wakeOwner (here : p.owner = .blocked) : Step p { p with owner := .stopping }

/-- A client calls `Submit`. -/
def submit (p : SyncThreadPool C W T) (c : C) (task : T) : SyncThreadPool C W T :=
  p.setClient c (.submitting task)

/-- The owner calls `Stop`. -/
def stop (p : SyncThreadPool C W T) : SyncThreadPool C W T := { p with owner := .stopping }

end

/-! ## Tasks -/

end SyncThreadPool

def Worker.tasks {T : Type} : Worker T → Multiset T
  | .running task => {task}
  | _ => 0

def Client.tasks {T : Type} : Client T → Multiset T
  | .idle => 0
  | .submitting task => {task}
  | .blocked task => {task}

namespace SyncThreadPool

section
variable {C W T : Type} [Fintype C] [DecidableEq C] [Fintype W] [DecidableEq W]
  {p p' : SyncThreadPool C W T} {c : C} {w : W} {task : T}

/-- Tasks that are being submitted, wait in the queue or run. -/
def tasks (p : SyncThreadPool C W T) : Multiset T :=
  p.q + ∑ c, (p.client c).tasks + ∑ w, (p.worker w).tasks

theorem sum_update {X Y M : Type} [Fintype X] [DecidableEq X] [AddCommMonoid M] (f : Y → M)
    (g : X → Y) (x : X) (y : Y) :
    ∑ i, f (Function.update g x y i) + f (g x) = ∑ i, f (g i) + f y := by
  have others : ∑ i ∈ Finset.univ.erase x, f (Function.update g x y i) =
      ∑ i ∈ Finset.univ.erase x, f (g i) := by
    apply Finset.sum_congr rfl
    intro i hi
    rw [Function.update_of_ne (Finset.ne_of_mem_erase hi)]
  rw [← Finset.add_sum_erase _ _ (Finset.mem_univ x), others,
    ← Finset.add_sum_erase _ (fun i => f (g i)) (Finset.mem_univ x), Function.update_self]
  ac_rfl

theorem tasks_setWorker (p : SyncThreadPool C W T) (w : W) (x : Worker T) :
    (p.setWorker w x).tasks + (p.worker w).tasks = p.tasks + x.tasks := by
  simp only [tasks, setWorker, add_assoc, sum_update Worker.tasks p.worker w x]

theorem tasks_setClient (p : SyncThreadPool C W T) (c : C) (x : Client T) :
    (p.setClient c x).tasks + (p.client c).tasks = p.tasks + x.tasks := by
  have := sum_update Client.tasks p.client c x
  simp only [tasks, setClient, add_right_comm _ (∑ w, (p.worker w).tasks), add_assoc _ _ (Client.tasks _)]
  rw [this]

theorem tasks_finish (here : p.worker w = .running task) :
    p.tasks = task ::ₘ (p.setWorker w .ready).tasks := by
  have := tasks_setWorker p w .ready
  rw [here] at this
  simpa [Worker.tasks, add_comm] using this.symm

theorem tasks_work (here : p.worker w = .running task) (task' : T) :
    (p.setWorker w (.running task')).tasks = task' ::ₘ (p.setWorker w .ready).tasks := by
  have := tasks_setWorker p w (.running task')
  rw [here, tasks_finish here] at this
  refine add_right_cancel (b := {task}) (this.trans ?_)
  simp only [Worker.tasks, ← Multiset.singleton_add]
  ac_rfl

theorem tasks_submit (idle : p.client c = .idle) (task : T) :
    (p.submit c task).tasks = task ::ₘ p.tasks := by
  have := tasks_setClient p c (.submitting task)
  rw [idle] at this
  simpa [Client.tasks, submit, add_comm] using this

theorem NotifyWorker.tasks (h : NotifyWorker p p') : p'.tasks = p.tasks := by
  cases h with
  | wake w here => simpa [here, Worker.tasks] using tasks_setWorker p w .ready
  | nobody => rfl

theorem NotifyUser.tasks (h : NotifyUser p p') : p'.tasks = p.tasks := by
  cases h with
  | client c task here =>
    have := tasks_setClient p c (.submitting task)
    rw [here] at this
    exact add_right_cancel this
  | owner => rfl
  | nobody => rfl

/-- The pool moves tasks about: it makes none and loses none. -/
theorem Step.tasks (h : Step p p') : p'.tasks = p.tasks := by
  cases h with
  | push c task here room notify =>
    rw [notify.tasks]
    have := tasks_setClient p c .idle
    rw [here] at this
    simp only [Client.tasks, add_zero] at this
    rw [← this]
    simp only [SyncThreadPool.tasks, ← Multiset.coe_add, Multiset.coe_singleton]
    ac_rfl
  | block c task here =>
    have := tasks_setClient p c (.blocked task)
    rw [here] at this
    exact add_right_cancel this
  | take w task rest here running next notify =>
    rw [notify.tasks]
    have := tasks_setWorker p w (.running task)
    rw [here] at this
    simp only [Worker.tasks, add_zero] at this
    refine add_right_cancel (b := {task}) (Eq.trans ?_ this)
    simp only [SyncThreadPool.tasks, setWorker, next, ← Multiset.cons_coe, ← Multiset.singleton_add]
    ac_rfl
  | wait w here => simpa [here, Worker.tasks] using tasks_setWorker p w .waiting
  | exit w here => simpa [here, Worker.tasks] using tasks_setWorker p w .exited
  | stop =>
    have same : ∀ w, (notified (p.worker w)).tasks = (p.worker w).tasks := by
      intro w
      cases p.worker w <;> rfl
    simp only [SyncThreadPool.tasks, same]
  | stopBlock => rfl
  | join => rfl
  | wakeWorker w here => simpa [here, Worker.tasks] using tasks_setWorker p w .ready
  | wakeClient c task here =>
    have := tasks_setClient p c (.submitting task)
    rw [here] at this
    exact add_right_cancel this
  | wakeOwner => rfl

/-! ## Stopping -/

/-- What `Stop` relies on, in every state of a pool whose owner calls it once
all calls to `Submit` have returned. -/
structure Sound (p : SyncThreadPool C W T) : Prop where
  outstanding : p.outstanding = p.q.length
  closing : p.closing = true ↔ p.owner = .joining ∨ p.owner = .stopped
  idle : p.owner ≠ .working → ∀ c, p.client c = .idle
  drained : p.closing = true → p.q = []
  exited : p.owner = .stopped → ∀ w, p.worker w = .exited

theorem create_sound : (create : SyncThreadPool C W T).Sound where
  outstanding := rfl
  closing := by simp [create]
  idle h := absurd rfl h
  drained _ := rfl
  exited h := by simp [create] at h

/-- A stopped pool has no task left. -/
theorem Sound.stopped (h : p.Sound) (stopped : p.owner = .stopped) : p.tasks = 0 := by
  have idle : ∀ c, p.client c = .idle := h.idle (by simp [stopped])
  have drained : p.q = [] := h.drained (h.closing.mpr (Or.inr stopped))
  simp [tasks, drained, idle, h.exited stopped, Client.tasks, Worker.tasks]

theorem Sound.setWorker (h : p.Sound) (here : p.worker w ≠ .exited) (x : Worker T) :
    (p.setWorker w x).Sound where
  outstanding := h.outstanding
  closing := h.closing
  idle := h.idle
  drained := h.drained
  exited stopped := absurd (h.exited stopped w) here

theorem Sound.setClient (h : p.Sound) (here : p.client c ≠ .idle) (x : Client T) :
    (p.setClient c x).Sound where
  outstanding := h.outstanding
  closing := h.closing
  idle busy := absurd (h.idle busy c) here
  drained := h.drained
  exited := h.exited

theorem Sound.submit (h : p.Sound) (working : p.owner = .working) (c : C) (task : T) :
    (p.submit c task).Sound where
  outstanding := h.outstanding
  closing := h.closing
  idle busy := absurd working busy
  drained := h.drained
  exited := h.exited

theorem Sound.stop (h : p.Sound) (working : p.owner = .working) (idle : ∀ c, p.client c = .idle) :
    p.stop.Sound where
  outstanding := h.outstanding
  closing := by
    have := h.closing
    simp only [working] at this
    simpa [SyncThreadPool.stop] using this
  idle _ := idle
  drained := h.drained
  exited stopped := by cases stopped

/-- Whether a stopping owner waits or not makes no difference. -/
theorem Sound.stopping (h : p.Sound) {owner : Owner}
    (here : p.owner = .stopping ∨ p.owner = .blocked) (there : owner = .stopping ∨ owner = .blocked) :
    Sound { p with owner := owner } where
  outstanding := h.outstanding
  closing := by
    have := h.closing
    rcases here with here | here <;> rcases there with rfl | rfl <;> simpa [here] using this
  idle _ := h.idle (by rcases here with here | here <;> simp [here])
  drained := h.drained
  exited stopped := by rcases there with rfl | rfl <;> cases stopped

theorem NotifyWorker.sound (h : NotifyWorker p p') (sound : p.Sound) : p'.Sound := by
  cases h with
  | wake w here => exact sound.setWorker (by simp [here]) _
  | nobody => exact sound

theorem NotifyUser.sound (h : NotifyUser p p') (sound : p.Sound) : p'.Sound := by
  cases h with
  | client c task here => exact sound.setClient (by simp [here]) _
  | owner here => exact sound.stopping (Or.inr here) (Or.inl rfl)
  | nobody => exact sound

theorem Step.sound (h : Step p p') (sound : p.Sound) : p'.Sound := by
  cases h with
  | push c task here room notify =>
    have working : p.owner = .working := by
      by_contra busy
      simp [sound.idle busy c] at here
    have running : ¬p.closing = true := fun closing => by
      simpa [working] using sound.closing.mp closing
    apply notify.sound
    obtain ⟨outstanding, closing, idle, drained, exited⟩ :=
      sound.setClient (by simp [here]) .idle (c := c)
    refine ⟨?_, closing, idle, fun h => absurd h running, exited⟩
    simpa [setClient] using outstanding
  | block c task here => exact sound.setClient (by simp [here]) _
  | take w task rest here running next notify =>
    apply notify.sound
    obtain ⟨outstanding, closing, idle, drained, exited⟩ :=
      sound.setWorker (by simp [here]) (.running task) (w := w)
    refine ⟨?_, closing, idle, fun h => absurd h (by simp [setWorker, running]), exited⟩
    have := sound.outstanding
    rw [next, List.length_cons] at this
    exact congrArg (· - 1) this
  | wait w here => exact sound.setWorker (by simp [here]) _
  | exit w here => exact sound.setWorker (by simp [here]) _
  | stop here empty =>
    refine ⟨sound.outstanding, by simp, fun _ => sound.idle (by simp [here]), fun _ => ?_, ?_⟩
    · exact List.length_eq_zero_iff.mp (sound.outstanding ▸ empty)
    · exact fun h => by cases h
  | stopBlock here => exact sound.stopping (Or.inl here) (Or.inr rfl)
  | join here exited =>
    have closing := sound.closing.mpr (Or.inl here)
    exact ⟨sound.outstanding, by simp [closing], fun _ => sound.idle (by simp [here]),
      sound.drained, fun _ => exited⟩
  | wakeWorker w here => exact sound.setWorker (by simp [here]) _
  | wakeClient c task here => exact sound.setClient (by simp [here]) _
  | wakeOwner here => exact sound.stopping (Or.inr here) (Or.inl rfl)

/-! ## What a step leaves alone -/

theorem NotifyWorker.frame (h : NotifyWorker p p') : p'.client = p.client ∧ p'.owner = p.owner := by
  cases h with
  | wake | nobody => exact ⟨rfl, rfl⟩

theorem NotifyUser.idle (h : NotifyUser p p') (idle : p.client c = .idle) :
    p'.client c = .idle := by
  cases h with
  | client d task here =>
    have other : c ≠ d := fun same => by simp [← same, idle] at here
    exact (Function.update_of_ne other _ _).trans idle
  | owner | nobody => exact idle

theorem NotifyUser.owner_eq (h : NotifyUser p p') (busy : p.owner ≠ .blocked) :
    p'.owner = p.owner := by
  cases h with
  | client | nobody => rfl
  | owner here => exact absurd here busy

/-- A thread that is not in `Submit` is left alone. -/
theorem Step.idle (h : Step p p') (idle : p.client c = .idle) : p'.client c = .idle := by
  have other : ∀ {d : C} {x : Client T}, p.client d ≠ .idle →
      (p.setClient d x).client c = .idle := by
    intro d x busy
    have : c ≠ d := fun same => busy (same ▸ idle)
    exact (Function.update_of_ne this _ _).trans idle
  cases h with
  | push d task here room notify =>
    rw [notify.frame.1]
    exact other (by simp [here])
  | take w task rest here running next notify => exact notify.idle idle
  | block d task here | wakeClient d task here => exact other (by simp [here])
  | wait | exit | stop | stopBlock | join | wakeWorker | wakeOwner => exact idle

/-- An owner that is not in `Stop` is left alone. -/
theorem Step.owner_eq (h : Step p p') (out : p.owner = .working ∨ p.owner = .stopped) :
    p'.owner = p.owner := by
  cases h with
  | push d task here room notify => exact notify.frame.2
  | take w task rest here running next notify =>
    exact notify.owner_eq (by rcases out with out | out <;> simp [SyncThreadPool.setWorker, out])
  | stop here | stopBlock here | join here | wakeOwner here => simp [here] at out
  | block | wait | exit | wakeWorker | wakeClient => rfl

end

end SyncThreadPool

end Dupa
