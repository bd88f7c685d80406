import Mathlib.Logic.Function.Basic

/-!
# `SyncCounter`

Every operation is one critical section of the counter's mutex, as is what a thread
does in `WaitForZero` after it has been notified. A thread in the waiting set of `cv_`
leaves it only when it is notified.
-/

namespace Dupa

/-- Where a thread is. -/
inductive Place where
  | idle
  /-- In `cv_.wait`, not notified. -/
  | blocked
  /-- In `cv_.wait`, notified, about to look at the counter again. -/
  | notified
  deriving DecidableEq

/-- `cntr_` is a `size_t`; `++` and `--` wrap around. -/
structure SyncCounter (T : Type) where
  cntr : UInt64
  place : T → Place

inductive Action (T : Type) where
  | increment (t : T)
  | decrement (t : T)
  | waitForZero (t : T)
  /-- A notified thread takes the mutex again. -/
  | resume (t : T)

namespace SyncCounter

variable {T : Type}

def create (initial : UInt64) : SyncCounter T := ⟨initial, fun _ => .idle⟩

/-- `cv_.notify_all()`. -/
def notifyAll (s : SyncCounter T) : SyncCounter T :=
  { s with place := fun t => if s.place t = .blocked then .notified else s.place t }

/-- The body of `Decrement`, which compares the value from before. -/
def decremented (s : SyncCounter T) : SyncCounter T :=
  let old := s.cntr
  let s := { s with cntr := s.cntr - 1 }
  if old = 0 then s.notifyAll else s

section
variable [DecidableEq T]

/-- One turn of the loop in `cv_.wait`: return if the counter is zero, else wait. -/
def checked (s : SyncCounter T) (t : T) : SyncCounter T :=
  { s with place := Function.update s.place t (if s.cntr = 0 then .idle else .blocked) }

/-- What an action does, where it can happen. `Decrement` is only called while the
counter is positive. -/
def step (s : SyncCounter T) : Action T → Option (SyncCounter T)
  | .increment t => if s.place t = .idle then some { s with cntr := s.cntr + 1 } else none
  | .decrement t => if s.place t = .idle ∧ 0 < s.cntr then some s.decremented else none
  | .waitForZero t => if s.place t = .idle then some (s.checked t) else none
  | .resume t => if s.place t = .notified then some (s.checked t) else none

/-- A run from a new counter, with what happened in which state. -/
inductive Run (initial : UInt64) : List (SyncCounter T × Action T) → SyncCounter T → Prop where
  | start : Run initial [] (create initial)
  | next {trace s a t} : Run initial trace s → s.step a = some t →
      Run initial (trace ++ [(s, a)]) t

end

/-- The states of a run. -/
def visited (trace : List (SyncCounter T × Action T)) (s : SyncCounter T) : List (SyncCounter T) :=
  trace.map Prod.fst ++ [s]

/-- The counter is zero, no thread is inside an operation, and some thread waits unnotified. -/
def Stranded (s : SyncCounter T) : Prop :=
  s.cntr = 0 ∧ (∀ t, s.place t ≠ .notified) ∧ ∃ t, s.place t = .blocked

/-- The action takes the counter to zero while a thread is blocked in `WaitForZero`. -/
def Loses (s : SyncCounter T) (a : Action T) : Prop :=
  (∃ t, s.place t = .blocked) ∧
    ((∃ t, a = .decrement t) ∧ s.cntr = 1 ∨ (∃ t, a = .increment t) ∧ s.cntr + 1 = 0)

variable {s t : SyncCounter T} {a : Action T} {initial : UInt64}
  {trace : List (SyncCounter T × Action T)}

/-- `Decrement` never notifies: what it compares with zero is the value before. -/
theorem decremented_eq (positive : 0 < s.cntr) :
    s.decremented = { s with cntr := s.cntr - 1 } := by
  have nonzero : s.cntr ≠ 0 := by
    intro zero
    simp [zero] at positive
  simp [decremented, nonzero]

section
variable [DecidableEq T]

/-- What a step does while nobody is notified. -/
theorem step_cases (quiet : ∀ w, s.place w ≠ .notified) (step : s.step a = some t) :
    (∃ c, a = .increment c ∧ t = { s with cntr := s.cntr + 1 }) ∨
    (∃ c, a = .decrement c ∧ 0 < s.cntr ∧ t = { s with cntr := s.cntr - 1 }) ∨
    ∃ w, a = .waitForZero w ∧ s.place w = .idle ∧ t = s.checked w := by
  cases a with
  | increment c =>
    left
    simp only [SyncCounter.step, Option.ite_none_right_eq_some, Option.some.injEq] at step
    exact ⟨c, rfl, step.2.symm⟩
  | decrement c =>
    right; left
    simp only [SyncCounter.step, Option.ite_none_right_eq_some, Option.some.injEq] at step
    obtain ⟨⟨-, positive⟩, rfl⟩ := step
    exact ⟨c, rfl, positive, decremented_eq positive⟩
  | waitForZero w =>
    right; right
    simp only [SyncCounter.step, Option.ite_none_right_eq_some, Option.some.injEq] at step
    exact ⟨w, rfl, step.1, step.2.symm⟩
  | resume w => simp [SyncCounter.step, quiet w] at step

theorem step_quiet (quiet : ∀ w, s.place w ≠ .notified) (step : s.step a = some t) :
    ∀ w, t.place w ≠ .notified := by
  obtain ⟨c, -, rfl⟩ | ⟨c, -, -, rfl⟩ | ⟨w, -, -, rfl⟩ := step_cases quiet step
  · exact quiet
  · exact quiet
  · intro v
    by_cases hv : v = w
    · subst hv
      by_cases zero : s.cntr = 0 <;> simp [checked, zero]
    · simpa [checked, hv] using quiet v

/-- A thread that is blocked stays blocked. -/
theorem step_blocked (quiet : ∀ w, s.place w ≠ .notified) (step : s.step a = some t) {v : T}
    (blocked : s.place v = .blocked) : t.place v = .blocked := by
  obtain ⟨c, -, rfl⟩ | ⟨c, -, -, rfl⟩ | ⟨w, -, idle, rfl⟩ := step_cases quiet step
  · exact blocked
  · exact blocked
  · have other : v ≠ w := by
      rintro rfl
      rw [blocked] at idle
      cases idle
    simpa [checked, other] using blocked

/-- A step strands a thread just when it takes the counter to zero over a blocked one. -/
theorem step_stranded (quiet : ∀ w, s.place w ≠ .notified) (step : s.step a = some t)
    (before : ¬ s.Stranded) : t.Stranded ↔ s.Loses a := by
  obtain ⟨c, rfl, rfl⟩ | ⟨c, rfl, positive, rfl⟩ | ⟨w, rfl, idle, rfl⟩ := step_cases quiet step
  · simp [Stranded, Loses, quiet, and_comm]
  · have last : s.cntr - 1 = 0 ↔ s.cntr = 1 := by grind
    simp [Stranded, Loses, quiet, last, and_comm]
  · have keeps : ¬ s.Loses (.waitForZero w) := by simp [Loses]
    refine iff_of_false ?_ keeps
    rintro ⟨zero, -, v, blocked⟩
    refine before ⟨zero, quiet, v, ?_⟩
    have other : v ≠ w := by
      rintro rfl
      change s.cntr = 0 at zero
      simp [checked, zero] at blocked
    simpa [checked, other] using blocked

theorem run_quiet (run : Run initial trace s) : ∀ w, s.place w ≠ .notified := by
  induction run with
  | start => intro w; simp [create]
  | next _ step ih => exact step_quiet ih step

/-- Nobody ever leaves the waiting set: `WaitForZero` returns only if it finds zero at once. -/
theorem run_blocked (run : Run initial trace s) {v : T}
    (earlier : ∃ r ∈ visited trace s, r.place v = .blocked) : s.place v = .blocked := by
  induction run with
  | start => simpa [visited] using earlier
  | @next trace r a t before step ih =>
    obtain ⟨r', hr', blocked⟩ := earlier
    rcases List.mem_append.mp hr' with old | last
    · refine step_blocked (run_quiet before) step (ih ⟨r', ?_, blocked⟩)
      simpa [visited] using old
    · rw [List.mem_singleton.mp last] at blocked
      exact blocked

/-- In every run: no thread is ever stranded just when no action takes the counter to
zero while a thread is blocked. -/
theorem never_stranded_iff (run : Run initial trace s) :
    (∀ r ∈ visited trace s, ¬ r.Stranded) ↔ ∀ x ∈ trace, ¬ x.1.Loses x.2 := by
  induction run with
  | start => simp [visited, Stranded, create]
  | @next trace s a t before step ih =>
    have states : visited (trace ++ [(s, a)]) t = visited trace s ++ [t] := by simp [visited]
    have quiet := run_quiet before
    rw [states]
    simp only [List.forall_mem_append, List.forall_mem_singleton, ← ih]
    apply and_congr_right
    intro never
    have here : ¬ s.Stranded := never s (by simp [visited])
    exact not_congr (step_stranded quiet step here)

end

/-- One thread waits for a counter of one; then another decrements it. -/
theorem decrement_strands : ∃ (trace : List (SyncCounter Bool × Action Bool))
    (s : SyncCounter Bool), Run 1 trace s ∧
      trace.map Prod.snd = [.waitForZero false, .decrement true] ∧ s.Stranded := by
  have waits := (Run.start : Run 1 [] (create (T := Bool) 1)).next (a := .waitForZero false) rfl
  have last := waits.next (a := .decrement true) rfl
  exact ⟨_, _, last, rfl, rfl, by decide, false, rfl⟩

/-- Decrementing before waiting strands nobody. -/
theorem never_stranded_iff_late : ∃ (trace : List (SyncCounter Bool × Action Bool))
    (s : SyncCounter Bool), trace.map Prod.snd = [.decrement true, .waitForZero false] ∧
    ∀ r ∈ visited trace s, ¬ r.Stranded := by
  have counted := (Run.start : Run 1 [] (create (T := Bool) 1)).next (a := .decrement true) rfl
  have last := counted.next (a := .waitForZero false) rfl
  refine ⟨_, _, rfl, (never_stranded_iff last).mpr ?_⟩
  simp [Loses, create]

end SyncCounter

end Dupa
