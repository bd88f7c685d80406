import Mathlib.Logic.Relation
import Mathlib.Order.Basic

/-!
# Pace

Runs of a system whose steps either act or wake somebody up for nothing. A
potential that acting lowers pays for all acts but those that follow a wakeup.
-/

variable {S : Type*} {act wake : S → S → Prop} {start s s' : S} {acts wakes : ℕ}

/-- `s` is reached from `start` by so many acts and so many wakeups, in some order. -/
inductive Paced (act wake : S → S → Prop) (start : S) : ℕ → ℕ → S → Prop
  | start : Paced act wake start 0 0 start
  | act {acts wakes : ℕ} {s s' : S} (run : Paced act wake start acts wakes s)
      (step : act s s') : Paced act wake start (acts + 1) wakes s'
  | wake {acts wakes : ℕ} {s s' : S} (run : Paced act wake start acts wakes s)
      (step : wake s s') : Paced act wake start acts (wakes + 1) s'

/-- Whatever either kind of step does is reached. -/
theorem Paced.reachable {step : S → S → Prop} (h : Paced act wake start acts wakes s)
    (acted : ∀ {s s'}, act s s' → step s s') (woken : ∀ {s s'}, wake s s' → step s s') :
    Relation.ReflTransGen step start s := by
  induction h with
  | start => exact .refl
  | act _ act ih => exact ih.tail (acted act)
  | wake _ wake ih => exact ih.tail (woken wake)

/-- A potential for the states in which `holds`: an act uses some of it up, and a
wakeup gives back at most one. -/
structure Potential (act wake : S → S → Prop) (holds : S → Prop) (level : S → ℕ) : Prop where
  acted : ∀ {s s'}, holds s → act s s' → holds s' ∧ level s' < level s
  woken : ∀ {s s'}, holds s → wake s s' → holds s' ∧ level s' ≤ level s + 1

namespace Potential

variable {holds : S → Prop} {level : S → ℕ}

theorem paced (h : Potential act wake holds level) (first : holds start)
    (run : Paced act wake start acts wakes s) :
    holds s ∧ acts + level s ≤ level start + wakes := by
  induction run with
  | start => exact ⟨first, by omega⟩
  | act run step ih =>
    obtain ⟨kept, lower⟩ := h.acted ih.1 step
    exact ⟨kept, by omega⟩
  | wake run step ih =>
    obtain ⟨kept, upper⟩ := h.woken ih.1 step
    exact ⟨kept, by omega⟩

/-- Acting for as long as possible leads somewhere. -/
theorem exists_stuck (h : Potential act wake holds level) (here : holds s) :
    ∃ s', Relation.ReflTransGen act s s' ∧ holds s' ∧ ∀ t, ¬act s' t := by
  induction hl : level s using Nat.strongRecOn generalizing s with
  | ind l ih =>
    by_cases go : ∃ t, act s t
    · obtain ⟨t, step⟩ := go
      obtain ⟨kept, lower⟩ := h.acted here step
      obtain ⟨s', acted, final⟩ := ih (level t) (hl ▸ lower) kept rfl
      exact ⟨s', .head step acted, final⟩
    · exact ⟨s, .refl, here, not_exists.mp go⟩

end Potential
