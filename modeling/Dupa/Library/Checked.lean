import Mathlib.Logic.Basic

/-!
# Computations that can fail a check

A checked computation is an `Except`: `ensure` is its assertion. `mapM_ok` and
`foldlM_ok` run a loop whose every turn is known to succeed; the fold carries an
invariant on the part of the list already consumed.
-/

namespace Checked

variable {ε α β σ : Type}

def ensure (p : Prop) [Decidable p] (fault : ε) : Except ε Unit :=
  if p then .ok () else .error fault

@[simp] theorem ok_bind (a : α) (k : α → Except ε β) : (Except.ok a >>= k) = k a := rfl

theorem ensure_bind {p : Prop} [Decidable p] {fault : ε} {k : Unit → Except ε β} (h : p) :
    (ensure p fault >>= k) = k () := by simp [ensure, h]

/-- A computation that succeeds succeeds in its first part. -/
theorem of_bind_ok {x : Except ε α} {k : α → Except ε β} {b : β} (h : (x >>= k) = .ok b) :
    ∃ a, x = .ok a ∧ k a = .ok b := by
  cases x with
  | error fault => cases h
  | ok a => exact ⟨a, rfl, h⟩

theorem of_ensure_ok {p : Prop} [Decidable p] {fault : ε} {k : Unit → Except ε β} {b : β}
    (h : (ensure p fault >>= k) = .ok b) : p ∧ k () = .ok b := by
  by_cases hp : p
  · exact ⟨hp, (ensure_bind hp).symm.trans h⟩
  · rw [ensure, if_neg hp] at h
    cases h

/-- The computation succeeds and `P` holds of its result. -/
def Returns (P : α → Prop) : Except ε α → Prop
  | .ok a => P a
  | .error _ => False

instance (P : α → Prop) [DecidablePred P] : DecidablePred (@Returns ε α P)
  | .ok a => inferInstanceAs (Decidable (P a))
  | .error _ => isFalse id

theorem Returns.exists_ok {P : α → Prop} {x : Except ε α} (h : Returns P x) :
    ∃ a, x = .ok a ∧ P a := by
  cases x with
  | ok a => exact ⟨a, rfl, h⟩
  | error _ => cases h

theorem mapM_ok {f : α → Except ε β} {g : α → β} {l : List α} (h : ∀ x ∈ l, f x = .ok (g x)) :
    l.mapM f = .ok (l.map g) := by
  induction l with
  | nil => rfl
  | cons x xs ih =>
    rw [List.mapM_cons, h x List.mem_cons_self, ih fun y hy => h y (List.mem_cons_of_mem x hy)]
    rfl

/-- What every turn of a fold keeps, about the elements consumed so far, holds
of the whole list at the end. -/
theorem foldlM_ok {f : σ → α → Except ε σ} {I : List α → σ → Prop} {l : List α}
    (turn : ∀ done x rest s, l = done ++ x :: rest → I done s →
      ∃ s', f s x = .ok s' ∧ I (done ++ [x]) s') {s : σ} (start : I [] s) :
    ∃ s', l.foldlM f s = .ok s' ∧ I l s' := by
  have run : ∀ rest done s, l = done ++ rest → I done s →
      ∃ s', rest.foldlM f s = .ok s' ∧ I l s' := by
    intro rest
    induction rest with
    | nil =>
      intro done s hl hi
      rw [List.append_nil] at hl
      exact ⟨s, rfl, hl ▸ hi⟩
    | cons x rest ih =>
      intro done s hl hi
      obtain ⟨s', hs, hi'⟩ := turn done x rest s hl hi
      obtain ⟨t, ht, hi''⟩ := ih (done ++ [x]) s' (by simp [hl]) hi'
      exact ⟨t, by rw [List.foldlM_cons, hs, ok_bind, ht], hi''⟩
  exact run l [] s rfl start

end Checked
