import Mathlib.Algebra.BigOperators.Group.Multiset.Basic
import Mathlib.Algebra.Order.BigOperators.Group.List
import Mathlib.Algebra.Order.Group.Nat
import Mathlib.Algebra.Ring.Nat
import Mathlib.Logic.Relation

/-!
# Worklists

Work items are visited in any order. A visit emits what the item stands for and
replaces the item by its children.
-/

structure Worklist (α β : Type*) where
  emits : α → List β
  children : α → List α

namespace Worklist

variable {α β : Type*} [DecidableEq β] {W : Worklist α β} {start a : α} {todo : Multiset α}
  {out : List β} {b : β}

def Reach (W : Worklist α β) : α → α → Prop :=
  Relation.ReflTransGen fun a c => c ∈ W.children a

/-- What the items to do and the things emitted say about the items reached
from `start`, after any number of visits. -/
structure Accounts (W : Worklist α β) (start : α) (todo : Multiset α) (out : List β) : Prop where
  known : ∀ a ∈ todo, W.Reach start a
  sound : ∀ b ∈ out, ∃ a, W.Reach start a ∧ b ∈ W.emits a
  complete : ∀ a, W.Reach start a → (∃ c ∈ todo, W.Reach c a) ∨ ∀ b ∈ W.emits a, b ∈ out
  /-- No weight that a visit cannot increase is exceeded. -/
  bounded : ∀ (b : β) (weight : α → ℕ),
    (∀ a, (W.emits a).count b + ((W.children a).map weight).sum ≤ weight a) →
      out.count b + (todo.map weight).sum ≤ weight start

namespace Accounts

theorem start_only (W : Worklist α β) (start : α) : W.Accounts start {start} [] where
  known a ha := by
    rw [Multiset.mem_singleton] at ha
    exact ha ▸ Relation.ReflTransGen.refl
  sound b hb := absurd hb List.not_mem_nil
  complete a ha := Or.inl ⟨start, Multiset.mem_singleton_self start, ha⟩
  bounded b weight _ := by simp

theorem visit (h : W.Accounts start (a ::ₘ todo) out) :
    W.Accounts start (W.children a + todo) (out ++ W.emits a) where
  known c hc := by
    rcases Multiset.mem_add.mp hc with hc | hc
    · exact (h.known a (Multiset.mem_cons_self a todo)).tail (Multiset.mem_coe.mp hc)
    · exact h.known c (Multiset.mem_cons_of_mem hc)
  sound b hb := by
    rcases List.mem_append.mp hb with hb | hb
    · exact h.sound b hb
    · exact ⟨a, h.known a (Multiset.mem_cons_self a todo), hb⟩
  complete c hc := by
    rcases h.complete c hc with ⟨x, hx, reach⟩ | done
    · rcases Multiset.mem_cons.mp hx with rfl | hx
      · rcases reach.cases_head with rfl | ⟨y, hy, reach⟩
        · exact Or.inr fun b hb => List.mem_append_right _ hb
        · exact Or.inl ⟨y, Multiset.mem_add.mpr (Or.inl (Multiset.mem_coe.mpr hy)), reach⟩
      · exact Or.inl ⟨x, Multiset.mem_add.mpr (Or.inr hx), reach⟩
    · exact Or.inr fun b hb => List.mem_append_left _ (done b hb)
  bounded b weight falls := by
    have before := h.bounded b weight falls
    have here := falls a
    rw [Multiset.map_cons, Multiset.sum_cons] at before
    rw [List.count_append, Multiset.map_add, Multiset.sum_add, Multiset.map_coe, Multiset.sum_coe]
    omega

/-- When nothing is left to do, everything that can be reached has been emitted. -/
theorem mem_iff (h : W.Accounts start 0 out) :
    b ∈ out ↔ ∃ a, W.Reach start a ∧ b ∈ W.emits a := by
  constructor
  · exact h.sound b
  · rintro ⟨a, ha, hb⟩
    rcases h.complete a ha with ⟨c, hc, -⟩ | done
    · exact absurd hc (Multiset.notMem_zero c)
    · exact done b hb

end Accounts

/-! ## How many visits there are -/

variable {β : Type*} {W : Worklist α β} {a : α}

/-- The visits of an item and of all that it leads to, down to a depth. -/
def visits (W : Worklist α β) : ℕ → α → ℕ
  | 0, _ => 1
  | depth + 1, a => 1 + ((W.children a).map (W.visits depth)).sum

theorem visits_pos (W : Worklist α β) (depth : ℕ) (a : α) : 0 < W.visits depth a := by
  cases depth <;> simp only [visits] <;> omega

theorem visits_succ_le (W : Worklist α β) (depth : ℕ) (a : α) :
    W.visits depth a ≤ W.visits (depth + 1) a := by
  induction depth generalizing a with
  | zero => exact Nat.le_add_right 1 _
  | succ depth ih => exact Nat.add_le_add_left (List.sum_le_sum fun c _ => ih c) 1

theorem visits_mono (W : Worklist α β) (a : α) : Monotone (W.visits · a) :=
  monotone_nat_of_le_succ fun depth => W.visits_succ_le depth a

/-- A visit uses up one of the visits that are left when its children are nearer
to the bottom. -/
theorem visits_falls (rank : α → ℕ) (nearer : ∀ c ∈ W.children a, rank c < rank a) :
    1 + ((W.children a).map fun c => W.visits (rank c) c).sum ≤ W.visits (rank a) a := by
  cases bottom : rank a with
  | zero =>
    have none : W.children a = [] := by
      apply List.eq_nil_iff_forall_not_mem.mpr
      intro c hc
      have := nearer c hc
      omega
    simp [none, visits]
  | succ depth =>
    apply Nat.add_le_add_left
    apply List.sum_le_sum
    intro c hc
    have := nearer c hc
    exact W.visits_mono c (by omega)

end Worklist
