import Mathlib.Data.List.Perm.Basic
import Mathlib.Logic.Function.Basic

/-!
# Lists of keys with values

With distinct keys the order of the list does not matter to a lookup (`lookup_perm`).
Insertions that replace nothing build the lookup of the list (`foldl_insertNew`).
-/

namespace Assoc

variable {α β : Type}

section
variable [BEq α] [LawfulBEq α]

theorem mem_iff_lookup {l : List (α × β)} (distinct : (l.map Prod.fst).Nodup) {a : α} {b : β} :
    (a, b) ∈ l ↔ l.lookup a = some b := by
  induction l with
  | nil => simp
  | cons entry rest ih =>
    obtain ⟨k, v⟩ := entry
    obtain ⟨absent, distinct⟩ := List.nodup_cons.mp distinct
    have later : (a, b) ∈ rest ↔ rest.lookup a = some b := ih distinct
    rw [List.lookup_cons, List.mem_cons, later]
    by_cases same : a = k
    · subst same
      have gone : List.lookup a rest ≠ some b := fun found =>
        absent (List.mem_map.mpr ⟨_, later.mpr found, rfl⟩)
      simp [gone, eq_comm]
    · simp [same, beq_eq_false_iff_ne.mpr same]

theorem lookup_perm {l l' : List (α × β)} (distinct : (l.map Prod.fst).Nodup) (perm : l'.Perm l)
    (a : α) : l'.lookup a = l.lookup a := by
  have distinct' : (l'.map Prod.fst).Nodup := (perm.map Prod.fst).nodup_iff.mpr distinct
  apply Option.ext
  intro b
  rw [← mem_iff_lookup distinct', ← mem_iff_lookup distinct, perm.mem_iff]

end

section
variable [DecidableEq α]

/-- The entry is added unless its key is there. -/
def insertNew (m : α → Option β) (entry : α × β) : α → Option β :=
  if (m entry.1).isSome then m else Function.update m entry.1 (some entry.2)

theorem insertNew_apply (m : α → Option β) (entry : α × β) (a : α) :
    insertNew m entry a = (m a).or (if a = entry.1 then some entry.2 else none) := by
  unfold insertNew
  by_cases same : a = entry.1
  · subst same
    cases h : m entry.1 <;> simp [h]
  · split <;> simp [same]

theorem foldl_insertNew [BEq α] [LawfulBEq α] (l : List (α × β)) (m : α → Option β) :
    l.foldl insertNew m = fun a => (m a).or (l.lookup a) := by
  induction l generalizing m with
  | nil => simp
  | cons entry rest ih =>
    rw [List.foldl_cons, ih]
    funext a
    rw [insertNew_apply, List.lookup_cons, Option.or_assoc]
    by_cases same : a = entry.1
    · simp [same]
    · simp [same, beq_eq_false_iff_ne.mpr same]

end

end Assoc
