import Mathlib.Data.List.Basic

/-! Lists in which every element is justified by the elements before it. -/

def Justified {α : Type*} (P : List α → α → Prop) (l : List α) : Prop :=
  ∀ before x after, l = before ++ x :: after → P before x

namespace Justified

variable {α : Type*} {P : List α → α → Prop} {l : List α} {x : α}

theorem nil : Justified P [] := by
  intro before x after h
  simp at h

theorem snoc (h : Justified P l) (hx : P l x) : Justified P (l ++ [x]) := by
  intro before y after he
  rcases List.eq_nil_or_concat' after with rfl | ⟨after, z, rfl⟩
  · obtain ⟨hl, hy⟩ := List.append_inj' he rfl
    obtain rfl : x = y := by simpa using hy
    exact hl ▸ hx
  · rw [← List.cons_append, ← List.append_assoc] at he
    exact h before y after (List.append_inj' he rfl).1

theorem append {l' : List α} (h : Justified P l)
    (h' : Justified (fun before y => P (l ++ before) y) l') : Justified P (l ++ l') := by
  intro before y after he
  rcases List.append_eq_append_iff.mp he with ⟨mid, rfl, hl'⟩ | ⟨mid, rfl, hr⟩
  · exact h' mid y after hl'
  · cases mid with
    | nil => simpa using h' [] y after hr.symm
    | cons z mid =>
      obtain ⟨rfl, -⟩ := List.cons.inj hr
      exact h before y mid rfl

theorem mono {Q : List α → α → Prop} (h : Justified P l)
    (imp : ∀ before x, P before x → Q before x) : Justified Q l :=
  fun before x after he => imp before x (h before x after he)

end Justified
