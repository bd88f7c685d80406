import Mathlib.Data.List.Basic

/-! The longest common initial segment of two lists, and of many. -/

namespace CommonPrefix

variable {α : Type*} [DecidableEq α]

def common : List α → List α → List α
  | a :: as, b :: bs => if a = b then a :: common as bs else []
  | _, _ => []

/-- What starts the common segment is what starts both lists. -/
theorem isPrefix_common_iff {p as bs : List α} : p <+: common as bs ↔ p <+: as ∧ p <+: bs := by
  induction as generalizing p bs with
  | nil =>
    simp only [common, List.prefix_nil]
    exact ⟨fun h => ⟨h, h ▸ List.nil_prefix⟩, And.left⟩
  | cons a as ih =>
    cases bs with
    | nil =>
      simp only [common, List.prefix_nil]
      exact ⟨fun h => ⟨h ▸ List.nil_prefix, h⟩, And.right⟩
    | cons b bs =>
      cases p with
      | nil => simp
      | cons x p =>
        by_cases hab : a = b
        · subst hab
          simp only [common, ite_true, List.cons_prefix_cons, ih]
          tauto
        · simp only [common, hab, ite_false, List.cons_prefix_cons, List.prefix_nil, reduceCtorEq,
            false_iff, not_and]
          rintro ⟨rfl, -⟩ rfl
          exact absurd rfl hab

theorem isPrefix_foldl_iff {p start : List α} {lists : List (List α)} :
    p <+: lists.foldl common start ↔ p <+: start ∧ ∀ l ∈ lists, p <+: l := by
  induction lists generalizing start with
  | nil => simp
  | cons l lists ih =>
    rw [List.foldl_cons, ih, isPrefix_common_iff]
    simp [and_assoc]

end CommonPrefix
