import Mathlib.Data.Finset.Card
import Mathlib.Data.List.Nodup
import Mathlib.Logic.Relation

/-!
# Forests given by their child lists

A child list for every point describes a forest when no point has two parents,
no list repeats a child and some height falls along every edge. `induction` goes
from the children of a point to the point. `postorder` is the traversal that visits
the children of a point, in order, before the point:

* `mem_postorder`: it visits exactly the points below its start;
* `postorder_nodup`: it visits none of them twice;
* `bounded_height`: on finitely many points a height below their number exists,
  so their number is fuel enough for `postorder`.
-/

namespace Forest

variable {α : Type*}

structure IsForest (children : α → List α) : Prop where
  unique : ∀ {p q c}, c ∈ children p → c ∈ children q → p = q
  nodup : ∀ p, (children p).Nodup
  acyclic : ∃ height : α → ℕ, ∀ p, ∀ c ∈ children p, height c < height p

/-- `Below children n m`: `m` is `n` or one of its descendants. -/
def Below (children : α → List α) : α → α → Prop :=
  Relation.ReflTransGen fun p c => c ∈ children p

/-- The children first, then the point itself; `fuel` bounds the depth. -/
def postorder (children : α → List α) : ℕ → α → List α
  | 0, _ => []
  | fuel + 1, n => (children n).flatMap (postorder children fuel) ++ [n]

variable {children : α → List α}

@[simp] theorem below_refl (n : α) : Below children n n := Relation.ReflTransGen.refl

theorem below_of_child {p c m : α} (hc : c ∈ children p) (h : Below children c m) :
    Below children p m := Relation.ReflTransGen.head hc h

theorem below_child {n p c : α} (h : Below children n p) (hc : c ∈ children p) :
    Below children n c := Relation.ReflTransGen.tail h hc

theorem below_trans {a b c : α} (h : Below children a b) (h' : Below children b c) :
    Below children a c := Relation.ReflTransGen.trans h h'

theorem below_iff {n m : α} :
    Below children n m ↔ m = n ∨ ∃ c ∈ children n, Below children c m := by
  constructor
  · intro h
    rcases Relation.ReflTransGen.cases_head h with rfl | ⟨c, hc, h⟩
    · exact Or.inl rfl
    · exact Or.inr ⟨c, hc, h⟩
  · rintro (rfl | ⟨c, hc, h⟩)
    · exact below_refl _
    · exact below_of_child hc h

theorem height_le_of_below {height : α → ℕ} (falls : ∀ p, ∀ c ∈ children p, height c < height p)
    {n m : α} (h : Below children n m) : height m ≤ height n := by
  induction h with
  | refl => exact Nat.le_refl _
  | tail _ hc ih => exact Nat.le_trans (Nat.le_of_lt (falls _ _ hc)) ih

/-- What the children of a point hand up to it holds everywhere. -/
@[elab_as_elim]
theorem IsForest.induction (forest : IsForest children) {motive : α → Prop}
    (step : ∀ n, (∀ c ∈ children n, motive c) → motive n) (n : α) : motive n := by
  obtain ⟨height, falls⟩ := forest.acyclic
  generalize hk : height n = k
  induction k using Nat.strongRecOn generalizing n with
  | ind k ih =>
    apply step
    intro c hc
    exact ih (height c) (hk ▸ falls n c hc) c rfl

theorem IsForest.not_below (forest : IsForest children) {p c : α} (hc : c ∈ children p) :
    ¬ Below children c p := by
  intro below
  obtain ⟨height, falls⟩ := forest.acyclic
  exact absurd (height_le_of_below falls below) (Nat.not_le_of_lt (falls p c hc))

/-- The points above a given point are in a line. -/
theorem IsForest.above_total (forest : IsForest children) {a b m : α}
    (ha : Below children a m) (hb : Below children b m) :
    Below children a b ∨ Below children b a := by
  have parent : Relator.RightUnique (fun c p => c ∈ children p) :=
    fun _ _ _ hp hq => forest.unique hp hq
  have up {x : α} (h : Below children x m) :
      Relation.ReflTransGen (fun c p => c ∈ children p) m x := h.swap
  rcases Relation.ReflTransGen.total_of_right_unique parent (up ha) (up hb) with h | h
  · exact Or.inr h.swap
  · exact Or.inl h.swap

/-- Nothing is below two different children of one point. -/
theorem IsForest.siblings_apart (forest : IsForest children) {n a b m : α}
    (ha : a ∈ children n) (hb : b ∈ children n) (hne : a ≠ b)
    (ham : Below children a m) : ¬ Below children b m := by
  intro hbm
  have nested {x y : α} (hx : x ∈ children n) (hy : y ∈ children n) (hne : x ≠ y) :
      ¬ Below children x y := by
    intro h
    rcases Relation.ReflTransGen.cases_tail h with rfl | ⟨p, hxp, hp⟩
    · exact hne rfl
    · rw [forest.unique hp hy] at hxp
      exact forest.not_below hx hxp
  rcases forest.above_total ham hbm with h | h
  · exact nested ha hb hne h
  · exact nested hb ha (Ne.symm hne) h

theorem mem_postorder {height : α → ℕ} (falls : ∀ p, ∀ c ∈ children p, height c < height p)
    {fuel : ℕ} {n : α} (enough : height n < fuel) (m : α) :
    m ∈ postorder children fuel n ↔ Below children n m := by
  induction fuel generalizing n with
  | zero => omega
  | succ fuel ih =>
    rw [below_iff]
    simp only [postorder, List.mem_append, List.mem_flatMap, List.mem_singleton]
    constructor
    · rintro (⟨c, hc, hm⟩ | rfl)
      · have := falls n c hc
        exact Or.inr ⟨c, hc, (ih (by omega)).mp hm⟩
      · exact Or.inl rfl
    · rintro (rfl | ⟨c, hc, hm⟩)
      · exact Or.inr rfl
      · have := falls n c hc
        exact Or.inl ⟨c, hc, (ih (by omega)).mpr hm⟩

theorem postorder_nodup (forest : IsForest children) {height : α → ℕ}
    (falls : ∀ p, ∀ c ∈ children p, height c < height p)
    {fuel : ℕ} {n : α} (enough : height n < fuel) : (postorder children fuel n).Nodup := by
  induction fuel generalizing n with
  | zero => omega
  | succ fuel ih =>
    have below {c m : α} (hc : c ∈ children n) :
        m ∈ postorder children fuel c ↔ Below children c m :=
      mem_postorder falls (by have := falls n c hc; omega) m
    simp only [postorder, List.nodup_append, List.nodup_flatMap, List.mem_flatMap,
      List.mem_singleton, forall_eq, List.nodup_singleton, true_and]
    refine ⟨⟨fun c hc => ih (by have := falls n c hc; omega), ?_⟩, ?_⟩
    · apply (forest.nodup n).pairwise_of_forall_ne
      intro a ha b hb hne m hma hmb
      exact forest.siblings_apart ha hb hne ((below ha).mp hma) ((below hb).mp hmb)
    · rintro m ⟨c, hc, hm⟩ rfl
      exact forest.not_below hc ((below hc).mp hm)

/-- Counting the lower points turns any height into one below their number. -/
theorem IsForest.bounded_height (forest : IsForest children) (points : Finset α)
    (inside : ∀ p, ∀ c ∈ children p, c ∈ points) :
    ∃ height : α → ℕ, (∀ p, ∀ c ∈ children p, height c < height p) ∧
      ∀ p ∈ points, height p < points.card := by
  classical
  obtain ⟨height, falls⟩ := forest.acyclic
  refine ⟨fun p => (points.filter fun m => height m < height p).card, ?_, ?_⟩
  · intro p c hc
    apply Finset.card_lt_card
    refine Finset.ssubset_iff_of_subset ?_ |>.mpr ⟨c, ?_, ?_⟩
    · intro m hm
      obtain ⟨hm, hlt⟩ := Finset.mem_filter.mp hm
      exact Finset.mem_filter.mpr ⟨hm, Nat.lt_trans hlt (falls p c hc)⟩
    · exact Finset.mem_filter.mpr ⟨inside p c hc, falls p c hc⟩
    · simp
  · intro p hp
    apply Finset.card_lt_card
    refine Finset.ssubset_iff_of_subset (Finset.filter_subset _ _) |>.mpr ⟨p, hp, by simp⟩

end Forest
