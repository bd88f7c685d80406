import Dupa.Library.FloatRound

/-! What the classification relies on in the machine's `double` arithmetic. A
`double` is the rational it stands for; every operation rounds its exact result. -/

namespace Dupa

/-- `rnd` is the rounding of one operation. The whole part of a rounded number is not
rounded again. -/
structure Rounding where
  rnd : ℚ → ℚ
  /-- The first number that is too large for a `uint64_t`, if there is one. -/
  range : Option ℕ
  mono : Monotone rnd
  zero : rnd 0 = 0
  one : rnd 1 = 1
  idem : ∀ x, rnd (rnd x) = rnd x
  whole : ∀ x, 0 ≤ x → rnd ⌊rnd x⌋₊ = ⌊rnd x⌋₊

namespace Rounding

/-- Exact arithmetic: nothing is rounded or too large, and only conversions truncate. -/
def exact : Rounding where
  rnd := id
  range := none
  mono := monotone_id
  zero := rfl
  one := rfl
  idem := fun _ => rfl
  whole := fun _ _ => rfl

/-- 53 binary digits, as IEEE 754 has them, and 64 bits in a `uint64_t`. No weight is
large or small enough for the limits of the exponent. -/
def double : Rounding where
  rnd := FloatRound.round 53
  range := some (2 ^ 64)
  mono := FloatRound.round_mono (by decide)
  zero := by simpa using FloatRound.round_natCast (p := 53) (by decide) (Nat.zero_le _)
  one := by simpa using FloatRound.round_natCast (p := 53) (by decide) Nat.one_le_two_pow
  idem := FloatRound.round_round (by decide)
  whole := fun _ => FloatRound.round_floor (by decide)

@[simp] theorem exact_rnd (x : ℚ) : exact.rnd x = x := rfl

@[simp] theorem exact_range : exact.range = none := rfl

variable (R : Rounding)

theorem rnd_nonneg {x : ℚ} (h : 0 ≤ x) : 0 ≤ R.rnd x := R.zero ▸ R.mono h

theorem rnd_le_one {x : ℚ} (h : x ≤ 1) : R.rnd x ≤ 1 := R.one ▸ R.mono h

/-! ## Sums in a `uint64_t` -/

/-- The conversion of this `double` to a `uint64_t` is defined. -/
def InRange (x : ℚ) : Prop := -1 < x ∧ ∀ limit ∈ R.range, x < limit

instance (x : ℚ) : Decidable (R.InRange x) := inferInstanceAs (Decidable (_ ∧ _))

/-- The `double` that is computed for `sum += weight`, with a `uint64_t` sum. -/
def plus (sum : ℕ) (weight : ℚ) : ℚ := R.rnd (R.rnd sum + weight)

/-- The sum after `sum += weight`, when the conversion is defined. -/
def add (sum : ℕ) (weight : ℚ) : ℕ := ⌊R.plus sum weight⌋₊

/-- The weights can be added to the sum one after another. -/
def AddsUp : ℕ → List ℚ → Prop
  | _, [] => True
  | sum, weight :: rest => R.InRange (R.plus sum weight) ∧ AddsUp (R.add sum weight) rest

instance decidableAddsUp : (sum : ℕ) → (weights : List ℚ) → Decidable (R.AddsUp sum weights)
  | _, [] => isTrue trivial
  | sum, weight :: rest =>
    haveI := decidableAddsUp (R.add sum weight) rest
    inferInstanceAs (Decidable (_ ∧ _))

/-- A sum that a conversion to `double` does not change. -/
def Fixed (sum : ℕ) : Prop := R.rnd sum = sum

theorem fixed_zero : R.Fixed 0 := by
  rw [Fixed, Nat.cast_zero, R.zero]

variable {R} {sum : ℕ} {weight : ℚ}

theorem plus_nonneg (h : 0 ≤ weight) : 0 ≤ R.plus sum weight :=
  R.rnd_nonneg (add_nonneg (R.rnd_nonneg (Nat.cast_nonneg sum)) h)

theorem fixed_add (h : 0 ≤ weight) : R.Fixed (R.add sum weight) :=
  R.whole _ (add_nonneg (R.rnd_nonneg (Nat.cast_nonneg sum)) h)

theorem le_plus (h : 0 ≤ weight) : R.rnd sum ≤ R.plus sum weight := by
  rw [plus, ← R.idem sum]
  exact R.mono (by rw [R.idem]; linarith)

theorem Fixed.le_add (fixed : R.Fixed sum) (h : 0 ≤ weight) : sum ≤ R.add sum weight :=
  Nat.le_floor (fixed ▸ le_plus h)

theorem Fixed.add_weightless (fixed : R.Fixed sum) : R.add sum 0 = sum := by
  rw [add, plus, add_zero, R.idem, fixed, Nat.floor_natCast]

theorem plus_mono {a b : ℕ} (h : a ≤ b) (weight : ℚ) : R.plus a weight ≤ R.plus b weight := by
  apply R.mono
  have : R.rnd a ≤ R.rnd b := R.mono (by exact_mod_cast h)
  linarith

theorem add_mono {a b : ℕ} (h : a ≤ b) (weight : ℚ) : R.add a weight ≤ R.add b weight :=
  Nat.floor_mono (plus_mono h weight)

theorem InRange.of_le {x y : ℚ} (range : R.InRange y) (nonneg : 0 ≤ x) (h : x ≤ y) :
    R.InRange x :=
  ⟨by linarith, fun limit here => h.trans_lt (range.2 limit here)⟩

/-- Where nothing is too large, all weights add up. -/
theorem addsUp_of_unlimited (unlimited : R.range = none) {weights : List ℚ}
    (nonneg : ∀ weight ∈ weights, 0 ≤ weight) (sum : ℕ) : R.AddsUp sum weights := by
  induction weights generalizing sum with
  | nil => trivial
  | cons weight rest ih =>
    have here : 0 ≤ R.plus sum weight := plus_nonneg (nonneg weight List.mem_cons_self)
    refine ⟨⟨by linarith, by simp [unlimited]⟩, ?_⟩
    exact ih (fun w hw => nonneg w (List.mem_cons_of_mem weight hw)) _

theorem addsUp_append {front back : List ℚ} :
    R.AddsUp sum (front ++ back) ↔ R.AddsUp sum front ∧ R.AddsUp (front.foldl R.add sum) back := by
  induction front generalizing sum with
  | nil => simp [AddsUp]
  | cons weight rest ih => simp only [List.cons_append, AddsUp, List.foldl_cons, ih, and_assoc]

/-! ## Sums of `double`s -/

/-- What `double`s add up to, in this order. -/
def total (R : Rounding) (weights : List ℚ) : ℚ :=
  weights.foldl (fun sum weight => R.rnd (sum + weight)) 0

theorem exact_total (weights : List ℚ) : exact.total weights = weights.sum :=
  List.sum_eq_foldl.symm

theorem total_snoc (weights : List ℚ) (weight : ℚ) :
    R.total (weights ++ [weight]) = R.rnd (R.total weights + weight) := by
  simp [total]

theorem total_eq_zero {weights : List ℚ} (zero : ∀ weight ∈ weights, weight = 0) :
    R.total weights = 0 := by
  induction weights using List.reverseRecOn with
  | nil => rfl
  | append_singleton weights weight ih =>
    rw [total_snoc, ih fun w hw => zero w (List.mem_append_left _ hw), zero weight (by simp), add_zero,
      R.zero]

/-! ## Counting -/

/-- Whole numbers up to `bound` are not rounded. -/
def Counts (R : Rounding) (bound : ℕ) : Prop := ∀ n ≤ bound, R.rnd n = n

theorem exact_counts (bound : ℕ) : exact.Counts bound := fun _ _ => rfl

theorem double_counts : double.Counts (2 ^ 53) := fun _ => FloatRound.round_natCast (by decide)

theorem Counts.mono {bound count : ℕ} (counts : R.Counts bound) (h : count ≤ bound) :
    R.Counts count :=
  fun n hn => counts n (Nat.le_trans hn h)

theorem one_le_add (heavy : 1 ≤ weight) : 1 ≤ R.add sum weight := by
  apply Nat.le_floor
  rw [Nat.cast_one, plus, ← R.one]
  apply R.mono
  have := R.rnd_nonneg (Nat.cast_nonneg sum)
  linarith

theorem add_unrounded (unrounded : ∀ x, R.rnd x = x) (sum : ℕ) (h : 0 ≤ weight) :
    R.add sum weight = sum + ⌊weight⌋₊ := by
  simp only [add, plus, unrounded]
  rw [Nat.add_comm, ← Nat.floor_add_natCast h, add_comm]

/-- Unrounded weights that are below the limit together add up one by one. -/
theorem addsUp_of_unrounded (unrounded : ∀ x, R.rnd x = x) {weights : List ℚ}
    (nonneg : ∀ weight ∈ weights, 0 ≤ weight)
    (below : ∀ limit ∈ R.range, sum + weights.sum < limit) : R.AddsUp sum weights := by
  induction weights generalizing sum with
  | nil => trivial
  | cons weight rest ih =>
    have here : 0 ≤ weight := nonneg weight List.mem_cons_self
    have later : ∀ w ∈ rest, 0 ≤ w := fun w hw => nonneg w (List.mem_cons_of_mem weight hw)
    have left := List.sum_nonneg later
    simp only [List.sum_cons] at below
    constructor
    · have grown : 0 ≤ R.plus sum weight := plus_nonneg here
      refine ⟨by linarith, fun limit range => ?_⟩
      have := below limit range
      simp only [plus, unrounded]
      linarith
    · apply ih later
      intro limit range
      have := below limit range
      have := Nat.floor_le here
      rw [add_unrounded unrounded sum here]
      push_cast
      linarith

end Rounding

end Dupa
