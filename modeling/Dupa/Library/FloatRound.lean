import Mathlib.Algebra.Order.Field.Power
import Mathlib.Algebra.Order.Floor.Ring
import Mathlib.Data.Int.Log
import Mathlib.Data.Rat.Floor
import Mathlib.Tactic.FieldSimp
import Mathlib.Tactic.Linarith
import Mathlib.Tactic.Positivity

/-!
# Rounding to binary digits

Rationals rounded to the nearest number of `p` binary digits, ties to even, as a
floating-point operation rounds its exact result. Exponents are unbounded, so there are
neither subnormal numbers nor infinities.
-/

namespace FloatRound

/-- The nearest integer, of two the even one. -/
def nearest (x : ℚ) : ℤ :=
  if 2 * Int.fract x < 1 then ⌊x⌋
  else if 1 < 2 * Int.fract x then ⌊x⌋ + 1
  else if ⌊x⌋ % 2 = 0 then ⌊x⌋ else ⌊x⌋ + 1

/-- The weight of the last of `p` digits. -/
def ulp (p : ℕ) (x : ℚ) : ℚ := 2 ^ (Int.log 2 x + 1 - p)

def magnitude (p : ℕ) (x : ℚ) : ℚ := nearest (x / ulp p x) * ulp p x

def round (p : ℕ) (x : ℚ) : ℚ := if 0 ≤ x then magnitude p x else -magnitude p (-x)

/-! ## The nearest integer -/

theorem floor_le_nearest (x : ℚ) : ⌊x⌋ ≤ nearest x := by
  unfold nearest
  split_ifs <;> omega

theorem nearest_le_floor (x : ℚ) : nearest x ≤ ⌊x⌋ + 1 := by
  unfold nearest
  split_ifs <;> omega

theorem nearest_intCast (n : ℤ) : nearest n = n := by
  simp [nearest]

theorem nearest_mono {x y : ℚ} (h : x ≤ y) : nearest x ≤ nearest y := by
  have floors := Int.floor_le_floor h
  rcases floors.lt_or_eq with lt | same
  · have := nearest_le_floor x
    have := floor_le_nearest y
    omega
  · have fracts : Int.fract x ≤ Int.fract y := by
      rw [Int.fract, Int.fract, same]
      linarith
    unfold nearest
    rw [same]
    split_ifs <;> first | omega | linarith

/-! ## Numbers of `p` digits -/

variable {p : ℕ} {x y : ℚ}

theorem ulp_pos : 0 < ulp p x := by
  unfold ulp
  positivity

/-- A whole number of at most `p` digits, or `2 ^ p`, in units of a power of two. -/
def Representable (p : ℕ) (x : ℚ) : Prop := ∃ (k : ℕ) (m : ℤ), k ≤ 2 ^ p ∧ x = k * 2 ^ m

theorem zpow_le (positive : 0 < x) : (2 : ℚ) ^ Int.log 2 x ≤ x := by
  simpa using Int.zpow_log_le_self (b := 2) (by norm_num) positive

theorem lt_zpow : x < (2 : ℚ) ^ (Int.log 2 x + 1) := by
  simpa using Int.lt_zpow_succ_log_self (b := 2) (by norm_num) x

/-- In units of its last digit a number is below `2 ^ p`, and not below half of it. -/
theorem scaled (digits : 1 ≤ p) (positive : 0 < x) :
    (2 ^ (p - 1) : ℤ) ≤ x / ulp p x ∧ x / ulp p x < (2 ^ p : ℤ) := by
  have two : (2 : ℚ) ≠ 0 := by norm_num
  constructor
  · rw [le_div_iff₀ ulp_pos]
    have unit : ((2 ^ (p - 1) : ℤ) : ℚ) * ulp p x = 2 ^ Int.log 2 x := by
      rw [ulp, Int.cast_pow, Int.cast_ofNat, ← zpow_natCast, ← zpow_add₀ two]
      congr 1
      omega
    rw [unit]
    exact zpow_le positive
  · rw [div_lt_iff₀ ulp_pos]
    have unit : ((2 ^ p : ℤ) : ℚ) * ulp p x = 2 ^ (Int.log 2 x + 1) := by
      rw [ulp, Int.cast_pow, Int.cast_ofNat, ← zpow_natCast, ← zpow_add₀ two]
      congr 1
      omega
    rw [unit]
    exact lt_zpow

theorem nearest_scaled (digits : 1 ≤ p) (positive : 0 < x) :
    2 ^ (p - 1) ≤ nearest (x / ulp p x) ∧ nearest (x / ulp p x) ≤ 2 ^ p := by
  obtain ⟨low, high⟩ := scaled digits positive
  constructor
  · rw [← nearest_intCast (2 ^ (p - 1))]
    exact nearest_mono low
  · rw [← nearest_intCast (2 ^ p)]
    exact nearest_mono high.le

theorem magnitude_zero : magnitude p 0 = 0 := by
  have zero := nearest_intCast 0
  rw [Int.cast_zero] at zero
  rw [magnitude, zero_div, zero, Int.cast_zero, zero_mul]

theorem magnitude_representable (digits : 1 ≤ p) (h : 0 ≤ x) : Representable p (magnitude p x) := by
  rcases h.eq_or_lt with rfl | positive
  · exact ⟨0, 0, Nat.zero_le _, by rw [magnitude_zero]; simp⟩
  · obtain ⟨low, high⟩ := nearest_scaled digits positive
    have whole : 0 ≤ nearest (x / ulp p x) := le_trans (by positivity) low
    obtain ⟨k, hk⟩ := Int.eq_ofNat_of_zero_le whole
    refine ⟨k, Int.log 2 x + 1 - p, by exact_mod_cast hk ▸ high, ?_⟩
    rw [magnitude, hk, Int.cast_natCast, ulp]

/-- Numbers of `p` digits are not changed. -/
theorem magnitude_of_representable (digits : 1 ≤ p) (h : Representable p x) :
    magnitude p x = x := by
  have two : (2 : ℚ) ≠ 0 := by norm_num
  obtain ⟨k, m, below, rfl⟩ := h
  rcases Nat.eq_zero_or_pos k with rfl | positive
  · rw [Nat.cast_zero, zero_mul, magnitude_zero]
  have value : (0 : ℚ) < k * 2 ^ m := by positivity
  -- `2 ^ p` is a number of one digit in units that are larger.
  obtain ⟨j, l, below', same⟩ : ∃ (j : ℕ) (l : ℤ), j < 2 ^ p ∧ (k * 2 ^ m : ℚ) = j * 2 ^ l := by
    rcases below.lt_or_eq with lt | rfl
    · exact ⟨k, m, lt, rfl⟩
    · refine ⟨1, p + m, Nat.one_lt_two_pow (by omega), ?_⟩
      rw [zpow_add₀ two]
      simp
  have unit : Int.log 2 ((k : ℚ) * 2 ^ m) + 1 - p ≤ l := by
    have small : ((k : ℚ) * 2 ^ m) < 2 ^ (p + l) := by
      rw [same, zpow_add₀ two, zpow_natCast]
      exact mul_lt_mul_of_pos_right (by exact_mod_cast below') (by positivity)
    have := (Int.lt_zpow_iff_log_lt (b := 2) (by norm_num) value).mp (by simpa using small)
    omega
  have units : (k * 2 ^ m : ℚ) / ulp p (k * 2 ^ m) =
      ((j * 2 ^ (l - (Int.log 2 ((k : ℚ) * 2 ^ m) + 1 - p)).toNat : ℕ) : ℤ) := by
    rw [div_eq_iff ulp_pos.ne', Int.cast_natCast, Nat.cast_mul, Nat.cast_pow, Nat.cast_ofNat,
      ← zpow_natCast, ulp, mul_assoc, ← zpow_add₀ two, Int.toNat_of_nonneg (by omega), same]
    congr 2
    omega
  rw [magnitude, units, nearest_intCast, ← units, div_mul_cancel₀ _ ulp_pos.ne']

theorem magnitude_mono (digits : 1 ≤ p) (h : 0 ≤ x) (le : x ≤ y) :
    magnitude p x ≤ magnitude p y := by
  have two : (2 : ℚ) ≠ 0 := by norm_num
  rcases h.eq_or_lt with rfl | positive
  · obtain ⟨k, m, -, value⟩ := magnitude_representable digits (h.trans le)
    rw [magnitude_zero, value]
    positivity
  have positive' := positive.trans_le le
  rcases (Int.log_mono_right (b := 2) positive le).lt_or_eq with lt | same
  · -- A power of two lies between the two.
    have upper : magnitude p x ≤ 2 ^ (Int.log 2 x + 1) := by
      have bound : (nearest (x / ulp p x) : ℚ) ≤ 2 ^ p := by
        exact_mod_cast (nearest_scaled digits positive).2
      have unit : (2 : ℚ) ^ p * ulp p x = 2 ^ (Int.log 2 x + 1) := by
        rw [ulp, ← zpow_natCast, ← zpow_add₀ two]
        congr 1
        omega
      rw [← unit]
      exact mul_le_mul_of_nonneg_right bound ulp_pos.le
    have lower : 2 ^ Int.log 2 y ≤ magnitude p y := by
      have bound : (2 : ℚ) ^ (p - 1) ≤ nearest (y / ulp p y) := by
        exact_mod_cast (nearest_scaled digits positive').1
      have unit : (2 : ℚ) ^ (p - 1) * ulp p y = 2 ^ Int.log 2 y := by
        rw [ulp, ← zpow_natCast, ← zpow_add₀ two]
        congr 1
        omega
      rw [← unit]
      exact mul_le_mul_of_nonneg_right bound ulp_pos.le
    exact upper.trans ((zpow_le_zpow_right₀ (by norm_num) (by omega)).trans lower)
  · have units : ulp p x = ulp p y := by rw [ulp, ulp, same]
    rw [magnitude, magnitude, units]
    have quotients : x / ulp p y ≤ y / ulp p y := div_le_div_of_nonneg_right le ulp_pos.le
    exact mul_le_mul_of_nonneg_right (by exact_mod_cast nearest_mono quotients) ulp_pos.le

/-! ## Rounding -/

theorem round_of_nonneg (h : 0 ≤ x) : round p x = magnitude p x := if_pos h

theorem round_nonneg (digits : 1 ≤ p) (h : 0 ≤ x) : 0 ≤ round p x := by
  rw [round_of_nonneg h, ← magnitude_zero (p := p)]
  exact magnitude_mono digits (le_refl 0) h

theorem round_of_representable (digits : 1 ≤ p) (h : Representable p x) : round p x = x := by
  have nonneg : 0 ≤ x := by
    obtain ⟨k, m, -, rfl⟩ := h
    positivity
  rw [round_of_nonneg nonneg, magnitude_of_representable digits h]

theorem round_representable (digits : 1 ≤ p) (h : 0 ≤ x) : Representable p (round p x) := by
  rw [round_of_nonneg h]
  exact magnitude_representable digits h

theorem round_natCast (digits : 1 ≤ p) {n : ℕ} (h : n ≤ 2 ^ p) : round p n = n :=
  round_of_representable digits ⟨n, 0, h, by simp⟩

theorem round_mono (digits : 1 ≤ p) : Monotone (round p) := by
  intro x y le
  by_cases hx : 0 ≤ x
  · rw [round_of_nonneg hx, round_of_nonneg (hx.trans le)]
    exact magnitude_mono digits hx le
  by_cases hy : 0 ≤ y
  · have negative : round p x ≤ 0 := by
      have := round_nonneg digits (by linarith : 0 ≤ -x)
      rw [round_of_nonneg (by linarith)] at this
      rw [round, if_neg hx]
      linarith
    exact negative.trans (round_nonneg digits hy)
  · rw [round, round, if_neg hx, if_neg hy]
    have := magnitude_mono digits (by linarith : 0 ≤ -y) (by linarith : -y ≤ -x)
    linarith

theorem round_neg (h : 0 ≤ x) : round p (-x) = -round p x := by
  rcases h.eq_or_lt with rfl | positive
  · rw [neg_zero, round_of_nonneg (le_refl 0), magnitude_zero, neg_zero]
  · rw [round, if_neg (by linarith), neg_neg, round_of_nonneg h]

theorem round_round (digits : 1 ≤ p) (x : ℚ) : round p (round p x) = round p x := by
  rcases le_total 0 x with h | h
  · exact round_of_representable digits (round_representable digits h)
  · have positive : 0 ≤ -x := by linarith
    rw [← neg_neg x, round_neg positive, round_neg (round_nonneg digits positive),
      round_of_representable digits (round_representable digits positive)]

/-- The whole part of a number of `p` digits has no more digits. -/
theorem round_floor (digits : 1 ≤ p) (h : 0 ≤ x) : round p ⌊round p x⌋₊ = ⌊round p x⌋₊ := by
  obtain ⟨k, m, below, value⟩ := round_representable digits h
  rcases le_total 0 m with up | down
  · have whole : round p x = ((k * 2 ^ m.toNat : ℕ) : ℚ) := by
      rw [value, Nat.cast_mul, Nat.cast_pow, Nat.cast_ofNat, ← zpow_natCast,
        Int.toNat_of_nonneg up]
    rw [whole, Nat.floor_natCast, ← whole, round_round digits]
  · apply round_natCast digits
    apply le_trans _ below
    apply Nat.floor_le_of_le
    rw [value]
    exact mul_le_of_le_one_right (Nat.cast_nonneg k)
      (zpow_le_one_of_nonpos₀ (by norm_num) down)

end FloatRound
