/-
**Rounding to binary floating point numbers.**

A positive rational is rounded to the nearest number with a given number of binary digits, ties to
even. The exponent is not bounded, so that this is the rounding of a format only where numbers
neither overflow nor get subnormal.

Errors are followed through a computation with one relation: `Within l u x y` says that `y` is
between `l` and `u` times the exact value `x`, and there is a rule for each operation.

Main definitions:

* `roundEven`, `ulp`, `roundBits` — rounding to an integer, the last place, and rounding;
* `Within` — a value between two multiples of the exact one.

Main results:

* `within_roundBits` — the relative error of rounding;
* `Within.mul`, `Within.div`, `Within.trans`, `Within.mono` — how errors compose.
-/

import Mathlib.Data.Int.Log
import Mathlib.Data.Rat.Floor
import Mathlib.Tactic.Positivity

namespace BinaryRounding

/-! ### Rounding -/

/-- The nearest integer, the even one of two. -/
def roundEven (q : ℚ) : ℤ :=
  if q - ⌊q⌋ < 1 / 2 then ⌊q⌋
  else if 1 / 2 < q - ⌊q⌋ then ⌊q⌋ + 1
  else if ⌊q⌋ % 2 = 0 then ⌊q⌋ else ⌊q⌋ + 1

/-- The last place of `x`, with `p` binary digits behind the first. -/
def ulp (p : ℕ) (x : ℚ) : ℚ := 2 ^ (Int.log 2 x - p)

/-- **Rounding** to `p` binary digits behind the first. -/
def roundBits (p : ℕ) (x : ℚ) : ℚ := roundEven (x / ulp p x) * ulp p x

variable {p : ℕ} {x y : ℚ}

theorem abs_roundEven_sub_le (q : ℚ) : |(roundEven q : ℚ) - q| ≤ 1 / 2 := by
  have hlow := Int.floor_le q
  have hhigh := Int.lt_floor_add_one q
  unfold roundEven
  rw [abs_le]
  split
  · constructor <;> linarith
  · split
    · push_cast
      constructor <;> linarith
    · split
      · constructor <;> linarith
      · push_cast
        constructor <;> linarith

theorem ulp_pos (p : ℕ) (x : ℚ) : 0 < ulp p x := zpow_pos (by norm_num) _

/-- A number has at least `2 ^ p` of its last places. -/
theorem two_pow_mul_ulp_le (hx : 0 < x) : 2 ^ p * ulp p x ≤ x := by
  have hlog : (2 : ℚ) ^ Int.log 2 x ≤ x := Int.zpow_log_le_self (by norm_num) hx
  have hulp : 2 ^ p * ulp p x = (2 : ℚ) ^ Int.log 2 x := by
    rw [ulp, zpow_sub₀ (by norm_num), zpow_natCast]
    field_simp
  rw [hulp]
  exact hlog

/-- The error is half of the last place. -/
theorem abs_roundBits_sub_le (p : ℕ) (x : ℚ) : |roundBits p x - x| ≤ ulp p x / 2 := by
  have hpos := ulp_pos p x
  have hx : x = x / ulp p x * ulp p x := by field_simp
  have herr := abs_roundEven_sub_le (x / ulp p x)
  calc |roundBits p x - x| = |((roundEven (x / ulp p x) : ℚ) - x / ulp p x) * ulp p x| := by
        rw [roundBits, sub_mul, ← hx]
    _ = |(roundEven (x / ulp p x) : ℚ) - x / ulp p x| * ulp p x := by rw [abs_mul, abs_of_pos hpos]
    _ ≤ 1 / 2 * ulp p x := by gcongr
    _ = ulp p x / 2 := by ring

/-! ### Relative errors -/

/-- **`y` is between `l` times and `u` times `x`.** -/
structure Within (l u x y : ℚ) : Prop where
  lower : l * x ≤ y
  upper : y ≤ u * x

/-- **The relative error of rounding.** -/
theorem within_roundBits (p : ℕ) (hx : 0 < x) :
    Within (1 - 1 / 2 ^ (p + 1)) (1 + 1 / 2 ^ (p + 1)) x (roundBits p x) := by
  have herr := abs_le.1 (abs_roundBits_sub_le p x)
  have hulp : ulp p x / 2 ≤ 1 / 2 ^ (p + 1) * x := by
    have h := two_pow_mul_ulp_le (p := p) hx
    rw [pow_succ]
    field_simp
    linarith
  constructor
  · linarith [herr.1]
  · linarith [herr.2]

section Rules

variable {l u l' u' x' y' z : ℚ}

theorem Within.refl (x : ℚ) : Within 1 1 x x := ⟨by rw [one_mul], by rw [one_mul]⟩

theorem Within.pos (h : Within l u x y) (hl : 0 < l) (hx : 0 < x) :
    0 < y := lt_of_lt_of_le (mul_pos hl hx) h.lower

/-- Wider bounds. -/
theorem Within.mono (h : Within l u x y) (hl : l' ≤ l) (hu : u ≤ u') (hx : 0 ≤ x) :
    Within l' u' x y :=
  ⟨le_trans (mul_le_mul_of_nonneg_right hl hx) h.lower,
    le_trans h.upper (mul_le_mul_of_nonneg_right hu hx)⟩

/-- The error of an error. -/
theorem Within.trans (h : Within l u x y) (h' : Within l' u' y z) (hl' : 0 ≤ l') (hu' : 0 ≤ u') :
    Within (l' * l) (u' * u) x z := by
  constructor
  · calc l' * l * x = l' * (l * x) := by ring
      _ ≤ l' * y := by gcongr; exact h.lower
      _ ≤ z := h'.lower
  · calc z ≤ u' * y := h'.upper
      _ ≤ u' * (u * x) := by gcongr; exact h.upper
      _ = u' * u * x := by ring

theorem Within.mul (h : Within l u x y) (h' : Within l' u' x' y') (hl : 0 ≤ l) (hl' : 0 ≤ l')
    (hu : 0 ≤ u)
    (hx : 0 ≤ x) (hx' : 0 ≤ x') : Within (l * l') (u * u') (x * x') (y * y') := by
  have hy : 0 ≤ y := le_trans (mul_nonneg hl hx) h.lower
  have hy' : 0 ≤ y' := le_trans (mul_nonneg hl' hx') h'.lower
  constructor
  · calc l * l' * (x * x') = l * x * (l' * x') := by ring
      _ ≤ y * y' := mul_le_mul h.lower h'.lower (mul_nonneg hl' hx') hy
  · calc y * y' ≤ u * x * (u' * x') := mul_le_mul h.upper h'.upper hy' (mul_nonneg hu hx)
      _ = u * u' * (x * x') := by ring

theorem Within.inv (h : Within l u x y) (hl : 0 < l) (hx : 0 < x) : Within u⁻¹ l⁻¹ x⁻¹ y⁻¹ := by
  have hy := h.pos hl hx
  constructor
  · rw [← mul_inv]
    exact inv_anti₀ hy h.upper
  · rw [← mul_inv]
    exact inv_anti₀ (mul_pos hl hx) h.lower

theorem Within.div (h : Within l u x y) (h' : Within l' u' x' y') (hl : 0 ≤ l) (hu : 0 ≤ u)
    (hl' : 0 < l')
    (hu' : 0 < u') (hx : 0 ≤ x) (hx' : 0 < x') : Within (l / u') (u / l') (x / x') (y / y') := by
  simp only [div_eq_mul_inv]
  exact h.mul (h'.inv hl' hx') hl (inv_nonneg.2 hu'.le) hu hx (inv_nonneg.2 hx'.le)

end Rules

end BinaryRounding
