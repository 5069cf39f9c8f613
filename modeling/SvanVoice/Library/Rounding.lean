import Mathlib.Data.Rat.Floor
import Mathlib.Algebra.Order.Round
import Mathlib.Tactic.Linarith

/-!
# Rounding half to even

`roundHalfEven x` is the integer nearest to the rational `x`, the even one of the two when `x` is
halfway. `roundTo d x` rounds to `d` decimals. What is used of them: where they are zero, that they
stay within bounds that are rounded themselves, and that `roundHalfEven` keeps order and sign.
-/

set_option autoImplicit false

namespace Rounding

/-- The nearest integer, ties to even. -/
def roundHalfEven (x : ℚ) : ℤ :=
  let below := ⌊x⌋
  let rest := x - below
  if rest < 1 / 2 then below
  else if 1 / 2 < rest then below + 1
  else if below % 2 = 0 then below
  else below + 1

/-- Rounding to `d` decimals. -/
def roundTo (d : ℕ) (x : ℚ) : ℚ := roundHalfEven (x * 10 ^ d) / 10 ^ d

/-- A rational rounds to zero exactly from `-1/2` to `1/2`, the two ties included. -/
theorem roundHalfEven_eq_zero_iff {x : ℚ} : roundHalfEven x = 0 ↔ -(1 / 2) ≤ x ∧ x ≤ 1 / 2 := by
  have hlo := Int.floor_le x
  have hhi := Int.lt_floor_add_one x
  generalize hf : ⌊x⌋ = f at hlo hhi
  simp only [roundHalfEven, hf]
  constructor
  · intro h
    split_ifs at h with h1 h2 _
    · subst h
      push_cast at hlo hhi h1
      constructor <;> linarith
    · obtain rfl : f = -1 := by omega
      push_cast at hlo hhi h2
      constructor <;> linarith
    · subst h
      push_cast at hlo hhi h2
      constructor <;> linarith
    · obtain rfl : f = -1 := by omega
      push_cast at hlo hhi h1
      constructor <;> linarith
  · rintro ⟨hl, hr⟩
    have hf1 : -1 ≤ f := by
      by_contra hc
      have : (f : ℚ) ≤ -2 := by exact_mod_cast (by omega : f ≤ -2)
      linarith
    have hf2 : f ≤ 0 := by
      by_contra hc
      have : (1 : ℚ) ≤ f := by exact_mod_cast (by omega : 1 ≤ f)
      linarith
    obtain rfl | rfl : f = -1 ∨ f = 0 := by omega
    -- below zero the rest is at least a half, and the tie goes up to the even `0`;
    -- from zero on the rest is at most a half, and the tie goes down to it
    · push_cast at hlo hhi ⊢
      rw [if_neg (by linarith)]
      exact ite_self _
    · push_cast at hlo hhi ⊢
      rw [if_neg (by linarith : ¬ 1 / 2 < x - 0)]
      exact ite_self _

theorem roundTo_eq_zero_iff {d : ℕ} {x : ℚ} :
    roundTo d x = 0 ↔ |x * 10 ^ d| ≤ 1 / 2 := by
  have hpow : (10 : ℚ) ^ d ≠ 0 := pow_ne_zero d (by norm_num)
  rw [roundTo, div_eq_zero_iff, or_iff_left hpow, Int.cast_eq_zero, roundHalfEven_eq_zero_iff,
    abs_le]

/-! ## Bounds -/

/-- Rounding goes up only past a half, so it stops at an integer above. -/
theorem roundHalfEven_le {x : ℚ} {n : ℤ} (h : x ≤ n) : roundHalfEven x ≤ n := by
  have hfloor : ⌊x⌋ ≤ n := Int.floor_le_iff.mpr (h.trans_lt (lt_add_one _))
  by_cases hrest : x - ⌊x⌋ < 1 / 2
  · rw [roundHalfEven, if_pos hrest]
    exact hfloor
  · -- the rest is not zero, so the integer above lies beyond the floor
    have hlt : ⌊x⌋ < n := by
      have hbelow : (⌊x⌋ : ℚ) < n := by linarith
      exact_mod_cast hbelow
    rw [roundHalfEven, if_neg hrest]
    split_ifs
    · exact hlt
    · exact hfloor
    · exact hlt

/-- Rounding does not go below the floor, so it stops at an integer below. -/
theorem le_roundHalfEven {x : ℚ} {n : ℤ} (h : n ≤ x) : n ≤ roundHalfEven x := by
  have hfloor : n ≤ ⌊x⌋ := Int.le_floor.mpr h
  unfold roundHalfEven
  dsimp only
  split_ifs <;> omega

/-- Rounding to `d` decimals stays within a bound of `d` decimals. -/
theorem abs_roundTo_le {d : ℕ} {x : ℚ} {n : ℤ} (h : |x| ≤ n / 10 ^ d) :
    |roundTo d x| ≤ n / 10 ^ d := by
  have hpow : (0 : ℚ) < 10 ^ d := by positivity
  obtain ⟨hlo, hhi⟩ := abs_le.mp h
  rw [← neg_div, div_le_iff₀ hpow] at hlo
  rw [le_div_iff₀ hpow] at hhi
  rw [roundTo, abs_le, ← neg_div]
  constructor
  · refine div_le_div_of_nonneg_right ?_ hpow.le
    exact_mod_cast le_roundHalfEven (n := -n) (by exact_mod_cast hlo)
  · refine div_le_div_of_nonneg_right ?_ hpow.le
    exact_mod_cast roundHalfEven_le hhi

/-! ## Error, order and sign -/

/-- Rounding moves by a half at most. -/
theorem abs_roundHalfEven_sub_le (x : ℚ) : |(roundHalfEven x : ℚ) - x| ≤ 1 / 2 := by
  have hlo := Int.floor_le x
  have hhi := Int.lt_floor_add_one x
  rw [abs_le]
  unfold roundHalfEven
  dsimp only
  split_ifs <;> push_cast <;> constructor <;> linarith

/-- Rounding keeps the order: a step the wrong way would take two halves. -/
theorem roundHalfEven_mono {x y : ℚ} (h : x ≤ y) : roundHalfEven x ≤ roundHalfEven y := by
  by_contra hlt
  have hx := abs_le.mp (abs_roundHalfEven_sub_le x)
  have hy := abs_le.mp (abs_roundHalfEven_sub_le y)
  have hstep : (roundHalfEven y : ℚ) + 1 ≤ roundHalfEven x := by exact_mod_cast not_le.mp hlt
  obtain rfl : x = y := by linarith
  exact hlt le_rfl

@[simp] theorem roundHalfEven_zero : roundHalfEven 0 = 0 := by decide +kernel

/-- Ties go to the same even side on both sides of zero. -/
theorem roundHalfEven_neg (x : ℚ) : roundHalfEven (-x) = -roundHalfEven x := by
  have hlo := Int.floor_le x
  have hhi := Int.lt_floor_add_one x
  rcases hlo.eq_or_lt with hint | hfrac
  · -- an integer: no rest on either side
    rw [← hint, ← Int.cast_neg]
    simp only [roundHalfEven, Int.floor_intCast, sub_self]
    norm_num
  · -- the rest of the one is the gap of the other
    have hneg : ⌊-x⌋ = -⌊x⌋ - 1 := by
      rw [Int.floor_eq_iff]
      push_cast
      constructor <;> linarith
    generalize hf : ⌊x⌋ = f at *
    simp only [roundHalfEven, hneg, hf]
    push_cast
    split_ifs <;> first | omega | (exfalso; linarith)
end Rounding
