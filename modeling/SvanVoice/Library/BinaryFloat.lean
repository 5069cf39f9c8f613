import SvanVoice.Library.Rounding
import Mathlib.Data.Int.Log

/-!
# Binary floating-point formats

A `BinaryFloat` is a number of significant bits and the exponent of its smallest step. `round` takes
a rational to the nearest value of the format, ties to the even significand, subnormal values
included. The format has no largest value here: overflow is the business of the type that uses it.

A value is its significand times its quantum, the step between neighbours at its magnitude. Rounding
keeps the order (`round_mono`) and the sign (`round_neg`), so it goes past `min` and `max`: a bound
may be rounded before or after it is applied.

The values from zero up are numbered in their order (`magnitude`), with the exponent in the high
part of the number and the significand in the low. The number of a rounded rational is `code`
(`magnitude_code`); these are the bits that the interchange formats store.
-/

set_option autoImplicit false

/-- A binary format: its significant bits, and the exponent of its smallest step. -/
structure BinaryFloat where
  precision : ℕ
  minExponent : ℤ
  precision_pos : 0 < precision

namespace BinaryFloat

variable (f : BinaryFloat)

/-- The exponent of the step at the magnitude of `x`. -/
def quantum (x : ℚ) : ℤ :=
  if x = 0 then f.minExponent else max f.minExponent (Int.log 2 |x| + 1 - f.precision)

/-- The number of steps nearest to `x`. -/
def significand (x : ℚ) : ℤ := Rounding.roundHalfEven (x / 2 ^ f.quantum x)

/-- The value of the format nearest to `x`. -/
def round (x : ℚ) : ℚ := f.significand x * 2 ^ f.quantum x

variable {f} {x y : ℚ}

theorem two_zpow_pos (k : ℤ) : (0 : ℚ) < 2 ^ k := zpow_pos two_pos k

/-! ## Sign -/

theorem quantum_neg (x : ℚ) : f.quantum (-x) = f.quantum x := by
  simp only [quantum, neg_eq_zero, abs_neg]

theorem significand_neg (x : ℚ) : f.significand (-x) = -f.significand x := by
  rw [significand, quantum_neg, neg_div, Rounding.roundHalfEven_neg, significand]

@[simp] theorem round_neg (x : ℚ) : f.round (-x) = -f.round x := by
  rw [round, significand_neg, quantum_neg, Int.cast_neg, neg_mul, round]

@[simp] theorem round_zero : f.round 0 = 0 := by
  rw [round, significand, zero_div, Rounding.roundHalfEven_zero, Int.cast_zero, zero_mul]

/-! ## Bounds on the grid of the quantum -/

/-- Rounding stops at a multiple of the quantum above. -/
theorem round_le {n : ℤ} (h : x ≤ n * 2 ^ f.quantum x) : f.round x ≤ n * 2 ^ f.quantum x := by
  have hsteps := Rounding.roundHalfEven_le ((div_le_iff₀ (two_zpow_pos _)).mpr h)
  exact mul_le_mul_of_nonneg_right (by exact_mod_cast hsteps) (two_zpow_pos _).le

/-- Rounding stops at a multiple of the quantum below. -/
theorem le_round {n : ℤ} (h : n * 2 ^ f.quantum x ≤ x) : n * 2 ^ f.quantum x ≤ f.round x := by
  have hsteps := Rounding.le_roundHalfEven ((le_div_iff₀ (two_zpow_pos _)).mpr h)
  exact mul_le_mul_of_nonneg_right (by exact_mod_cast hsteps) (two_zpow_pos _).le

theorem round_nonneg (h : 0 ≤ x) : 0 ≤ f.round x := by
  have hzero := le_round (f := f) (x := x) (n := 0) (by rwa [Int.cast_zero, zero_mul])
  rwa [Int.cast_zero, zero_mul] at hzero

/-- A power of two on the grid is so many steps. -/
theorem zpow_eq_steps {k q : ℤ} (h : q ≤ k) :
    (2 : ℚ) ^ k = ((2 ^ (k - q).toNat : ℤ) : ℚ) * 2 ^ q := by
  rw [Int.cast_pow, Int.cast_ofNat, ← zpow_natCast, Int.toNat_of_nonneg (Int.sub_nonneg.mpr h),
    ← zpow_add₀ two_ne_zero, Int.sub_add_cancel]

theorem round_le_zpow {k : ℤ} (hk : f.quantum x ≤ k) (h : x ≤ 2 ^ k) : f.round x ≤ 2 ^ k := by
  rw [zpow_eq_steps hk] at h ⊢
  exact round_le h

theorem zpow_le_round {k : ℤ} (hk : f.quantum x ≤ k) (h : 2 ^ k ≤ x) : 2 ^ k ≤ f.round x := by
  rw [zpow_eq_steps hk] at h ⊢
  exact le_round h

/-! ## Order -/

theorem quantum_of_pos (hx : 0 < x) :
    f.quantum x = max f.minExponent (Int.log 2 x + 1 - f.precision) := by
  rw [quantum, if_neg hx.ne', abs_of_pos hx]

theorem quantum_mono (hx : 0 < x) (h : x ≤ y) : f.quantum x ≤ f.quantum y := by
  rw [quantum_of_pos hx, quantum_of_pos (hx.trans_le h)]
  have hlog := Int.log_mono_right (b := 2) hx h
  omega

/-- Numbers above zero keep their order: with one quantum the steps do, and with two a power of two
lies between them. -/
theorem round_mono_of_pos (hx : 0 < x) (h : x ≤ y) : f.round x ≤ f.round y := by
  have hy := hx.trans_le h
  rcases (quantum_mono (f := f) hx h).eq_or_lt with heq | hlt
  · rw [round, round, significand, significand, heq]
    have hsteps := Rounding.roundHalfEven_mono
      (div_le_div_of_nonneg_right h (two_zpow_pos (f.quantum y)).le)
    exact mul_le_mul_of_nonneg_right (by exact_mod_cast hsteps) (two_zpow_pos _).le
  · have hp := f.precision_pos
    have hqx := quantum_of_pos (f := f) hx
    have hqy := quantum_of_pos (f := f) hy
    have hlog : Int.log 2 x < Int.log 2 y := by omega
    have hbelow : x < 2 ^ Int.log 2 y := by
      exact_mod_cast (Int.lt_zpow_iff_log_lt one_lt_two hx).mpr hlog
    have habove : (2 : ℚ) ^ Int.log 2 y ≤ y := by
      exact_mod_cast Int.zpow_log_le_self one_lt_two hy
    calc f.round x ≤ 2 ^ Int.log 2 y := round_le_zpow (by omega) hbelow.le
      _ ≤ f.round y := zpow_le_round (by omega) habove

/-- **Rounding keeps the order.** -/
theorem round_mono (h : x ≤ y) : f.round x ≤ f.round y := by
  rcases lt_trichotomy 0 x with hx | rfl | hx
  · exact round_mono_of_pos hx h
  · rw [round_zero]
    exact round_nonneg h
  rcases le_or_gt 0 y with hy | hy
  · have hneg := round_nonneg (f := f) (neg_nonneg.mpr hx.le)
    rw [round_neg, neg_nonneg] at hneg
    exact hneg.trans (round_nonneg hy)
  · have hmono := round_mono_of_pos (f := f) (neg_pos.mpr hy) (neg_le_neg h)
    rwa [round_neg, round_neg, neg_le_neg_iff] at hmono

theorem monotone_round : Monotone f.round := fun _ _ h => round_mono h

/-! ## The number of a value -/

/-- A number above zero is below so many steps as the significand has values. -/
theorem lt_steps (hx : 0 < x) : x < 2 ^ f.precision * 2 ^ f.quantum x := by
  have hlog : x < 2 ^ (Int.log 2 x + 1) := by
    exact_mod_cast Int.lt_zpow_succ_log_self one_lt_two x
  have hquantum := quantum_of_pos (f := f) hx
  rw [← zpow_natCast, ← zpow_add₀ two_ne_zero]
  exact hlog.trans_le (zpow_le_zpow_right₀ one_le_two (by omega))

theorem significand_nonneg (h : 0 ≤ x) : 0 ≤ f.significand x :=
  Rounding.le_roundHalfEven (by
    rw [Int.cast_zero]
    exact div_nonneg h (two_zpow_pos _).le)

/-- The significand fits, or is the power of two just past the last that does. -/
theorem significand_le (h : 0 < x) : f.significand x ≤ 2 ^ f.precision := by
  refine Rounding.roundHalfEven_le ((div_le_iff₀ (two_zpow_pos _)).mpr ?_)
  push_cast
  exact (lt_steps h).le

/-- Above the smallest step the leading bit of the significand is set. -/
theorem le_significand (hx : 0 < x) (h : f.minExponent < f.quantum x) :
    2 ^ (f.precision - 1) ≤ f.significand x := by
  have hp := f.precision_pos
  have hquantum := quantum_of_pos (f := f) hx
  refine Rounding.le_roundHalfEven ((le_div_iff₀ (two_zpow_pos _)).mpr ?_)
  push_cast
  rw [← zpow_natCast, ← zpow_add₀ two_ne_zero]
  have hexp : ((f.precision - 1 : ℕ) : ℤ) + f.quantum x = Int.log 2 x := by omega
  rw [hexp]
  exact_mod_cast Int.zpow_log_le_self one_lt_two hx

variable (f) in
/-- The `k`-th value of the format from zero up: its exponent is the high part of `k`, and below the
first exponent the leading bit is not set. -/
def magnitude (k : ℕ) : ℚ :=
  let lead := 2 ^ (f.precision - 1)
  if k < lead then k * 2 ^ f.minExponent
  else (lead + k % lead : ℕ) * 2 ^ (f.minExponent + (k / lead : ℕ) - 1)

variable (f) in
/-- The number of the value that a number from zero up rounds to. -/
def code (x : ℚ) : ℕ :=
  (f.quantum x - f.minExponent).toNat * 2 ^ (f.precision - 1) + (f.significand x).toNat

/-- The value number `rest` of an exponent, up to the first of the next. -/
theorem magnitude_add {e rest : ℕ} (h : rest ≤ 2 ^ (f.precision - 1)) :
    f.magnitude ((e + 1) * 2 ^ (f.precision - 1) + rest) =
      ((2 ^ (f.precision - 1) + rest : ℕ) : ℚ) * 2 ^ (f.minExponent + e) := by
  unfold magnitude
  have hpos : 0 < 2 ^ (f.precision - 1) := pow_pos two_pos _
  generalize 2 ^ (f.precision - 1) = lead at *
  rw [if_neg (by rw [not_lt, add_mul]; omega)]
  rcases h.eq_or_lt with rfl | hfits
  · -- the carry: the next exponent, and no low part
    have hnext : (e + 1) * rest + rest = (e + 2) * rest := by ring
    have hexp : f.minExponent + ((e + 2 : ℕ) : ℤ) - 1 = f.minExponent + e + 1 := by
      push_cast
      ring
    rw [hnext, Nat.mul_mod_left, Nat.mul_div_cancel _ hpos, hexp, zpow_add_one₀ two_ne_zero]
    push_cast
    ring
  · have hexp : f.minExponent + ((e + 1 : ℕ) : ℤ) - 1 = f.minExponent + e := by
      push_cast
      ring
    rw [Nat.mul_add_mod', Nat.mod_eq_of_lt hfits, Nat.mul_comm (e + 1), Nat.mul_add_div hpos,
      Nat.div_eq_of_lt hfits, Nat.add_zero, hexp]

/-- A number above zero by its parts: the exponent's place, and the significand, which has its
leading bit set unless the exponent is the first. -/
theorem exists_parts (hx : 0 < x) : ∃ e m : ℕ,
    f.code x = e * 2 ^ (f.precision - 1) + m ∧ f.round x = m * 2 ^ (f.minExponent + e) ∧
      m ≤ 2 * 2 ^ (f.precision - 1) ∧ (0 < e → 2 ^ (f.precision - 1) ≤ m) := by
  obtain ⟨m, hm⟩ := Int.eq_ofNat_of_zero_le (significand_nonneg (f := f) hx.le)
  obtain ⟨e, he⟩ := Int.eq_ofNat_of_zero_le
    (Int.sub_nonneg.mpr (quantum_of_pos (f := f) hx ▸ le_max_left f.minExponent _))
  have hquantum : f.quantum x = f.minExponent + e := by omega
  refine ⟨e, m, ?_, ?_, ?_, fun hpos => ?_⟩
  · rw [code, he, hm, Int.toNat_natCast, Int.toNat_natCast]
  · rw [round, hm, hquantum, Int.cast_natCast]
  · have hfits := significand_le (f := f) hx
    rw [hm] at hfits
    rw [← pow_succ', Nat.sub_add_cancel f.precision_pos]
    exact_mod_cast hfits
  · have hlead := le_significand (f := f) hx (by omega)
    rw [hm] at hlead
    exact_mod_cast hlead

/-- **The code is the number of the rounded value.** A significand that was rounded up past the last
one carries into the exponent. -/
theorem magnitude_code (h : 0 ≤ x) : f.magnitude (f.code x) = f.round x := by
  rcases h.eq_or_lt with rfl | hx
  · have hcode : f.code 0 = 0 := by
      simp only [code, quantum, if_true, sub_self, Int.toNat_zero, zero_mul, significand, zero_div,
        Rounding.roundHalfEven_zero, zero_add]
    rw [hcode, round_zero, magnitude, if_pos (by positivity), Nat.cast_zero, zero_mul]
  obtain ⟨e, m, hcode, hround, hle, hleads⟩ := exists_parts (f := f) hx
  rw [hcode, hround]
  rcases lt_or_ge m (2 ^ (f.precision - 1)) with hsub | hnormal
  · -- below the first exponent
    obtain rfl : e = 0 := by
      by_contra hne
      have hlead := hleads (Nat.pos_of_ne_zero hne)
      omega
    rw [zero_mul, zero_add, magnitude, if_pos hsub, Nat.cast_zero, add_zero]
  · obtain ⟨rest, rfl⟩ := Nat.exists_eq_add_of_le hnormal
    have hsplit : e * 2 ^ (f.precision - 1) + (2 ^ (f.precision - 1) + rest) =
        (e + 1) * 2 ^ (f.precision - 1) + rest := by ring
    rw [hsplit, magnitude_add (by omega)]

/-- The `k`-th value by its parts. -/
theorem magnitude_parts (k : ℕ) : ∃ e m : ℕ,
    f.magnitude k = m * 2 ^ (f.minExponent + e) ∧ f.magnitude (k + 1) =
      ((m + 1 : ℕ) : ℚ) * 2 ^ (f.minExponent + e) ∧ m < 2 * 2 ^ (f.precision - 1) := by
  have hpos : 0 < 2 ^ (f.precision - 1) := pow_pos two_pos _
  have hlow : ∀ k < 2 ^ (f.precision - 1), f.magnitude k = k * 2 ^ f.minExponent :=
    fun k hk => if_pos hk
  rcases lt_or_ge k (2 ^ (f.precision - 1)) with hsub | hnormal
  · refine ⟨0, k, ?_, ?_, by omega⟩
    · rw [hlow k hsub, Nat.cast_zero, add_zero]
    · rcases (Nat.succ_le_of_lt hsub).lt_or_eq with hlt | hlast
      · rw [hlow (k + 1) hlt, Nat.cast_zero, add_zero]
      · -- the last value below the first exponent is followed by the first of it
        have hfirst := magnitude_add (f := f) (e := 0) (Nat.zero_le (2 ^ (f.precision - 1)))
        rw [zero_add, one_mul, add_zero, ← hlast] at hfirst
        exact hfirst
  · obtain ⟨e, he⟩ := Nat.exists_eq_add_of_le' (Nat.div_pos hnormal hpos)
    have hrest := Nat.mod_lt k hpos
    have hk : k = (e + 1) * 2 ^ (f.precision - 1) + k % 2 ^ (f.precision - 1) := by
      rw [← he, Nat.mul_comm, Nat.div_add_mod]
    generalize k % 2 ^ (f.precision - 1) = rest at *
    refine ⟨e, 2 ^ (f.precision - 1) + rest, ?_, ?_, by omega⟩
    · rw [hk, magnitude_add hrest.le]
    · rw [hk, add_assoc, magnitude_add hrest, add_assoc]

/-- **The numbering keeps the order.** -/
theorem strictMono_magnitude : StrictMono f.magnitude := by
  refine strictMono_nat_of_lt_succ fun k => ?_
  obtain ⟨e, m, hk, hnext, -⟩ := magnitude_parts (f := f) k
  rw [hk, hnext]
  exact mul_lt_mul_of_pos_right (by exact_mod_cast Nat.lt_succ_self m) (two_zpow_pos _)

/-- **The values of the format are kept**: rounding one gives it back. -/
theorem round_magnitude (k : ℕ) : f.round (f.magnitude k) = f.magnitude k := by
  obtain ⟨e, m, hk, -, hfits⟩ := magnitude_parts (f := f) k
  rw [hk]
  rcases Nat.eq_zero_or_pos m with rfl | hm
  · rw [Nat.cast_zero, zero_mul, round_zero]
  have hmq : (0 : ℚ) < m := Nat.cast_pos.mpr hm
  have hx : (0 : ℚ) < m * 2 ^ (f.minExponent + e) := mul_pos hmq (two_zpow_pos _)
  -- the quantum is the step the value is given in
  have hquantum : f.quantum (m * 2 ^ (f.minExponent + e)) ≤ f.minExponent + e := by
    have hlt : (m : ℚ) * 2 ^ (f.minExponent + e) < 2 ^ (f.precision + (f.minExponent + e)) := by
      rw [zpow_add₀ two_ne_zero (f.precision : ℤ), zpow_natCast]
      refine mul_lt_mul_of_pos_right ?_ (two_zpow_pos _)
      rw [← pow_succ', Nat.sub_add_cancel f.precision_pos] at hfits
      exact_mod_cast hfits
    have hlog := (Int.lt_zpow_iff_log_lt (b := 2) one_lt_two hx).mp (by exact_mod_cast hlt)
    rw [quantum_of_pos hx]
    omega
  have hsteps : (m : ℚ) * 2 ^ (f.minExponent + e) = ((m * 2 ^ (f.minExponent + e -
      f.quantum (m * 2 ^ (f.minExponent + e))).toNat : ℤ) : ℚ) *
        2 ^ f.quantum (m * 2 ^ (f.minExponent + e)) := by
    rw [Int.cast_mul, Int.cast_natCast, mul_assoc, ← zpow_eq_steps hquantum]
  exact le_antisymm ((round_le hsteps.le).trans_eq hsteps.symm)
    (hsteps.trans_le (le_round hsteps.ge))

end BinaryFloat
