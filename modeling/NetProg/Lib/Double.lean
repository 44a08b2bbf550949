import Mathlib.Tactic

/-!
# Integers as doubles

An integer is a `double` when it is a number of 53 bits times a power of two, which below the
largest `double` is all that is asked for. `toDouble` is the conversion, to the nearest `double`
and to the even one of two. It changes exactly the integers that are not doubles
(`toDouble_eq_self_iff`), by half a unit in the last place at most (`abs_toDouble_sub_le`).
`doubleHigh` is the upper half of the eight bytes.
-/

namespace NetProg.Lib

/-- `n / d`, rounded to the nearest integer, and to the even one of two. -/
def divNearest (n d : ℤ) : ℤ :=
  if 2 * (n % d) < d ∨ 2 * (n % d) = d ∧ n / d % 2 = 0 then n / d else n / d + 1

/-- The unit in the last place of the doubles around `n`, when these are integers. -/
def ulp (n : ℤ) : ℤ :=
  2 ^ (n.natAbs.log2 - 52)

/-- The conversion of an integer to a `double`. -/
def toDouble (n : ℤ) : ℤ :=
  divNearest n (ulp n) * ulp n

/-- The integer is a `double`. -/
def IsDouble (n : ℤ) : Prop :=
  ∃ (m : ℤ) (k : ℕ), |m| < 2 ^ 53 ∧ n = m * 2 ^ k

/-- The upper 32 bits of the `double` that an integer is, as an `int` : sign, exponent, and the
highest 20 bits of the mantissa. -/
def doubleHigh (n : ℤ) : ℤ :=
  if n = 0 then 0
  else (n.natAbs.log2 + 1023) * 2 ^ 20 + (n.natAbs * 2 ^ 20 / 2 ^ n.natAbs.log2 - 2 ^ 20) -
    if n < 0 then 2 ^ 31 else 0

variable {n d : ℤ}

theorem ulp_pos (n : ℤ) : 0 < ulp n :=
  pow_pos (by decide) _

/-! ## Rounding -/

theorem divNearest_of_dvd (hd : 0 < d) (h : d ∣ n) : divNearest n d = n / d := by
  rw [divNearest, Int.emod_eq_zero_of_dvd h, if_pos (.inl (by omega))]

theorem abs_divNearest_mul_sub_le (hd : 0 < d) (n : ℤ) : 2 * |divNearest n d * d - n| ≤ d := by
  have hdiv := Int.emod_add_mul_ediv n d
  have hnonneg := Int.emod_nonneg n hd.ne'
  have hlt := Int.emod_lt_of_pos n hd
  unfold divNearest
  split_ifs with h
  · have hround : n / d * d - n = -(n % d) := by linarith
    rw [hround, abs_neg, abs_of_nonneg hnonneg]
    omega
  · have hround : (n / d + 1) * d - n = d - n % d := by linarith
    rw [hround, abs_of_nonneg (by omega)]
    omega

/-! ## Doubles -/

theorem abs_lt_two_pow_log2 (n : ℤ) : |n| < 2 ^ (n.natAbs.log2 + 1) := by
  rw [Int.abs_eq_natAbs]
  exact_mod_cast Nat.lt_log2_self

/-- A number of `53 + k` bits. -/
theorem log2_sub_le {k : ℕ} (h : |n| < 2 ^ (53 + k)) : n.natAbs.log2 - 52 ≤ k := by
  by_cases hzero : n = 0
  · simp [hzero]
  rw [Int.abs_eq_natAbs] at h
  have hlog := (Nat.log2_lt (Int.natAbs_ne_zero.2 hzero)).2 (by exact_mod_cast h)
  omega

theorem ulp_dvd_of_isDouble (h : IsDouble n) : ulp n ∣ n := by
  obtain ⟨m, k, hm, rfl⟩ := h
  refine Dvd.dvd.mul_left (pow_dvd_pow 2 (log2_sub_le ?_)) m
  rw [abs_mul, abs_of_pos (show (0 : ℤ) < 2 ^ k by positivity), pow_add]
  exact mul_lt_mul_of_pos_right hm (by positivity)

theorem isDouble_of_ulp_dvd (h : ulp n ∣ n) : IsDouble n := by
  obtain ⟨m, hm⟩ := h
  refine ⟨m, n.natAbs.log2 - 52, ?_, hm.trans (mul_comm ..)⟩
  have hlt : ulp n * |m| < 2 ^ (n.natAbs.log2 + 1) := by
    have habs := abs_lt_two_pow_log2 n
    nth_rewrite 1 [hm] at habs
    rwa [abs_mul, abs_of_pos (ulp_pos n)] at habs
  have hpow : (2 : ℤ) ^ (n.natAbs.log2 + 1) ≤ ulp n * 2 ^ 53 := by
    rw [ulp, ← pow_add]
    exact pow_le_pow_right₀ (by decide) (by omega)
  exact lt_of_mul_lt_mul_left (hlt.trans_le hpow) (ulp_pos n).le

/-- Exactly the doubles are not changed. -/
theorem toDouble_eq_self_iff : toDouble n = n ↔ IsDouble n := by
  constructor
  · intro h
    exact isDouble_of_ulp_dvd ⟨divNearest n (ulp n), h.symm.trans (mul_comm ..)⟩
  · intro h
    have hdvd := ulp_dvd_of_isDouble h
    rw [toDouble, divNearest_of_dvd (ulp_pos n) hdvd, Int.ediv_mul_cancel hdvd]

theorem isDouble_of_abs_lt (h : |n| < 2 ^ 53) : IsDouble n :=
  ⟨n, 0, h, by simp⟩

/-- A number of `53 + k` bits changes by half of `2 ^ k` at most. -/
theorem abs_toDouble_sub_le {k : ℕ} (h : |n| < 2 ^ (53 + k)) : 2 * |toDouble n - n| ≤ 2 ^ k :=
  (abs_divNearest_mul_sub_le (ulp_pos n) n).trans
    (pow_le_pow_right₀ (by decide) (log2_sub_le h))

/-- The upper half of -1 as a `double` is `0xBFF00000`. -/
example : doubleHigh (-1) = -1074790400 := by decide

end NetProg.Lib
