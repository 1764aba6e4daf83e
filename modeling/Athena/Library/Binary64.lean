import Mathlib.Data.Int.Log
import Mathlib.Data.Rat.Floor
import Mathlib.Tactic

/-!
# Rounding to binary64

A number is rounded to a multiple of a power of two, its unit, ties to the even
multiple. Integers up to `2 ^ 53` are their own roundings, and rounding moves a
number by at most half a unit.
-/

namespace Binary64

def roundEven (q : ℚ) : ℤ :=
  if q - ⌊q⌋ < 1 / 2 then ⌊q⌋
  else if 1 / 2 < q - ⌊q⌋ then ⌊q⌋ + 1
  else if ⌊q⌋ % 2 = 0 then ⌊q⌋
  else ⌊q⌋ + 1

theorem roundEven_intCast (n : ℤ) : roundEven n = n := by
  rw [roundEven, Int.floor_intCast, sub_self, if_pos (by norm_num)]

theorem abs_roundEven_sub_le (q : ℚ) : |roundEven q - q| ≤ 1 / 2 := by
  have hlo := Int.floor_le q
  have hhi := Int.lt_floor_add_one q
  rw [abs_le]
  unfold roundEven
  split_ifs with h1 h2 h3 <;> push_cast <;> constructor <;> linarith

/-- The exponent of the unit in the last place: 53 significant bits, down to `2 ^ -1074`. -/
def exponent (x : ℚ) : ℤ := max (Int.log 2 |x| - 52) (-1074)

/-- The binary64 number nearest to `x`, before overflow. -/
def nearest (x : ℚ) : ℚ := roundEven (x / 2 ^ exponent x) * 2 ^ exponent x

theorem nearest_of_multiple {x : ℚ} {m : ℤ} (h : x / 2 ^ exponent x = m) : nearest x = x := by
  rw [nearest, h, roundEven_intCast, ← h, div_mul_cancel₀ _ (zpow_ne_zero _ two_ne_zero)]

theorem nearest_intCast {n : ℤ} (hn : |n| ≤ 2 ^ 53) : nearest n = n := by
  by_cases hzero : n = 0
  · subst hzero
    simp [nearest, show roundEven 0 = 0 from by simpa using roundEven_intCast 0]
  have hpos : (0 : ℚ) < |(n : ℚ)| := abs_pos.mpr (by exact_mod_cast hzero)
  have hle : |(n : ℚ)| ≤ 2 ^ 53 := by exact_mod_cast hn
  by_cases hmax : |n| = 2 ^ 53
  · -- the unit is two, and the number is even
    have hexp : exponent n = 1 := by
      have habs : |(n : ℚ)| = ((2 : ℕ) : ℚ) ^ (53 : ℤ) := by
        rw [← Int.cast_abs, hmax]
        norm_num
      rw [exponent, habs, Int.log_zpow (by decide)]
      norm_num
    have heven : ∃ m : ℤ, n = m * 2 := by
      rcases abs_choice n with h | h
      · exact ⟨2 ^ 52, by rw [← h, hmax]; norm_num⟩
      · exact ⟨-2 ^ 52, by rw [← neg_neg n, ← h, hmax]; norm_num⟩
    obtain ⟨m, hm⟩ := heven
    apply nearest_of_multiple (m := m)
    rw [hexp, hm]
    push_cast
    norm_num
  · have hlt : |(n : ℚ)| < 2 ^ 53 := lt_of_le_of_ne hle (by exact_mod_cast hmax)
    have hlog : Int.log 2 |(n : ℚ)| ≤ 52 := by
      have h := (Int.lt_zpow_iff_log_lt (b := 2) (by decide) hpos (x := 53)).mp (by
        exact_mod_cast hlt)
      omega
    obtain ⟨k, hk⟩ : ∃ k : ℕ, exponent n = -(k : ℤ) :=
      ⟨(-exponent n).toNat, by unfold exponent; omega⟩
    apply nearest_of_multiple (m := n * 2 ^ k)
    rw [hk, zpow_neg, div_inv_eq_mul, zpow_natCast]
    push_cast
    rfl

theorem abs_nearest_sub_le (x : ℚ) : |nearest x - x| ≤ 1 / 2 * 2 ^ exponent x := by
  have hunit : (0 : ℚ) < 2 ^ exponent x := zpow_pos (by norm_num) _
  have hx : nearest x - x =
      (roundEven (x / 2 ^ exponent x) - x / 2 ^ exponent x) * 2 ^ exponent x := by
    rw [nearest, sub_mul, div_mul_cancel₀ _ hunit.ne']
  rw [hx, abs_mul, abs_of_pos hunit]
  exact mul_le_mul_of_nonneg_right (abs_roundEven_sub_le _) hunit.le

/-- The unit is small against the number, or the smallest there is. -/
theorem unit_le {x : ℚ} (hx : x ≠ 0) :
    (2 : ℚ) ^ exponent x ≤ |x| / 2 ^ 52 + 2 ^ (-1074 : ℤ) := by
  have hleast : (0 : ℚ) ≤ 2 ^ (-1074 : ℤ) := zpow_nonneg (by norm_num) _
  have hshare : 0 ≤ |x| / 2 ^ 52 := div_nonneg (abs_nonneg x) (by norm_num)
  rcases le_total (Int.log 2 |x| - 52) (-1074) with h | h
  · rw [exponent, max_eq_right h]
    linarith
  · have hlog := Int.zpow_log_le_self (b := 2) (by decide) (abs_pos.mpr hx)
    have hcast : ((2 : ℕ) : ℚ) ^ Int.log 2 |x| = 2 ^ Int.log 2 |x| := by norm_num
    have hdiv : (2 : ℚ) ^ (Int.log 2 |x| - 52) = 2 ^ Int.log 2 |x| / 2 ^ 52 := by
      rw [zpow_sub₀ two_ne_zero]
      norm_num
    rw [exponent, max_eq_left h, hdiv]
    have hquotient : (2 : ℚ) ^ Int.log 2 |x| / 2 ^ 52 ≤ |x| / 2 ^ 52 :=
      div_le_div_of_nonneg_right (hcast ▸ hlog) (by norm_num)
    linarith

theorem nearest_bounds {x : ℚ} (hx : 0 < x) :
    x - x / 1000 - 1 / 10 ^ 20 ≤ nearest x ∧ nearest x ≤ x + x / 1000 + 1 / 10 ^ 20 := by
  have hmove := abs_le.mp (abs_nearest_sub_le x)
  have hunit := unit_le hx.ne'
  rw [abs_of_pos hx] at hunit
  have hleast : (2 : ℚ) ^ (-1074 : ℤ) ≤ 1 / 10 ^ 20 :=
    (zpow_le_zpow_right₀ (by norm_num) (by norm_num : (-1074 : ℤ) ≤ -100)).trans (by norm_num)
  have hshare : x / 2 ^ 52 ≤ x / 1000 := div_le_div_of_nonneg_left hx.le (by norm_num) (by norm_num)
  constructor <;> linarith [hmove.1, hmove.2]

theorem abs_nearest_le (x : ℚ) : |nearest x| ≤ 2 * |x| + 1 := by
  have hmove := abs_nearest_sub_le x
  have hsize : (2 : ℚ) ^ exponent x ≤ |x| + 1 := by
    have habs := abs_nonneg x
    rcases le_total (Int.log 2 |x| - 52) (-1074) with h | h
    · rw [exponent, max_eq_right h]
      have hone : (2 : ℚ) ^ (-1074 : ℤ) ≤ 1 := zpow_le_one_of_nonpos₀ (by norm_num) (by norm_num)
      linarith
    · rw [exponent, max_eq_left h]
      by_cases hzero : x = 0
      · subst hzero
        have hone : (2 : ℚ) ^ (Int.log 2 |(0 : ℚ)| - 52) ≤ 1 :=
          zpow_le_one_of_nonpos₀ (by norm_num) (by simp)
        linarith
      · have hlog := Int.zpow_log_le_self (b := 2) (by decide) (abs_pos.mpr hzero)
        have hless : (2 : ℚ) ^ (Int.log 2 |x| - 52) ≤ 2 ^ Int.log 2 |x| :=
          zpow_le_zpow_right₀ (by norm_num) (by omega)
        have hcast : ((2 : ℕ) : ℚ) ^ Int.log 2 |x| = 2 ^ Int.log 2 |x| := by norm_num
        linarith
  have htri : |nearest x| ≤ |nearest x - x| + |x| := by
    simpa using abs_add_le (nearest x - x) x
  have habs := abs_nonneg x
  linarith

end Binary64
