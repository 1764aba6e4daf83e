import Athena.Library.Binary64

/-!
# The decimal that stands for a binary64 number

Of the decimals that are read as the number, the one that stands for it has the
fewest digits, is the closest to it of these, and the even one of two that are
equally close.
-/

namespace Binary64

def ofDecimal (significand : ℕ) (exponent : ℤ) : ℚ := nearest (significand * 10 ^ exponent)

def digitCount (n : ℕ) : ℕ := (Nat.toDigits 10 n).length

/-- How far a decimal is from the number as which it is read. -/
def readError (significand : ℕ) (exponent : ℤ) : ℚ :=
  |significand * 10 ^ exponent - ofDecimal significand exponent|

/-- A positive binary64 number, as the decimal that stands for it. -/
structure ShortestDecimal where
  significand : ℕ
  exponent : ℤ
  trimmed : significand % 10 ≠ 0
  positive : 0 < ofDecimal significand exponent
  finite : ofDecimal significand exponent < 2 ^ 1024
  shortest : ∀ m e, ofDecimal m e = ofDecimal significand exponent →
    digitCount significand ≤ digitCount m
  closest : ∀ m e, ofDecimal m e = ofDecimal significand exponent →
    digitCount m = digitCount significand → (m, e) ≠ (significand, exponent) →
      readError significand exponent < readError m e ∨
        readError significand exponent = readError m e ∧ significand % 2 = 0

namespace ShortestDecimal

def value (x : ShortestDecimal) : ℚ := ofDecimal x.significand x.exponent

theorem significand_ne_zero (x : ShortestDecimal) : x.significand ≠ 0 := by
  intro h
  exact x.trimmed (by rw [h])

end ShortestDecimal

theorem ofDecimal_zero (e : ℤ) : ofDecimal 0 e = 0 := by
  have h := @nearest_intCast 0 (by norm_num)
  rw [ofDecimal, Nat.cast_zero, zero_mul]
  exact_mod_cast h

theorem digitCount_pos (n : ℕ) : 0 < digitCount n := Nat.length_toDigits_pos

theorem lt_ten_of_digitCount_eq_one {n : ℕ} (h : digitCount n = 1) : n < 10 := by
  have hlt := (Nat.length_toDigits_le_iff (b := 10) (n := n) (k := 1) (by decide) (by decide)).mp
    h.le
  simpa using hlt

/-- Of the decimals of one digit, no other is read as `10 ^ -7`. -/
theorem eq_of_ofDecimal_tenMillionth {m : ℕ} {e : ℤ} (hm : m < 10)
    (h : ofDecimal m e = ofDecimal 1 (-7)) : (m, e) = (1, -7) := by
  have hten : ((1 : ℕ) : ℚ) * 10 ^ (-7 : ℤ) = 1 / 10 ^ 7 := by norm_num
  obtain ⟨hlo, hhi⟩ := @nearest_bounds (1 / 10 ^ 7) (by norm_num)
  rw [ofDecimal, ofDecimal, hten] at h
  have hpos : m ≠ 0 := by
    rintro rfl
    have hzero := ofDecimal_zero e
    rw [ofDecimal] at hzero
    rw [hzero] at h
    rw [← h] at hlo
    norm_num at hlo
  have hone : (1 : ℚ) ≤ m := by exact_mod_cast Nat.one_le_iff_ne_zero.mpr hpos
  have hnine : (m : ℚ) ≤ 9 := by exact_mod_cast Nat.le_of_lt_succ hm
  have hpow : (0 : ℚ) < 10 ^ e := zpow_pos (by norm_num) e
  obtain ⟨hlo', hhi'⟩ := @nearest_bounds (m * 10 ^ e) (mul_pos (by linarith) hpow)
  rcases lt_trichotomy e (-7) with he | rfl | he
  · have hle : (10 : ℚ) ^ e ≤ 10 ^ (-8 : ℤ) := zpow_le_zpow_right₀ (by norm_num) (by omega)
    have hsmall : (m : ℚ) * 10 ^ e ≤ 9 * 10 ^ (-8 : ℤ) :=
      mul_le_mul hnine hle hpow.le (by norm_num)
    norm_num at hsmall hlo
    linarith
  · by_cases hm1 : m = 1
    · rw [hm1]
    · have htwo : (2 : ℚ) ≤ m := by exact_mod_cast (by omega : 2 ≤ m)
      norm_num at hlo' hhi
      linarith
  · have hle : (10 : ℚ) ^ (-6 : ℤ) ≤ 10 ^ e := zpow_le_zpow_right₀ (by norm_num) (by omega)
    have hbig : 1 * (10 : ℚ) ^ (-6 : ℤ) ≤ m * 10 ^ e :=
      mul_le_mul hone hle (by norm_num) (by linarith)
    norm_num at hbig hhi
    linarith

def tenMillionth : ShortestDecimal where
  significand := 1
  exponent := -7
  trimmed := by decide
  positive := by
    obtain ⟨hlo, -⟩ := @nearest_bounds (1 / 10 ^ 7) (by norm_num)
    have hten : ((1 : ℕ) : ℚ) * 10 ^ (-7 : ℤ) = 1 / 10 ^ 7 := by norm_num
    rw [ofDecimal, hten]
    norm_num at hlo ⊢
    linarith
  finite := by
    obtain ⟨-, hhi⟩ := @nearest_bounds (1 / 10 ^ 7) (by norm_num)
    have hten : ((1 : ℕ) : ℚ) * 10 ^ (-7 : ℤ) = 1 / 10 ^ 7 := by norm_num
    have hone : nearest (1 / 10 ^ 7) < 1 := hhi.trans_lt (by norm_num)
    rw [ofDecimal, hten]
    exact hone.trans (one_lt_pow₀ (by norm_num) (by norm_num))
  shortest := fun m _ _ => digitCount_pos m
  closest := fun m e h hdigits hne =>
    absurd (eq_of_ofDecimal_tenMillionth (lt_ten_of_digitCount_eq_one hdigits) h) hne

end Binary64
