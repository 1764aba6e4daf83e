import Mathlib.Data.List.Lex
import Mathlib.Data.Nat.Basic
import Mathlib.Order.Monotone.Basic
import Mathlib.Tactic

/-!
# Numerals of a fixed width

In the lexicographic order the first field that differs decides, if the fields
before it have equal lengths. A number written with a fixed number of digits is
such a sequence of fields, so its numerals are ordered as the numbers are.
-/

namespace Positional

section Order

variable {α : Type*} [LinearOrder α]

theorem append_left_lt_iff (c : List α) {a b : List α} : c ++ a < c ++ b ↔ a < b := by
  induction c with
  | nil => exact Iff.rfl
  | cons x c ih => simp [ih]

/-- A difference in the first fields decides, if they have equal lengths. -/
theorem append_lt_append_iff {a b c d : List α} (h : a.length = b.length) :
    a ++ c < b ++ d ↔ a < b ∨ a = b ∧ c < d := by
  induction a generalizing b with
  | nil =>
    obtain rfl : b = [] := List.length_eq_zero_iff.mp h.symm
    simp
  | cons x a ih =>
    cases b with
    | nil => simp at h
    | cons y b =>
      have hlength : a.length = b.length := by simpa using h
      rw [List.cons_append, List.cons_append, List.cons_lt_cons_iff, List.cons_lt_cons_iff,
        ih hlength, List.cons.injEq]
      tauto

theorem append_right_lt_iff {a b : List α} (c : List α) (h : a.length = b.length) :
    a ++ c < b ++ c ↔ a < b := by
  rw [append_lt_append_iff h]
  constructor
  · intro hlt
    rcases hlt with hlt | ⟨-, hlt⟩
    · exact hlt
    · exact absurd hlt (lt_irrefl c)
  · exact Or.inl

end Order

section Numerals

variable {α : Type*}

/-- The numeral of `n` with `width` digits, the last one its remainder. -/
def numeral (digit : ℕ → α) (base : ℕ) : ℕ → ℕ → List α
  | 0, _ => []
  | width + 1, n => numeral digit base width (n / base) ++ [digit (n % base)]

variable {digit : ℕ → α} {base : ℕ}

@[simp] theorem length_numeral (width n : ℕ) : (numeral digit base width n).length = width := by
  induction width generalizing n with
  | zero => rfl
  | succ width ih => simp [numeral, ih]

theorem numeral_zero (width : ℕ) : numeral digit base width 0 = List.replicate width (digit 0) := by
  induction width with
  | zero => rfl
  | succ width ih => rw [numeral, Nat.zero_div, Nat.zero_mod, ih, List.replicate_succ']

theorem lt_iff_div_mod (base m n : ℕ) :
    m < n ↔ m / base < n / base ∨ m / base = n / base ∧ m % base < n % base := by
  have hm := Nat.div_add_mod m base
  have hn := Nat.div_add_mod n base
  constructor
  · intro h
    rcases Nat.lt_or_ge (m / base) (n / base) with hlt | hge
    · exact .inl hlt
    · have heq : m / base = n / base := le_antisymm (Nat.div_le_div_right h.le) hge
      rw [heq] at hm
      exact .inr ⟨heq, by omega⟩
  · intro h
    rcases h with hlt | ⟨heq, hlt⟩
    · exact Nat.lt_of_not_le fun hle => absurd (Nat.div_le_div_right hle) (Nat.not_le.mpr hlt)
    · rw [heq] at hm
      omega

theorem numeral_inj (hbase : 0 < base) (hdigit : Set.InjOn digit (Set.Iio base)) {width m n : ℕ}
    (hm : m < base ^ width) (hn : n < base ^ width) :
    numeral digit base width m = numeral digit base width n ↔ m = n := by
  induction width generalizing m n with
  | zero =>
    simp only [pow_zero, Nat.lt_one_iff] at hm hn
    simp [hm, hn]
  | succ width ih =>
    have hm' : m / base < base ^ width := Nat.div_lt_of_lt_mul (by rwa [← pow_succ'])
    have hn' : n / base < base ^ width := Nat.div_lt_of_lt_mul (by rwa [← pow_succ'])
    constructor
    · intro h
      obtain ⟨hfront, hlast⟩ := List.append_inj h (by simp)
      have hquot := (ih hm' hn').mp hfront
      have hrem := hdigit (Nat.mod_lt m hbase) (Nat.mod_lt n hbase) (List.head_eq_of_cons_eq hlast)
      rw [← Nat.div_add_mod m base, hquot, hrem, Nat.div_add_mod]
    · intro h
      rw [h]

theorem numeral_lt_iff [LinearOrder α] (hbase : 0 < base)
    (hdigit : StrictMonoOn digit (Set.Iio base)) {width m n : ℕ}
    (hm : m < base ^ width) (hn : n < base ^ width) :
    numeral digit base width m < numeral digit base width n ↔ m < n := by
  induction width generalizing m n with
  | zero =>
    simp only [pow_zero, Nat.lt_one_iff] at hm hn
    simp [hm, hn]
  | succ width ih =>
    have hm' : m / base < base ^ width := Nat.div_lt_of_lt_mul (by rwa [← pow_succ'])
    have hn' : n / base < base ^ width := Nat.div_lt_of_lt_mul (by rwa [← pow_succ'])
    have hlast : [digit (m % base)] < [digit (n % base)] ↔ m % base < n % base := by
      rw [List.cons_lt_cons_iff]
      simpa using hdigit.lt_iff_lt (Nat.mod_lt m hbase) (Nat.mod_lt n hbase)
    rw [numeral, numeral, append_lt_append_iff (by simp), ih hm' hn',
      numeral_inj hbase hdigit.injOn hm' hn', hlast, ← lt_iff_div_mod]

end Numerals

end Positional
