import Athena.Core.Numerals
import Athena.Library.Positional
import Athena.Library.PrefixCode

/-!
# Object keys of the archive

`object_key_for_segment` names the object of a month. The user id is printed as
it is and ends at the next slash; year and month are padded, so that within the
years of four digits the keys of one user sort by the calendar.
-/

namespace Athena

def objectKeyForSegment (userId year month : Int) : String :=
  "ledger/user_id=" ++ strInt userId ++ "/year=" ++ zeroPad 4 year ++ "/month=" ++
    zeroPad 2 month ++ "/segment_hash.json"

theorem digitChar_strictMonoOn : StrictMonoOn Nat.digitChar (Set.Iio 10) := by
  intro m hm n hn h
  have hm : m < 10 := hm
  have hn : n < 10 := hn
  interval_cases m <;> interval_cases n <;> decide

theorem replicate_append_toDigits {width n : ℕ} (hn : n < 10 ^ (width + 1)) :
    List.replicate (width + 1 - (Nat.toDigits 10 n).length) '0' ++ Nat.toDigits 10 n =
      Positional.numeral Nat.digitChar 10 (width + 1) n := by
  induction width generalizing n with
  | zero =>
    have hlt : n < 10 := by simpa using hn
    rw [Nat.toDigits_of_lt_base hlt, Positional.numeral, Nat.mod_eq_of_lt hlt]
    rfl
  | succ width ih =>
    rw [Positional.numeral]
    rcases Nat.lt_or_ge n 10 with hlt | hge
    · rw [Nat.toDigits_of_lt_base hlt, Nat.mod_eq_of_lt hlt, Nat.div_eq_of_lt hlt,
        Positional.numeral_zero]
      rfl
    · have hdiv : n / 10 < 10 ^ (width + 1) := Nat.div_lt_of_lt_mul (by rwa [← pow_succ'])
      rw [Nat.toDigits_of_base_le (by omega) hge, List.length_append, List.length_singleton,
        Nat.add_sub_add_right, ← List.append_assoc, ih hdiv]

theorem toList_zeroPad {width n : ℕ} (hn : n < 10 ^ (width + 1)) :
    (zeroPad (width + 1) n).toList = Positional.numeral Nat.digitChar 10 (width + 1) n := by
  have hsign : ¬ (n : Int) < 0 := by omega
  rw [← replicate_append_toDigits hn]
  simp [zeroPad, hsign, Nat.toList_repr]

theorem zeroPad_lt_iff {width m n : ℕ} (hm : m < 10 ^ (width + 1)) (hn : n < 10 ^ (width + 1)) :
    (zeroPad (width + 1) m).toList < (zeroPad (width + 1) n).toList ↔ m < n := by
  rw [toList_zeroPad hm, toList_zeroPad hn]
  exact Positional.numeral_lt_iff (by omega) digitChar_strictMonoOn hm hn

theorem slash_notMem_strInt (n : Int) : ∀ c ∈ (strInt n).toList, c ≠ '/' := by
  intro c hc heq
  subst heq
  cases n with
  | ofNat m => exact absurd (repr_digits m '/' hc) (by decide)
  | negSucc m =>
    simp only [strInt, Int.repr, String.toList_append, List.mem_append] at hc
    rcases hc with hc | hc
    · exact absurd hc (by decide)
    · exact absurd (repr_digits _ '/' hc) (by decide)

section Keys

def keyTail (year month : ℕ) : List Char :=
  "/year=".toList ++ ((zeroPad 4 year).toList ++ ("/month=".toList ++
    ((zeroPad 2 month).toList ++ "/segment_hash.json".toList)))

theorem toList_objectKeyForSegment (userId : Int) (year month : ℕ) :
    (objectKeyForSegment userId year month).toList =
      "ledger/user_id=".toList ++ ((strInt userId).toList ++ keyTail year month) := by
  unfold objectKeyForSegment keyTail
  simp only [String.toList_append, List.append_assoc]

theorem head_keyTail (year month : ℕ) : ∀ c ∈ (keyTail year month).head?, ¬ c ≠ '/' := by
  intro c hc
  have hhead : (keyTail year month).head? = some '/' := rfl
  rw [hhead] at hc
  cases hc
  simp

variable {year year' month month' : ℕ}

theorem keyTail_lt_iff (hyear : year ≤ 9999) (hyear' : year' ≤ 9999) (hmonth : month ≤ 99)
    (hmonth' : month' ≤ 99) :
    keyTail year month < keyTail year' month' ↔
      year < year' ∨ year = year' ∧ month < month' := by
  have hlength : (zeroPad 4 year).toList.length = (zeroPad 4 year').toList.length := by
    rw [toList_zeroPad (by omega), toList_zeroPad (by omega)]
    simp
  have hlength' : (zeroPad 2 month).toList.length = (zeroPad 2 month').toList.length := by
    rw [toList_zeroPad (by omega), toList_zeroPad (by omega)]
    simp
  have hsame : (zeroPad 4 year).toList = (zeroPad 4 year').toList ↔ year = year' := by
    constructor
    · intro h
      exact zeroPad_inj (String.toList_injective h)
    · intro h
      rw [h]
  delta keyTail
  rw [Positional.append_left_lt_iff, Positional.append_lt_append_iff hlength,
    Positional.append_left_lt_iff, Positional.append_right_lt_iff _ hlength',
    zeroPad_lt_iff (by omega) (by omega), zeroPad_lt_iff (by omega) (by omega), hsame]

theorem keyTail_inj (hyear : year ≤ 9999) (hyear' : year' ≤ 9999) (hmonth : month ≤ 99)
    (hmonth' : month' ≤ 99) (h : keyTail year month = keyTail year' month') :
    year = year' ∧ month = month' := by
  have hnot := (keyTail_lt_iff hyear hyear' hmonth hmonth').not.mp h.not_lt
  have hnot' := (keyTail_lt_iff hyear' hyear hmonth' hmonth).not.mp h.not_gt
  omega

end Keys

/-- A key names one user and one month, and the keys of a user sort by the calendar. -/
theorem object_keys_sort_by_calendar (userId userId' year year' month month' : Int)
    (hyear : 0 ≤ year ∧ year ≤ 9999) (hyear' : 0 ≤ year' ∧ year' ≤ 9999)
    (hmonth : 1 ≤ month ∧ month ≤ 12) (hmonth' : 1 ≤ month' ∧ month' ≤ 12) :
    (objectKeyForSegment userId year month = objectKeyForSegment userId' year' month' →
      userId = userId' ∧ year = year' ∧ month = month') ∧
    (objectKeyForSegment userId year month < objectKeyForSegment userId year' month' ↔
      year < year' ∨ year = year' ∧ month < month') := by
  obtain ⟨y, rfl⟩ := Int.eq_ofNat_of_zero_le hyear.1
  obtain ⟨y', rfl⟩ := Int.eq_ofNat_of_zero_le hyear'.1
  obtain ⟨m, rfl⟩ := Int.eq_ofNat_of_zero_le (show 0 ≤ month by omega)
  obtain ⟨m', rfl⟩ := Int.eq_ofNat_of_zero_le (show 0 ≤ month' by omega)
  constructor
  · intro h
    have htext := congrArg String.toList h
    rw [toList_objectKeyForSegment, toList_objectKeyForSegment, List.append_cancel_left_eq] at htext
    -- the user id is the run of characters before the next slash
    obtain ⟨huser, htail⟩ := PrefixCode.run_append_inj (slash_notMem_strInt userId)
      (slash_notMem_strInt userId') (head_keyTail y m) (head_keyTail y' m') htext
    obtain ⟨hy, hm⟩ := keyTail_inj (by omega) (by omega) (by omega) (by omega) htail
    exact ⟨strInt_injective (String.toList_injective huser), by rw [hy], by rw [hm]⟩
  · rw [String.lt_iff_toList_lt, toList_objectKeyForSegment, toList_objectKeyForSegment,
      Positional.append_left_lt_iff, Positional.append_left_lt_iff,
      keyTail_lt_iff (by omega) (by omega) (by omega) (by omega)]
    omega

/-- The turn of a year, for a user whose id has more digits than another's. -/
theorem object_keys_sort_at_new_year :
    (objectKeyForSegment 12 999 12 = objectKeyForSegment (-1) 1000 1 →
      (12 : Int) = -1 ∧ (999 : Int) = 1000 ∧ (12 : Int) = 1) ∧
    (objectKeyForSegment 12 999 12 < objectKeyForSegment 12 1000 1 ↔
      (999 : Int) < 1000 ∨ (999 : Int) = 1000 ∧ (12 : Int) < 1) :=
  object_keys_sort_by_calendar 12 (-1) 999 1000 12 1 (by omega) (by omega) (by omega) (by omega)

end Athena
