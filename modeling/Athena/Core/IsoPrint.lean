import Athena.Core.Isoformat
import Athena.Core.Numerals

/-!
# Printing ISO 8601 texts

`isoformat` prints fields of fixed width with fixed marks between them. The
readers of `Core.Isoformat` take them apart again, and yield the value that was
printed.
-/

namespace Athena

section Fields

variable {k n : ℕ}

theorem toList_zeroPad_eq (k n : ℕ) : (zeroPad k n).toList =
    List.replicate (k - n.repr.toList.length) '0' ++ n.repr.toList := by
  have hsign : ¬ (n : Int) < 0 := by omega
  simp [zeroPad, hsign]

theorem zeroPad_digits (k n : ℕ) : ∀ c ∈ (zeroPad k n).toList, c.isDigit = true := by
  intro c hc
  rw [toList_zeroPad_eq] at hc
  rcases List.mem_append.mp hc with hc | hc
  · rw [List.eq_of_mem_replicate hc]
    rfl
  · exact repr_digits n c hc

theorem length_toList_zeroPad (hk : 0 < k) (hn : n < 10 ^ k) :
    (zeroPad k n).toList.length = k := by
  have hle : n.repr.toList.length ≤ k := by
    rw [Nat.toList_repr]
    exact (Nat.length_toDigits_le_iff (by omega) hk).mpr hn
  rw [toList_zeroPad_eq, List.length_append, List.length_replicate]
  omega

theorem ofDigitChars_zeroPad (k n : ℕ) : Nat.ofDigitChars 10 (zeroPad k n).toList 0 = n := by
  rw [toList_zeroPad_eq, Nat.ofDigitChars_append, Nat.ofDigitChars_replicate_zero,
    Nat.mul_zero, ofDigitChars_repr]

end Fields

namespace Isoformat

theorem takeDigits_zeroPad {k n : ℕ} (hk : 0 < k) (hn : n < 10 ^ k) (s : List Char) :
    takeDigits k ((zeroPad k n).toList ++ s) = some (n, s) := by
  have hlength := length_toList_zeroPad hk hn
  have htake : ((zeroPad k n).toList ++ s).take k = (zeroPad k n).toList :=
    List.take_left' hlength
  have hdrop : ((zeroPad k n).toList ++ s).drop k = s := List.drop_left' hlength
  have hall : (zeroPad k n).toList.all Char.isDigit = true :=
    List.all_eq_true.mpr (zeroPad_digits k n)
  rw [takeDigits, htake, hdrop, if_pos ⟨by rw [List.length_append]; omega, hall⟩,
    ofDigitChars_zeroPad]

theorem zeroPad_front {k n : ℕ} (hk : 0 < k) (hn : n < 10 ^ k) :
    ∃ c s, (zeroPad k n).toList = c :: s ∧ c.isDigit = true := by
  have hlength := length_toList_zeroPad hk hn
  cases htext : (zeroPad k n).toList with
  | nil =>
    rw [htext] at hlength
    exact absurd hlength.symm hk.ne'
  | cons c s => exact ⟨c, s, rfl, zeroPad_digits k n c (htext ▸ List.mem_cons_self)⟩

def isoDate (d : Calendar.Date) : List Char :=
  (zeroPad 4 d.year).toList ++ '-' :: ((zeroPad 2 d.month).toList ++
    '-' :: (zeroPad 2 d.day).toList)

theorem PyDate.fields (d : PyDate) : ∃ year : ℕ, d.val.year = year ∧ year < 10 ^ 4 ∧
    d.val.month < 10 ^ 2 ∧ d.val.day < 10 ^ 2 := by
  have hyear := d.property
  have hmonth := d.val.month_bounds
  have hday := d.val.day_bounds
  have hlast := (Calendar.daysInMonth_bounds d.val.year d.val.month).2
  exact ⟨d.val.year.toNat, by omega, by omega, by omega, by omega⟩

theorem calendarDate_fields (d : PyDate) {year : ℕ} (hyear : d.val.year = year) :
    calendarDate year d.val.month d.val.day = some d := by
  have hbounds := d.property
  obtain ⟨⟨y, month, day, hmonth, hday⟩, hd⟩ := d
  dsimp only at hyear
  subst hyear
  rw [calendarDate, dif_pos ⟨hmonth, hday⟩, checkYear, dif_pos hbounds]

theorem readDate_isoDate (d : PyDate) : readDate (isoDate d.val) = some d := by
  obtain ⟨year, hyear, hyearLt, hmonthLt, hdayLt⟩ := d.fields
  have hday := takeDigits_zeroPad (by omega) hdayLt []
  rw [List.append_nil] at hday
  have hmonth := takeDigits_zeroPad (by omega) hmonthLt
    ('-' :: (zeroPad 2 d.val.day).toList)
  obtain ⟨c, s, hfront, hc⟩ := zeroPad_front (by omega) hmonthLt
  have hweek : c ≠ 'W' := by
    rintro rfl
    exact absurd hc (by decide)
  rw [isoDate, hyear, readDate, takeDigits_zeroPad (by omega) hyearLt]
  rw [hfront] at hmonth ⊢
  simp only [Option.bind_eq_bind, Option.bind_some, List.head?_cons, skipDash, if_true,
    decide_true, List.cons_append]
  -- a month is no week
  split
  · rename_i heq
    exact absurd (List.cons.inj heq).1 hweek
  · rw [← List.cons_append, hmonth]
    simp only [Option.bind_some, hday, if_true, calendarDate_fields d hyear]

/-- The fraction of a second, which is left out when it is zero. -/
def isoFraction (microsecond : ℕ) : List Char :=
  if microsecond = 0 then [] else '.' :: (zeroPad 6 microsecond).toList

def isoTime (t : TimeFields) : List Char :=
  (zeroPad 2 t.hour).toList ++ ':' :: ((zeroPad 2 t.minute).toList ++
    ':' :: ((zeroPad 2 t.second).toList ++ isoFraction t.microsecond))

structure TimeFields.InRange (t : TimeFields) : Prop where
  hour : t.hour < 24
  minute : t.minute < 60
  second : t.second < 60
  microsecond : t.microsecond < 1000000

theorem readFraction_zeroPad {n : ℕ} (hn : n < 10 ^ 6) :
    readFraction (zeroPad 6 n).toList = some n := by
  have hlength := length_toList_zeroPad (by omega) hn
  have hne : (zeroPad 6 n).toList ≠ [] := by
    intro hnil
    rw [hnil] at hlength
    cases hlength
  have hall : (zeroPad 6 n).toList.all Char.isDigit = true :=
    List.all_eq_true.mpr (zeroPad_digits 6 n)
  rw [readFraction, if_pos ⟨hne, hall⟩, List.take_left' hlength, ofDigitChars_zeroPad]

theorem readTime_isoTime {t : TimeFields} (ht : t.InRange) : readTime (isoTime t) = some t := by
  have hhour := ht.hour
  have hminute := ht.minute
  have hsecond := ht.second
  have hmicro := ht.microsecond
  rw [isoTime, readTime, takeDigits_zeroPad (by omega) (by omega)]
  simp only [Option.bind_eq_bind, Option.bind_some, List.cons_ne_nil, if_false, List.head?_cons,
    decide_true, if_true, List.tail_cons]
  rw [takeDigits_zeroPad (by omega) (by omega)]
  simp only [Option.bind_some, List.cons_ne_nil, if_false, List.head?_cons, ne_eq, not_true,
    and_false, List.tail_cons]
  rw [takeDigits_zeroPad (by omega) (by omega), isoFraction]
  simp only [Option.bind_some]
  obtain ⟨hour, minute, second, microsecond⟩ := t
  dsimp only at hmicro ⊢
  split_ifs with hzero
  · rw [hzero]
    rfl
  · simp only [true_or, if_true, readFraction_zeroPad (show microsecond < 10 ^ 6 by omega)]
    rfl

theorem notMem_startsZone_zeroPad (k n : ℕ) : ∀ c ∈ (zeroPad k n).toList, startsZone c = false := by
  intro c hc
  have hdigit := zeroPad_digits k n c hc
  by_contra hzone
  simp only [startsZone, Bool.not_eq_false, Bool.or_eq_true, decide_eq_true_eq] at hzone
  rcases hzone with (rfl | rfl) | rfl <;> exact absurd hdigit (by decide)

theorem isoTime_startsZone (t : TimeFields) : ∀ c ∈ isoTime t, (!startsZone c) = true := by
  intro c hc
  have hfraction : ∀ c ∈ isoFraction t.microsecond, startsZone c = false := by
    intro c hc
    unfold isoFraction at hc
    split_ifs at hc
    · cases hc
    · rcases List.mem_cons.mp hc with rfl | hc
      · decide
      · exact notMem_startsZone_zeroPad _ _ c hc
  rw [Bool.not_eq_true']
  simp only [isoTime, List.mem_append, List.mem_cons] at hc
  rcases hc with hc | rfl | hc | rfl | hc | hc
  · exact notMem_startsZone_zeroPad _ _ c hc
  · decide
  · exact notMem_startsZone_zeroPad _ _ c hc
  · decide
  · exact notMem_startsZone_zeroPad _ _ c hc
  · exact hfraction c hc

def isoUtc (date : PyDate) (t : TimeFields) : List Char :=
  isoDate date.val ++ 'T' :: (isoTime t ++ "+00:00".toList)

theorem length_isoDate (d : PyDate) : (isoDate d.val).length = 10 := by
  obtain ⟨year, hyear, hyearLt, hmonthLt, hdayLt⟩ := d.fields
  simp only [isoDate, hyear, List.length_append, List.length_cons,
    length_toList_zeroPad (k := 4) (by omega) hyearLt,
    length_toList_zeroPad (k := 2) (by omega) hmonthLt,
    length_toList_zeroPad (k := 2) (by omega) hdayLt]

theorem separatorLocation_isoDate (d : PyDate) (s : List Char) :
    separatorLocation (isoDate d.val ++ s) = some 10 := by
  obtain ⟨year, hyear, hyearLt, hmonthLt, hdayLt⟩ := d.fields
  obtain ⟨c, rest, hfront, hc⟩ := zeroPad_front (k := 2) (by omega) hmonthLt
  have hyearLength := length_toList_zeroPad (k := 4) (by omega) hyearLt
  have hlength : (isoDate d.val ++ s).length ≠ 7 := by
    rw [List.length_append, length_isoDate]
    omega
  have hdash : (isoDate d.val ++ s)[4]? = some '-' := by
    rw [isoDate, hyear, List.append_assoc, List.getElem?_append_right (by omega), hyearLength]
    rfl
  have hweek : (isoDate d.val ++ s)[5]? ≠ some 'W' := by
    rw [isoDate, hyear, hfront, List.append_assoc, List.getElem?_append_right (by omega),
      hyearLength]
    intro heq
    cases heq
    exact absurd hc (by decide)
  rw [separatorLocation, if_neg hlength, if_pos hdash, if_neg hweek]

theorem fromisoformat_isoUtc (date : PyDate) {t : TimeFields} (ht : t.InRange) {text : String}
    (htext : text.toList = isoUtc date t) :
    fromisoformat text = build date t (some 0) := by
  have hlength := length_isoDate date
  have htake : (isoUtc date t).take 10 = isoDate date.val := List.take_left' hlength
  have hdrop : (isoUtc date t).drop (10 + 1) = isoTime t ++ "+00:00".toList := by
    rw [← List.drop_drop, isoUtc, List.drop_left' hlength]
    rfl
  have hlong : ¬ (isoUtc date t).length < 7 ∧ ¬ (isoUtc date t).length ≤ 10 := by
    rw [isoUtc, List.length_append, hlength, List.length_cons]
    omega
  have htime := isoTime_startsZone t
  have htakeTime : (isoTime t ++ "+00:00".toList).takeWhile (fun c => !startsZone c) =
      isoTime t := by
    rw [List.takeWhile_append_of_pos htime]
    simp [startsZone]
  have hdropTime : (isoTime t ++ "+00:00".toList).dropWhile (fun c => !startsZone c) =
      "+00:00".toList := by
    rw [List.dropWhile_append_of_pos htime]
    rfl
  have hzone : readZone "+00:00".toList = some (some 0) := by decide
  have hlocation : separatorLocation (isoUtc date t) = some 10 := separatorLocation_isoDate date _
  rw [fromisoformat]
  simp only [htext, if_neg hlong.1, hlocation, htake, hdrop, htakeTime, hdropTime, hzone,
    if_neg hlong.2, readDate_isoDate, readTime_isoTime ht, Option.bind_eq_bind, Option.bind_some]

end Isoformat

end Athena
