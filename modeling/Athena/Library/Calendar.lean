import Mathlib.Algebra.Order.Group.Int
import Mathlib.Order.SuccPred.Archimedean
import Mathlib.Data.Int.SuccPred
import Mathlib.Tactic

/-!
# The proleptic Gregorian calendar

Days are counted from 1 January of year 1. Months are numbered through by a
month index, so that consecutive months tile the days and a day determines its
date.
-/

namespace Calendar

/-- The Gregorian rule, extended to all years. -/
def IsLeap (y : ℤ) : Prop := y % 4 = 0 ∧ (y % 100 ≠ 0 ∨ y % 400 = 0)

instance (y : ℤ) : Decidable (IsLeap y) := inferInstanceAs (Decidable (_ ∧ _))

def daysInMonth (y : ℤ) (m : ℕ) : ℤ :=
  if m = 2 then if IsLeap y then 29 else 28
  else if m = 4 ∨ m = 6 ∨ m = 9 ∨ m = 11 then 30
  else 31

def daysBeforeYear (y : ℤ) : ℤ := 365 * (y - 1) + (y - 1) / 4 - (y - 1) / 100 + (y - 1) / 400

/-- Days of the year before the first of the month. -/
def daysBeforeMonth (y : ℤ) : ℕ → ℤ
  | 0 => 0
  | 1 => 0
  | m + 2 => daysBeforeMonth y (m + 1) + daysInMonth y (m + 1)

def monthStart (y : ℤ) (m : ℕ) : ℤ := daysBeforeYear y + daysBeforeMonth y m

theorem daysInMonth_bounds (y : ℤ) (m : ℕ) : 28 ≤ daysInMonth y m ∧ daysInMonth y m ≤ 31 := by
  unfold daysInMonth
  split_ifs <;> omega

theorem daysBeforeYear_succ (y : ℤ) :
    daysBeforeYear (y + 1) = daysBeforeYear y + if IsLeap y then 366 else 365 := by
  unfold daysBeforeYear IsLeap
  split_ifs <;> omega

theorem monthStart_succ (y : ℤ) {m : ℕ} (hm : 1 ≤ m) :
    monthStart y (m + 1) = monthStart y m + daysInMonth y m := by
  obtain ⟨k, rfl⟩ : ∃ k, m = k + 1 := ⟨m - 1, by omega⟩
  simp only [monthStart, daysBeforeMonth]
  omega

theorem daysBeforeMonth_december (y : ℤ) :
    daysBeforeMonth y 12 = if IsLeap y then 335 else 334 := by
  have hfeb : daysInMonth y 2 = if IsLeap y then 29 else 28 := rfl
  have hrest : daysBeforeMonth y 12 = 31 + daysInMonth y 2 + 275 := by
    have h30 : ∀ m ∈ [4, 6, 9, 11], daysInMonth y m = 30 := by simp [daysInMonth]
    have h31 : ∀ m ∈ [1, 3, 5, 7, 8, 10], daysInMonth y m = 31 := by simp [daysInMonth]
    simp only [List.forall_mem_cons, List.not_mem_nil, false_imp_iff, implies_true, and_true]
      at h30 h31
    simp only [daysBeforeMonth, Nat.reduceAdd, h30, h31]
    omega
  rw [hrest, hfeb]
  split_ifs <;> rfl

theorem monthStart_january (y : ℤ) : monthStart (y + 1) 1 = monthStart y 12 + daysInMonth y 12 := by
  have hdec : daysInMonth y 12 = 31 := rfl
  have hjan : daysBeforeMonth (y + 1) 1 = 0 := rfl
  rw [monthStart, monthStart, daysBeforeYear_succ, daysBeforeMonth_december, hdec, hjan]
  split_ifs <;> omega

/-- The first day of the month with the given index, `12 * year + (month - 1)`. -/
def indexStart (k : ℤ) : ℤ := monthStart (k / 12) ((k % 12).toNat + 1)

theorem indexStart_eq (y : ℤ) {m : ℕ} (hm : 1 ≤ m ∧ m ≤ 12) :
    indexStart (12 * y + (m - 1)) = monthStart y m := by
  have hdiv : (12 * y + ((m : ℤ) - 1)) / 12 = y := by omega
  have hmod : ((12 * y + ((m : ℤ) - 1)) % 12).toNat + 1 = m := by omega
  rw [indexStart, hdiv, hmod]

theorem indexStart_succ (k : ℤ) :
    indexStart (k + 1) = indexStart k + daysInMonth (k / 12) ((k % 12).toNat + 1) := by
  by_cases hdec : k % 12 = 11
  · have hdiv : (k + 1) / 12 = k / 12 + 1 := by omega
    have hmod : ((k + 1) % 12).toNat + 1 = 1 := by omega
    have hcur : (k % 12).toNat + 1 = 12 := by omega
    rw [indexStart, indexStart, hdiv, hmod, hcur, monthStart_january]
  · have hdiv : (k + 1) / 12 = k / 12 := by omega
    have hmod : ((k + 1) % 12).toNat + 1 = (k % 12).toNat + 1 + 1 := by omega
    rw [indexStart, indexStart, hdiv, hmod, monthStart_succ _ (by omega)]

theorem indexStart_strictMono : StrictMono indexStart := by
  apply strictMono_int_of_lt_succ
  intro k
  have := daysInMonth_bounds (k / 12) ((k % 12).toNat + 1)
  rw [indexStart_succ]
  omega

theorem month_unique {j k day : ℤ} (hj : indexStart j ≤ day ∧ day < indexStart (j + 1))
    (hk : indexStart k ≤ day ∧ day < indexStart (k + 1)) : j = k := by
  have hjk : j < k + 1 := indexStart_strictMono.lt_iff_lt.mp (hj.1.trans_lt hk.2)
  have hkj : k < j + 1 := indexStart_strictMono.lt_iff_lt.mp (hk.1.trans_lt hj.2)
  omega

structure Month where
  year : ℤ
  month : ℕ
  bounds : 1 ≤ month ∧ month ≤ 12
  deriving DecidableEq, Repr

namespace Month

def index (m : Month) : ℤ := 12 * m.year + (m.month - 1)

def start (m : Month) : ℤ := monthStart m.year m.month

def stop (m : Month) : ℤ := m.start + daysInMonth m.year m.month

def next (m : Month) : Month :=
  if h : m.month = 12 then ⟨m.year + 1, 1, by decide⟩
  else ⟨m.year, m.month + 1, by have := m.bounds; omega⟩

def previous (m : Month) : Month :=
  if h : m.month = 1 then ⟨m.year - 1, 12, by decide⟩
  else ⟨m.year, m.month - 1, by have := m.bounds; omega⟩

def later (m : Month) : ℕ → Month
  | 0 => m
  | n + 1 => (m.later n).next

theorem index_injective : Function.Injective index := by
  intro a b h
  have ha := a.bounds
  have hb := b.bounds
  unfold index at h
  have hyear : a.year = b.year := by omega
  have hmonth : a.month = b.month := by omega
  cases a
  cases b
  simp_all

theorem index_next (m : Month) : m.next.index = m.index + 1 := by
  unfold next index
  split_ifs with h
  · simp only [h]
    push_cast
    ring
  · push_cast
    ring

theorem next_previous (m : Month) : m.previous.next = m := by
  apply index_injective
  have hbounds := m.bounds
  rw [index_next]
  unfold previous index
  split_ifs <;> simp only <;> omega

theorem previous_next (m : Month) : m.next.previous = m := by
  have h := congrArg index m.next.next_previous
  rw [index_next, index_next] at h
  exact index_injective (by omega)

theorem index_later (m : Month) (n : ℕ) : (m.later n).index = m.index + n := by
  induction n with
  | zero => simp [later]
  | succ n ih =>
    rw [later, index_next, ih]
    push_cast
    ring

theorem start_eq (m : Month) : m.start = indexStart m.index := (indexStart_eq m.year m.bounds).symm

theorem stop_eq (m : Month) : m.stop = indexStart (m.index + 1) := by
  have hbounds := m.bounds
  have hdiv : (12 * m.year + ((m.month : ℤ) - 1)) / 12 = m.year := by omega
  have hmod : ((12 * m.year + ((m.month : ℤ) - 1)) % 12).toNat + 1 = m.month := by omega
  rw [indexStart_succ, stop, start_eq, index, hdiv, hmod]

theorem stop_eq_start_next (m : Month) : m.stop = m.next.start := by
  rw [stop_eq, start_eq, index_next]

theorem start_lt_stop (m : Month) : m.start < m.stop := by
  rw [start_eq, stop_eq]
  exact indexStart_strictMono (lt_add_one _)

end Month

/-- The year of a day: whole cycles of 400, 100 and 4 years are taken off first. The
last year of a cycle of 400 or 4 years is a day longer. -/
def yearOf (n : ℤ) : ℤ :=
  let n100 := min (n % 146097 / 36524) 3
  let r100 := n % 146097 - 36524 * n100
  let n1 := min (r100 % 1461 / 365) 3
  400 * (n / 146097) + 100 * n100 + 4 * (r100 / 1461) + n1 + 1

/-- The first day of the year that follows some whole cycles. -/
theorem daysBeforeYear_cycles {n400 n100 n4 n1 : ℤ} (h100 : 0 ≤ n100 ∧ n100 ≤ 3)
    (h4 : 0 ≤ n4 ∧ n4 ≤ 24) (h1 : 0 ≤ n1 ∧ n1 ≤ 3) :
    daysBeforeYear (400 * n400 + 100 * n100 + 4 * n4 + n1 + 1) =
      146097 * n400 + 36524 * n100 + 1461 * n4 + 365 * n1 := by
  have hyears : 400 * n400 + 100 * n100 + 4 * n4 + n1 + 1 - 1 =
      400 * n400 + 100 * n100 + 4 * n4 + n1 := by ring
  have hfour : (400 * n400 + 100 * n100 + 4 * n4 + n1) / 4 = 100 * n400 + 25 * n100 + n4 := by
    omega
  have hcentury : (400 * n400 + 100 * n100 + 4 * n4 + n1) / 100 = 4 * n400 + n100 := by omega
  have hcycle : (400 * n400 + 100 * n100 + 4 * n4 + n1) / 400 = n400 := by omega
  rw [daysBeforeYear, hyears, hfour, hcentury, hcycle]
  ring

theorem yearOf_bounds (n : ℤ) :
    daysBeforeYear (yearOf n) ≤ n ∧ n < daysBeforeYear (yearOf n + 1) := by
  have hyear : yearOf n = 400 * (n / 146097) + 100 * min (n % 146097 / 36524) 3 +
      4 * ((n % 146097 - 36524 * min (n % 146097 / 36524) 3) / 1461) +
      min ((n % 146097 - 36524 * min (n % 146097 / 36524) 3) % 1461 / 365) 3 + 1 := rfl
  generalize hn400 : n / 146097 = n400 at hyear
  generalize hn100 : min (n % 146097 / 36524) 3 = n100 at hyear
  generalize hn4 : (n % 146097 - 36524 * n100) / 1461 = n4 at hyear
  generalize hn1 : min ((n % 146097 - 36524 * n100) % 1461 / 365) 3 = n1 at hyear
  have h100 : 0 ≤ n100 ∧ n100 ≤ 3 := by omega
  have h4 : 0 ≤ n4 ∧ n4 ≤ 24 := by omega
  have h1 : 0 ≤ n1 ∧ n1 ≤ 3 := by omega
  rw [daysBeforeYear_succ, hyear, daysBeforeYear_cycles h100 h4 h1]
  constructor
  · omega
  · unfold IsLeap
    split_ifs <;> omega

theorem daysBeforeYear_nonpos {y : ℤ} (hy : y ≤ 1) : daysBeforeYear y ≤ 0 := by
  unfold daysBeforeYear
  omega

theorem yearOf_mem {n : ℤ} (hn : 0 ≤ n ∧ n < daysBeforeYear 10000) :
    1 ≤ yearOf n ∧ yearOf n ≤ 9999 := by
  obtain ⟨hlo, hhi⟩ := yearOf_bounds n
  constructor
  · by_contra hlt
    have := @daysBeforeYear_nonpos (yearOf n + 1) (by omega)
    omega
  · by_contra hgt
    unfold daysBeforeYear at hlo hn
    omega

def monthOf (y r : ℤ) : ℕ := Nat.findGreatest (fun m => daysBeforeMonth y m ≤ r) 12

theorem monthOf_bounds {y r : ℤ} (hr : 0 ≤ r) : 1 ≤ monthOf y r ∧ monthOf y r ≤ 12 :=
  ⟨Nat.le_findGreatest (by decide) hr, Nat.findGreatest_le 12⟩

theorem monthOf_spec {y n : ℤ} (hn : daysBeforeYear y ≤ n ∧ n < daysBeforeYear (y + 1)) :
    monthStart y (monthOf y (n - daysBeforeYear y)) ≤ n ∧
      n < monthStart y (monthOf y (n - daysBeforeYear y)) +
        daysInMonth y (monthOf y (n - daysBeforeYear y)) := by
  have hr : 0 ≤ n - daysBeforeYear y := by omega
  obtain ⟨hlo, hhi⟩ := @monthOf_bounds y _ hr
  have hspec : daysBeforeMonth y (monthOf y (n - daysBeforeYear y)) ≤ n - daysBeforeYear y :=
    @Nat.findGreatest_spec 1 (fun m => daysBeforeMonth y m ≤ n - daysBeforeYear y) _ 12
      (by decide) hr
  refine ⟨by unfold monthStart; omega, ?_⟩
  by_cases hdec : monthOf y (n - daysBeforeYear y) = 12
  · have hend := monthStart_january y
    have hjan : monthStart (y + 1) 1 = daysBeforeYear (y + 1) := add_zero _
    rw [hdec, ← hend, hjan]
    exact hn.2
  · have hle : monthOf y (n - daysBeforeYear y) + 1 ≤ 12 := by omega
    have hnext : ¬ daysBeforeMonth y (monthOf y (n - daysBeforeYear y) + 1) ≤
        n - daysBeforeYear y := Nat.findGreatest_is_greatest (Nat.lt_succ_self _) hle
    rw [← monthStart_succ y hlo, monthStart]
    omega

structure Date where
  year : ℤ
  month : ℕ
  day : ℕ
  month_bounds : 1 ≤ month ∧ month ≤ 12
  day_bounds : 1 ≤ day ∧ (day : ℤ) ≤ daysInMonth year month
  deriving DecidableEq, Repr

namespace Date

/-- The number of days before the date. -/
def ordinal (d : Date) : ℤ := monthStart d.year d.month + (d.day - 1)

def monthIndex (d : Date) : ℤ := 12 * d.year + (d.month - 1)

theorem ordinal_mem_month (d : Date) :
    indexStart d.monthIndex ≤ d.ordinal ∧ d.ordinal < indexStart (d.monthIndex + 1) := by
  have hday := d.day_bounds
  have hmonth := d.month_bounds
  have hdiv : (12 * d.year + ((d.month : ℤ) - 1)) / 12 = d.year := by omega
  have hmod : ((12 * d.year + ((d.month : ℤ) - 1)) % 12).toNat + 1 = d.month := by omega
  rw [indexStart_succ, monthIndex, hdiv, hmod, indexStart_eq _ hmonth, ordinal]
  omega

theorem ordinal_injective : Function.Injective ordinal := by
  intro a b h
  have hindex : a.monthIndex = b.monthIndex :=
    month_unique (h ▸ a.ordinal_mem_month) b.ordinal_mem_month
  have ha := a.month_bounds
  have hb := b.month_bounds
  unfold monthIndex at hindex
  have hyear : a.year = b.year := by omega
  have hmonth : a.month = b.month := by omega
  have hday : a.day = b.day := by
    rw [ordinal, ordinal, hyear, hmonth] at h
    omega
  cases a
  cases b
  simp_all

/-- The date of a day. -/
def ofOrdinal (n : ℤ) : Date where
  year := yearOf n
  month := monthOf (yearOf n) (n - daysBeforeYear (yearOf n))
  day := (n - monthStart (yearOf n) (monthOf (yearOf n) (n - daysBeforeYear (yearOf n)))).toNat + 1
  month_bounds := monthOf_bounds (by have := yearOf_bounds n; omega)
  day_bounds := by
    have hday := monthOf_spec (yearOf_bounds n)
    omega

theorem ordinal_ofOrdinal (n : ℤ) : (ofOrdinal n).ordinal = n := by
  have hday := monthOf_spec (yearOf_bounds n)
  simp only [ordinal, ofOrdinal]
  omega

end Date

end Calendar
