import Athena.Library.Calendar

/-!
# Datetimes

A Python `datetime` is its wall-clock fields with a `tzinfo`. Arithmetic with a
`timedelta` is arithmetic on the wall clock, whatever the offset does meanwhile.
Instants are microseconds since the epoch.
-/

namespace Athena

def microsPerHour : Int := 3600000000

def hourIndex (date : Calendar.Date) (hour : ℕ) : Int := (date.ordinal - 719162) * 24 + hour

theorem hourIndex_inj {d e : Calendar.Date} {h k : Fin 24} (heq : hourIndex d h = hourIndex e k) :
    d = e ∧ h = k := by
  have hh := h.isLt
  have hk := k.isLt
  unfold hourIndex at heq
  refine ⟨Calendar.Date.ordinal_injective (by omega), Fin.ext ?_⟩
  omega

/-- A `datetime`. The offset function takes the wall clock and `fold`; a naive value has none. -/
structure Datetime where
  date : Calendar.Date
  year_bounds : 1 ≤ date.year ∧ date.year ≤ 9999
  hour : Fin 24
  minute : Fin 60
  second : Fin 60
  microsecond : Fin 1000000
  fold : Bool
  tzinfo : Option (Int → Bool → Int)

namespace Datetime

/-- The wall clock in microseconds, read as if it were UTC. -/
def wall (d : Datetime) : Int :=
  hourIndex d.date d.hour * microsPerHour + ((d.minute : Int) * 60 + d.second) * 1000000 +
    d.microsecond

def wallLimit : Int := (Calendar.monthStart 10000 1 - 719162) * 24 * microsPerHour

theorem ordinal_bounds (d : Datetime) :
    0 ≤ d.date.ordinal ∧ d.date.ordinal < Calendar.monthStart 10000 1 := by
  have hyear := d.year_bounds
  have hmonth := d.date.month_bounds
  obtain ⟨hlo, hhi⟩ := d.date.ordinal_mem_month
  have hfirst : Calendar.indexStart 12 ≤ Calendar.indexStart d.date.monthIndex :=
    Calendar.indexStart_strictMono.monotone (by unfold Calendar.Date.monthIndex; omega)
  have hlast : Calendar.indexStart (d.date.monthIndex + 1) ≤ Calendar.indexStart 120000 :=
    Calendar.indexStart_strictMono.monotone (by unfold Calendar.Date.monthIndex; omega)
  exact ⟨le_trans hfirst hlo, hhi.trans_le hlast⟩

theorem wall_bounds (d : Datetime) : -62135596800000000 ≤ d.wall ∧ d.wall < wallLimit := by
  obtain ⟨hlo, hhi⟩ := d.ordinal_bounds
  have hhour := d.hour.isLt
  have hminute := d.minute.isLt
  have hsecond := d.second.isLt
  have hmicro := d.microsecond.isLt
  unfold wall wallLimit hourIndex microsPerHour
  omega

def ofWall (w : Int) (h : -62135596800000000 ≤ w ∧ w < wallLimit)
    (tzinfo : Option (Int → Bool → Int)) : Datetime where
  date := .ofOrdinal (w / (24 * microsPerHour) + 719162)
  year_bounds := Calendar.yearOf_mem (by
    have hend : Calendar.daysBeforeYear 10000 = Calendar.monthStart 10000 1 := by decide
    unfold wallLimit microsPerHour at h
    unfold microsPerHour
    omega)
  hour := ⟨(w / microsPerHour % 24).toNat, by omega⟩
  minute := ⟨(w / 60000000 % 60).toNat, by omega⟩
  second := ⟨(w / 1000000 % 60).toNat, by omega⟩
  microsecond := ⟨(w % 1000000).toNat, by omega⟩
  fold := false
  tzinfo := tzinfo

@[simp] theorem wall_ofWall {w : Int} (h : -62135596800000000 ≤ w ∧ w < wallLimit)
    (tzinfo : Option (Int → Bool → Int)) : (ofWall w h tzinfo).wall = w := by
  simp only [wall, ofWall, hourIndex, Calendar.Date.ordinal_ofOrdinal, microsPerHour]
  omega

theorem ofWall_fullHour_iff {w : Int} (h : -62135596800000000 ≤ w ∧ w < wallLimit)
    (tzinfo : Option (Int → Bool → Int)) :
    ((ofWall w h tzinfo).minute.val = 0 ∧ (ofWall w h tzinfo).second.val = 0 ∧
      (ofWall w h tzinfo).microsecond.val = 0) ↔ w % microsPerHour = 0 := by
  simp only [ofWall, microsPerHour]
  omega

def instant (d : Datetime) : Option Int := d.tzinfo.map fun offset => d.wall - offset d.wall d.fold

/-- The instant of `d + timedelta(hours=1)`; the addition resets `fold`. -/
def hourLater (d : Datetime) : Option Int :=
  if d.wall + microsPerHour < wallLimit then
    d.tzinfo.map fun offset => d.wall + microsPerHour - offset (d.wall + microsPerHour) false
  else none

end Datetime

structure UtcHour where
  date : Calendar.Date
  year_bounds : 1 ≤ date.year ∧ date.year ≤ 9999
  hour : Fin 24
  deriving DecidableEq

namespace UtcHour

def index (h : UtcHour) : Int := hourIndex h.date h.hour

theorem index_injective : Function.Injective index := by
  intro g h heq
  obtain ⟨hdate, hhour⟩ := hourIndex_inj heq
  cases g
  cases h
  simp_all

/-- `datetime(year, month, day, hour, tzinfo=UTC)`. -/
def toDatetime (h : UtcHour) : Datetime :=
  ⟨h.date, h.year_bounds, h.hour, 0, 0, 0, false, some fun _ _ => 0⟩

theorem wall_toDatetime (h : UtcHour) : h.toDatetime.wall = h.index * microsPerHour := by
  simp [Datetime.wall, toDatetime, index]

theorem instant_toDatetime (h : UtcHour) :
    h.toDatetime.instant = some (h.index * microsPerHour) := by
  rw [← wall_toDatetime]
  exact congrArg some (sub_zero _)

theorem hourLater_toDatetime {h : UtcHour} {later : Int}
    (hlater : h.toDatetime.hourLater = some later) : later = (h.index + 1) * microsPerHour := by
  unfold Datetime.hourLater at hlater
  split_ifs at hlater
  have hwall : later = h.toDatetime.wall + microsPerHour :=
    (Option.some.inj hlater).symm.trans (sub_zero _)
  rw [hwall, wall_toDatetime, add_mul, one_mul]

def Contains (h : UtcHour) (instant : Int) : Prop :=
  h.index * microsPerHour ≤ instant ∧ instant < (h.index + 1) * microsPerHour

instance (h : UtcHour) (instant : Int) : Decidable (h.Contains instant) :=
  inferInstanceAs (Decidable (_ ∧ _))

theorem Contains.unique {g h : UtcHour} {instant : Int} (hg : g.Contains instant)
    (hh : h.Contains instant) : g = h := by
  refine index_injective ?_
  unfold Contains microsPerHour at hg hh
  omega

end UtcHour

/-- The UTC hour that the wall-clock fields of a datetime name. -/
def Datetime.namedHour (d : Datetime) : UtcHour := ⟨d.date, d.year_bounds, d.hour⟩

end Athena
