import Athena.Core.Isoformat
import Athena.Core.Numerals
import Athena.Shards.ExportMain

/-!
# The hour argument of the export command

`parse_hour` reads `now-<N>`, `YYYY-MM-DDTHH` and whatever `fromisoformat`
takes. Only the first of these is held against the clock, and only to the hour:
the others may name a future hour or a time within an hour, and arithmetic at
the ends of the calendar raises an `OverflowError`, which `main` does not catch.
The texts that `datetime.fromisoformat` takes differ between releases of Python,
so it is a parameter, without a reading where it raises a `ValueError`; `repr`
is the function of that name on texts.
-/

namespace Athena

inductive ParseHourErr
  | valueError (detail : String)
  | overflowError
  deriving DecidableEq, Repr

namespace ParseHour

/-- `_NOW_OFFSET_RE.match(spec)`: the digits of `now-<N>`. The dollar sign also matches
before a final newline. -/
def matchNowOffset (spec : List Char) : Option (List Char) :=
  let tail := spec.drop 4
  let digits := tail.takeWhile isDecimalDigit
  if "now-".toList.isPrefixOf spec ∧ digits ≠ [] ∧ atEnd (tail.dropWhile isDecimalDigit) then
    some digits
  else none

/-- A `d` of a pattern stands for any decimal digit, another character for itself. -/
def matchesPlace (place c : Char) : Bool :=
  if place = 'd' then isDecimalDigit c else place = c

/-- `_HOUR_ISO_RE.match(spec)`. -/
def matchesHourIso (spec : List Char) : Bool :=
  let pattern := "dddd-dd-ddTdd".toList
  pattern.length ≤ spec.length && (pattern.zipWith matchesPlace spec).all id &&
    atEnd (spec.drop pattern.length)

/-- `int` of decimal digits, within the limit of the interpreter on their number. -/
def intOfDigits (digits : List Char) : Except ParseHourErr ℕ :=
  if 4300 < digits.length then
    .error (.valueError ("Exceeds the limit (4300 digits) for integer string conversion: " ++
      "value has " ++ strInt digits.length ++
      " digits; use sys.set_int_max_str_digits() to increase the limit"))
  else .ok (Nat.ofDigitChars 10 (digits.map asciiDigit) 0)

/-- `timedelta(hours=n)`, in microseconds: at most 999999999 days. -/
def timedeltaHours (n : ℕ) : Except ParseHourErr Int :=
  if n / 24 ≤ 999999999 then .ok (n * microsPerHour) else .error .overflowError

/-- The UTC datetime at a wall-clock reading, from `datetime.min` to `datetime.max`. -/
def utcAt (w : Int) : Except ParseHourErr Datetime :=
  if h : -62135596800000000 ≤ w ∧ w < Datetime.wallLimit then
    .ok (.ofWall w h (some fun _ _ => 0))
  else .error .overflowError

def astimezoneUtc (dt : Datetime) (offset : Int → Bool → Int) : Except ParseHourErr Datetime :=
  utcAt (dt.wall - offset dt.wall dt.fold)

def isoText (spec : String) : String :=
  if matchesHourIso spec.toList then spec ++ ":00:00+00:00" else spec

end ParseHour

section Command

variable (fromisoformat : String → Option Datetime)

open ParseHour in
/-- `parse_hour(spec)`, at the time that `datetime.now(UTC)` returns. -/
def parseHour (repr : String → String) (now : Datetime) (spec : String) :
    Except ParseHourErr Datetime :=
  match matchNowOffset spec.toList with
  | some digits => do
    let offset ← intOfDigits digits
    if offset < 1 then
      .error (.valueError ("--hour now-<N> requires N>=1 (current hour is incomplete); got " ++
        repr spec))
    else
      utcAt (now.namedHour.toDatetime.wall - (← timedeltaHours offset))
  | none =>
    match fromisoformat (isoText spec) with
    | none =>
      .error (.valueError ("--hour must be `YYYY-MM-DDTHH` or `now-<N>` (N>=1); got " ++
        repr (isoText spec)))
    | some dt =>
      match dt.tzinfo with
      | none =>
        .error (.valueError ("--hour must be UTC-aware or `YYYY-MM-DDTHH`; got " ++
          repr (isoText spec)))
      | some offset => astimezoneUtc dt offset

/-- `main`: of what `parse_hour` raises, only a `ValueError` is caught. -/
def exportCommand {β : Type} (codec : ParquetCodec β) (repr : String → String) (now : Datetime)
    (spec tables : String) (checkOnly : Bool) (env : ExportMainEnv β) (src : Source) (t : Tree β) :
    Except ParseHourErr (ExportReport × List (Tree β)) :=
  match parseHour fromisoformat repr now spec with
  | .ok hour => .ok (exportMain codec ⟨.ok hour, tables, checkOnly⟩ env src t)
  | .error (.valueError detail) =>
    .ok (exportMain codec ⟨.error detail, tables, checkOnly⟩ env src t)
  | .error .overflowError => .error .overflowError

end Command

/-- A `ValueError`, or a full hour in UTC that has ended at the given time. -/
def YieldsCompletedHour (now : Datetime) : Except ParseHourErr Datetime → Prop
  | .ok hour => hour.tzinfo = some (fun _ _ => 0) ∧
      (hour.minute.val = 0 ∧ hour.second.val = 0 ∧ hour.microsecond.val = 0) ∧
      hour.wall + microsPerHour ≤ now.wall
  | .error (.valueError _) => True
  | .error .overflowError => False

namespace ParseHour

/-- The hour that lies `offset` hours before the current one is not before year 1. -/
def ReachesBack (now : Datetime) (offset : ℕ) : Prop :=
  -62135596800000000 ≤ (now.namedHour.index - offset) * microsPerHour

/-- The instant is the start of a UTC hour of the calendar that has ended. -/
def StartsEndedHour (now : Datetime) (instant : Int) : Prop :=
  -62135596800000000 ≤ instant ∧ instant % microsPerHour = 0 ∧
    instant + microsPerHour ≤ now.wall

/-- The argument of `now-<N>` is no number or zero or reaches back into the calendar; an
ISO text that is read with an offset names the start of an ended hour. -/
def NamesCompletedHour (fromisoformat : String → Option Datetime) (now : Datetime)
    (spec : String) : Prop :=
  match matchNowOffset spec.toList with
  | some digits => ∀ offset, intOfDigits digits = .ok offset → 1 ≤ offset → ReachesBack now offset
  | none => ∀ dt instant, fromisoformat (isoText spec) = some dt →
      dt.instant = some instant → StartsEndedHour now instant

theorem utcAt_yields_iff (now : Datetime) (w : Int) :
    YieldsCompletedHour now (utcAt w) ↔ StartsEndedHour now w := by
  have hnow := now.wall_bounds
  unfold utcAt StartsEndedHour
  split_ifs with h
  · simp only [YieldsCompletedHour, Datetime.ofWall_fullHour_iff, Datetime.wall_ofWall]
    constructor
    · rintro ⟨-, hfull, hended⟩
      exact ⟨h.1, hfull, hended⟩
    · rintro ⟨-, hfull, hended⟩
      exact ⟨rfl, hfull, hended⟩
  · simp only [YieldsCompletedHour, false_iff]
    rintro ⟨hlo, -, hended⟩
    unfold microsPerHour at hended
    exact h ⟨hlo, by omega⟩

theorem namedHour_le_wall (now : Datetime) : now.namedHour.index * microsPerHour ≤ now.wall := by
  change hourIndex now.date now.hour * microsPerHour ≤ now.wall
  unfold Datetime.wall
  omega

theorem timedeltaHours_of_reachesBack {now : Datetime} {offset : ℕ}
    (h : ReachesBack now offset) : timedeltaHours offset = .ok (offset * microsPerHour) := by
  have hcurrent := namedHour_le_wall now
  have hnow := now.wall_bounds
  have hlimit : Datetime.wallLimit = 253402300800000000 := by decide
  unfold ReachesBack microsPerHour at h
  unfold microsPerHour at hcurrent
  rw [timedeltaHours, if_pos (by omega)]

theorem timedeltaHours_ok {n : ℕ} {delta : Int} (h : timedeltaHours n = .ok delta) :
    delta = n * microsPerHour := by
  unfold timedeltaHours at h
  split_ifs at h
  exact (Except.ok.inj h).symm

theorem timedeltaHours_error {n : ℕ} {e : ParseHourErr} (h : timedeltaHours n = .error e) :
    e = .overflowError := by
  unfold timedeltaHours at h
  split_ifs at h
  exact (Except.error.inj h).symm

theorem intOfDigits_error {digits : List Char} {e : ParseHourErr}
    (h : intOfDigits digits = .error e) : ∃ detail, e = .valueError detail := by
  unfold intOfDigits at h
  split_ifs at h
  exact ⟨_, (Except.error.inj h).symm⟩

theorem startsEndedHour_back_iff (now : Datetime) {offset : ℕ} (hoffset : 1 ≤ offset) :
    StartsEndedHour now ((now.namedHour.index - offset) * microsPerHour) ↔
      ReachesBack now offset := by
  have hcurrent := namedHour_le_wall now
  unfold StartsEndedHour ReachesBack
  constructor
  · intro h
    exact h.1
  · intro h
    refine ⟨h, Int.mul_emod_left _ _, ?_⟩
    unfold microsPerHour at hcurrent ⊢
    omega

/-- The arithmetic of `now-<N>`, for a positive `N`. -/
theorem subtract_yields_iff (now : Datetime) {offset : ℕ} (hoffset : 1 ≤ offset) :
    YieldsCompletedHour now (do
      utcAt (now.namedHour.toDatetime.wall - (← timedeltaHours offset))) ↔
      ReachesBack now offset := by
  cases hdelta : timedeltaHours offset with
  | ok delta =>
    have hstart : now.namedHour.toDatetime.wall - delta =
        (now.namedHour.index - offset) * microsPerHour := by
      rw [UtcHour.wall_toDatetime, timedeltaHours_ok hdelta, sub_mul]
    change YieldsCompletedHour now (utcAt (now.namedHour.toDatetime.wall - delta)) ↔ _
    rw [hstart, utcAt_yields_iff, startsEndedHour_back_iff now hoffset]
  | error e =>
    have hfar : ¬ ReachesBack now offset := fun hback =>
      absurd (hdelta.symm.trans (timedeltaHours_of_reachesBack hback)) (by simp)
    rw [timedeltaHours_error hdelta]
    exact iff_of_false id hfar

variable (fromisoformat : String → Option Datetime)

/-- A spec `now-<N>`: its number is refused, or it is held against the clock. -/
theorem parseHour_offset_iff (repr : String → String) (now : Datetime) {spec : String}
    {digits : List Char} (hmatch : matchNowOffset spec.toList = some digits) :
    YieldsCompletedHour now (parseHour fromisoformat repr now spec) ↔
      ∀ offset, intOfDigits digits = .ok offset → 1 ≤ offset → ReachesBack now offset := by
  unfold parseHour
  rw [hmatch]
  dsimp only
  cases hdigits : intOfDigits digits with
  | error e =>
    obtain ⟨detail, rfl⟩ := intOfDigits_error hdigits
    exact iff_of_true trivial fun offset hoffset => absurd hoffset (by simp)
  | ok offset =>
    by_cases hoffset : offset < 1
    · -- `now-0` is refused before any arithmetic
      change YieldsCompletedHour now (if offset < 1 then _ else _) ↔ _
      rw [if_pos hoffset]
      apply iff_of_true trivial
      intro n hn hpos
      have := Except.ok.inj hn
      omega
    · change YieldsCompletedHour now (if offset < 1 then _ else _) ↔ _
      rw [if_neg hoffset, subtract_yields_iff now (by omega)]
      constructor
      · intro h n hn _
        exact Except.ok.inj hn ▸ h
      · intro h
        exact h offset rfl (by omega)

/-- Every other spec: an instant is taken as it is read. -/
theorem parseHour_iso_iff (repr : String → String) (now : Datetime) {spec : String}
    (hmatch : matchNowOffset spec.toList = none) :
    YieldsCompletedHour now (parseHour fromisoformat repr now spec) ↔
      ∀ dt instant, fromisoformat (isoText spec) = some dt →
        dt.instant = some instant → StartsEndedHour now instant := by
  unfold parseHour
  rw [hmatch]
  dsimp only
  cases hread : fromisoformat (isoText spec) with
  | none => exact iff_of_true trivial fun dt instant hdt => absurd hdt (by simp)
  | some dt =>
    cases hzone : dt.tzinfo with
    | none =>
      simp only [hzone]
      apply iff_of_true trivial
      intro d instant hd hinstant
      rw [← Option.some.inj hd, Datetime.instant, hzone] at hinstant
      exact absurd hinstant (by simp)
    | some offset =>
      have hinstant : dt.instant = some (dt.wall - offset dt.wall dt.fold) := by
        rw [Datetime.instant, hzone, Option.map_some]
      simp only [hzone, astimezoneUtc]
      rw [utcAt_yields_iff]
      constructor
      · intro h d instant hd hread
        rw [← Option.some.inj hd, hinstant] at hread
        exact Option.some.inj hread ▸ h
      · intro h
        exact h dt _ rfl hinstant

end ParseHour

open ParseHour in
/-- `parse_hour` yields a completed hour or a `ValueError` exactly for the specs that
name one or are refused, and the command turns the `ValueError` into its report. -/
theorem parseHour_completed_iff {β : Type} (codec : ParquetCodec β)
    (fromisoformat : String → Option Datetime) (repr : String → String) (now : Datetime)
    (spec : String) :
    (YieldsCompletedHour now (parseHour fromisoformat repr now spec) ↔
      NamesCompletedHour fromisoformat now spec) ∧
    ∀ detail, parseHour fromisoformat repr now spec = .error (.valueError detail) →
      ∀ tables checkOnly env src t,
        exportCommand fromisoformat codec repr now spec tables checkOnly env src t =
          .ok (.badHour detail, []) := by
  constructor
  · unfold NamesCompletedHour
    cases hmatch : matchNowOffset spec.toList with
    | some digits => exact parseHour_offset_iff fromisoformat repr now hmatch
    | none => exact parseHour_iso_iff fromisoformat repr now hmatch
  · intro detail hdetail tables checkOnly env src t
    rw [exportCommand, hdetail]
    rfl

def midMorning : Datetime := .ofWall 1776767400000000 (by decide) (some fun _ _ => 0)

/-- A future hour, a time within an hour, and two ways out of the calendar. -/
theorem parseHour_not_completed :
    (∃ hour, parseHour Isoformat.fromisoformat id midMorning "2099-01-01T00" = .ok hour ∧
      midMorning.wall < hour.wall) ∧
    (∃ hour,
      parseHour Isoformat.fromisoformat id midMorning "2026-04-21T09:30:00+00:00" = .ok hour ∧
        hour.minute = 30) ∧
    parseHour Isoformat.fromisoformat id midMorning "now-99999999999" = .error .overflowError ∧
    parseHour Isoformat.fromisoformat id midMorning "0001-01-01T00:00+01:00" =
      .error .overflowError ∧
    ¬ ∀ repr now spec,
      YieldsCompletedHour now (parseHour Isoformat.fromisoformat repr now spec) := by
  have hfar : parseHour Isoformat.fromisoformat id midMorning "now-99999999999" =
      .error .overflowError := by rfl
  refine ⟨⟨_, rfl, by decide⟩, ⟨_, rfl, by decide⟩, hfar, by rfl, ?_⟩
  intro hall
  have hclaim := hall id midMorning "now-99999999999"
  rw [hfar] at hclaim
  exact hclaim

end Athena
