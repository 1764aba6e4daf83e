import Athena.Core.Datetime

/-!
# Reading ISO 8601 texts

The formats that `datetime.fromisoformat` documents: a calendar date or a week
date, basic or extended, then any one separator character, a time with an
optional fraction of a second, and an offset. A text in no such format, or with
a field out of range, has no reading here. CPython reads a few of these texts,
with a stray character or a misplaced fraction; where that matters, its reader
is a parameter.
-/

namespace Athena

namespace Isoformat

/-- Exactly `k` ASCII digits, and the text behind them. -/
def takeDigits (k : ℕ) (s : List Char) : Option (ℕ × List Char) :=
  if k ≤ s.length ∧ (s.take k).all Char.isDigit then
    some (Nat.ofDigitChars 10 (s.take k) 0, s.drop k)
  else none

/-- `_find_isoformat_datetime_separator`: the length of the date, told by the characters
at places 4 and 5. Behind a week, a digit may be the weekday or the hour. -/
def separatorLocation (s : List Char) : Option ℕ :=
  if s.length = 7 then some 7
  else if s[4]? = some '-' then
    if s[5]? = some 'W' then
      if s[8]? = some '-' then
        if s.length = 9 then none
        else if s[10]?.any Char.isDigit then some 8
        else some 10
      else some 8
    else some 10
  else if s[4]? = some 'W' then
    let digits := ((s.drop 7).takeWhile Char.isDigit).length
    if digits < 2 then some (7 + digits)
    -- the digits of the time come in pairs
    else if digits % 2 = 1 then some 7
    else some 8
  else some 8

abbrev PyDate := { d : Calendar.Date // 1 ≤ d.year ∧ d.year ≤ 9999 }

def checkYear (d : Calendar.Date) : Option PyDate :=
  if h : 1 ≤ d.year ∧ d.year ≤ 9999 then some ⟨d, h⟩ else none

def calendarDate (year month day : ℕ) : Option PyDate :=
  if h : (1 ≤ month ∧ month ≤ 12) ∧ 1 ≤ day ∧ (day : ℤ) ≤ Calendar.daysInMonth year month then
    checkYear ⟨year, month, day, h.1, h.2⟩
  else none

/-- The weekday of 1 January, Monday being 0. -/
def firstWeekday (year : ℕ) : ℤ := Calendar.daysBeforeYear year % 7

/-- `_isoweek1monday`: the week with the first Thursday is week 1. -/
def isoWeek1Monday (year : ℕ) : ℤ :=
  Calendar.daysBeforeYear year - firstWeekday year + if 3 < firstWeekday year then 7 else 0

/-- A year has a 53rd week when it starts on a Thursday, or is a leap year and starts on
a Wednesday. -/
def weeksInYear (year : ℕ) : ℕ :=
  if firstWeekday year = 3 ∨ firstWeekday year = 2 ∧ Calendar.IsLeap year then 53 else 52

def weekDate (year week day : ℕ) : Option PyDate :=
  if (1 ≤ year ∧ year ≤ 9999) ∧ (1 ≤ week ∧ week ≤ weeksInYear year) ∧ 1 ≤ day ∧ day ≤ 7 then
    checkYear (.ofOrdinal (isoWeek1Monday year + (week - 1) * 7 + (day - 1)))
  else none

def skipDash (extended : Bool) (s : List Char) : Option (List Char) :=
  if extended then
    match s with
    | '-' :: s => some s
    | _ => none
  else some s

def readDate (s : List Char) : Option PyDate := do
  let (year, s) ← takeDigits 4 s
  let extended : Bool := s.head? = some '-'
  let s ← skipDash extended s
  match s with
  | 'W' :: s =>
    let (week, s) ← takeDigits 2 s
    if s = [] then weekDate year week 1
    else
      let (day, s) ← takeDigits 1 (← skipDash extended s)
      if s = [] then weekDate year week day else none
  | s =>
    let (month, s) ← takeDigits 2 s
    let (day, s) ← takeDigits 2 (← skipDash extended s)
    if s = [] then calendarDate year month day else none

structure TimeFields where
  hour : ℕ
  minute : ℕ
  second : ℕ
  microsecond : ℕ

def TimeFields.micros (t : TimeFields) : Int :=
  ((t.hour * 60 + t.minute) * 60 + t.second) * 1000000 + t.microsecond

/-- The microseconds of a fraction of a second. Digits behind the sixth are dropped. -/
def readFraction (s : List Char) : Option ℕ :=
  if s ≠ [] ∧ s.all Char.isDigit then
    some (Nat.ofDigitChars 10 ((s ++ List.replicate 6 '0').take 6) 0)
  else none

/-- `_parse_hh_mm_ss_ff`: `HH[:?MM[:?SS[{.,}f+]]]`. -/
def readTime (s : List Char) : Option TimeFields := do
  let (hour, s) ← takeDigits 2 s
  if s = [] then return ⟨hour, 0, 0, 0⟩
  let extended : Bool := s.head? = some ':'
  let (minute, s) ← takeDigits 2 (if extended then s.tail else s)
  if s = [] then return ⟨hour, minute, 0, 0⟩
  if extended ∧ s.head? ≠ some ':' then none
  let (second, s) ← takeDigits 2 (if extended then s.tail else s)
  match s with
  | [] => return ⟨hour, minute, second, 0⟩
  | mark :: fraction =>
    if mark = '.' ∨ mark = ',' then
      return ⟨hour, minute, second, ← readFraction fraction⟩
    else none

/-- `timezone(offset)`: the offset is shorter than a day. -/
def checkOffset (offset : Int) : Option Int :=
  if -(24 * microsPerHour) < offset ∧ offset < 24 * microsPerHour then some offset else none

/-- The offset behind a time, if there is one. -/
def readZone : List Char → Option (Option Int)
  | [] => some none
  | ['Z'] => some (some 0)
  | '+' :: s => do return some (← checkOffset (← readTime s).micros)
  | '-' :: s => do return some (← checkOffset (-(← readTime s).micros))
  | _ => none

def startsZone (c : Char) : Bool := c = '+' || c = '-' || c = 'Z'

/-- The constructor of `datetime`, with a fixed offset or none. -/
def build (date : PyDate) (time : TimeFields) (zone : Option Int) : Option Datetime :=
  if h : time.hour < 24 ∧ time.minute < 60 ∧ time.second < 60 ∧ time.microsecond < 1000000 then
    some ⟨date.val, date.property, ⟨time.hour, h.1⟩, ⟨time.minute, h.2.1⟩, ⟨time.second, h.2.2.1⟩,
      ⟨time.microsecond, h.2.2.2⟩, false, zone.map fun offset _ _ => offset⟩
  else none

def fromisoformat (text : String) : Option Datetime := do
  let s := text.toList
  if s.length < 7 then none
  let location ← separatorLocation s
  let date ← readDate (s.take location)
  if s.length ≤ location then build date ⟨0, 0, 0, 0⟩ none
  else
    let rest := s.drop (location + 1)
    let time ← readTime (rest.takeWhile fun c => !startsZone c)
    let zone ← readZone (rest.dropWhile fun c => !startsZone c)
    build date time zone

end Isoformat

end Athena
