import Athena.Core.IsoPrint

/-!
# The trading-day check

`check_trading_day.py` runs before a unit locks or unlocks. Its exit status is 0
on a trading day only: a weekend, a public holiday or a day of the operator's
list gives 1, and so does a list that cannot be read. The calendar of public
holidays and the texts that `date.fromisoformat` takes are parameters.
-/

namespace Athena

namespace CheckTradingDay

open Isoformat

-- `date.fromisoformat`, unless it raises
variable (fromisoformat : List Char → Option PyDate)

def parseIsoDate (raw : List Char) : Option PyDate := fromisoformat (strip raw)

/-- The file at `--extra-closed-days-file`. -/
inductive ClosedDaysFile
  | missing
  | unreadable
  | content (bytes : Bytes)

/-- The loop of `_load_extra_closed_days`. A malformed line is skipped with a warning. -/
def closedDays : List (List Char) → List PyDate
  | [] => []
  | line :: lines =>
    let stripped := strip line
    if stripped = [] ∨ stripped.head? = some '#' then closedDays lines
    else
      match parseIsoDate fromisoformat stripped with
      | some day => day :: closedDays lines
      | none => closedDays lines

/-- `_load_extra_closed_days`, unless reading the file raises. -/
def loadExtraClosedDays : ClosedDaysFile → Option (List PyDate)
  | .missing => some []
  | .unreadable => none
  | .content bytes => (String.fromUTF8? bytes.toByteArray).map fun text =>
    closedDays fromisoformat (splitlines (universalNewlines text.toList))

/-- `today.weekday()`, Monday being 0. -/
def weekday (today : PyDate) : Int := today.val.ordinal % 7

/-- `_classify`: the decision and its reason. -/
def classify (today : PyDate) (krHolidays : PyDate → Bool) (extraClosed : List PyDate) :
    String × String :=
  if 5 ≤ weekday today then ("skip", "weekend")
  else if krHolidays today then ("skip", "holiday")
  else if today ∈ extraClosed then ("skip", "extra_closed")
  else ("trade", "trading_day")

/-- What `main` prints. -/
structure Payload where
  decision : String
  date : String
  reason : String
  deriving DecidableEq, Repr

/-- The arguments, with the local date, the calendar of public holidays and the reader of dates. -/
structure Check where
  asOf : Option (List Char)
  file : ClosedDaysFile
  localToday : PyDate
  krHolidays : PyDate → Bool
  fromisoformat : List Char → Option PyDate

/-- `main` as a script: its exit status, and what it has printed. A usage error is 2, an
exception that nothing catches is 1. -/
def main (c : Check) : ℕ × Option Payload :=
  match c.asOf.elim (some c.localToday) (parseIsoDate c.fromisoformat) with
  | none => (2, none)
  | some today =>
    match loadExtraClosedDays c.fromisoformat c.file with
    | none => (1, none)
    | some extra =>
      let (decision, reason) := classify today c.krHolidays extra
      (if decision = "trade" then 0 else 1,
        some ⟨decision, String.ofList (isoDate today.val), reason⟩)

/-- The line is no comment and names the day. -/
def Closes (line : List Char) (day : PyDate) : Prop :=
  strip line ≠ [] ∧ (strip line).head? ≠ some '#' ∧
    parseIsoDate fromisoformat (strip line) = some day

theorem mem_closedDays {lines : List (List Char)} {day : PyDate} :
    day ∈ closedDays fromisoformat lines ↔ ∃ line ∈ lines, Closes fromisoformat line day := by
  induction lines with
  | nil => simp [closedDays]
  | cons line lines ih =>
    rw [List.exists_mem_cons_iff, ← ih, closedDays]
    split_ifs with hskip
    · have hno : ¬ Closes fromisoformat line day := fun h => hskip.elim h.1 h.2.1
      rw [or_iff_right hno]
    · obtain ⟨hne, hcomment⟩ := not_or.mp hskip
      have hcloses : Closes fromisoformat line day ↔
          parseIsoDate fromisoformat (strip line) = some day :=
        ⟨fun h => h.2.2, fun h => ⟨hne, hcomment, h⟩⟩
      rw [hcloses]
      cases parseIsoDate fromisoformat (strip line) with
      | none => simp
      | some d => rw [List.mem_cons, Option.some.injEq, eq_comm]

/-- The lines of a list that can be read. -/
def ClosedDaysFile.lines : ClosedDaysFile → Option (List (List Char))
  | .missing => some []
  | .unreadable => none
  | .content bytes => (String.fromUTF8? bytes.toByteArray).map fun text =>
    splitlines (universalNewlines text.toList)

theorem loadExtraClosedDays_eq (file : ClosedDaysFile) :
    loadExtraClosedDays fromisoformat file = file.lines.map (closedDays fromisoformat) := by
  cases file with
  | missing => rfl
  | unreadable => rfl
  | content bytes => exact (Option.map_map (closedDays fromisoformat) _ _).symm

/-- A day on which the units do their work. -/
structure TradingDay (c : Check) (today : PyDate) : Prop where
  weekday : weekday today < 5
  working : c.krHolidays today = false
  unlisted : ∃ lines, c.file.lines = some lines ∧ ∀ line ∈ lines,
    ¬ Closes c.fromisoformat line today

theorem classify_eq_trade (today : PyDate) (krHolidays : PyDate → Bool)
    (extraClosed : List PyDate) : (classify today krHolidays extraClosed).1 = "trade" ↔
      weekday today < 5 ∧ krHolidays today = false ∧ today ∉ extraClosed := by
  have hskip : ¬ "skip" = "trade" := by decide
  unfold classify
  split_ifs with hweekend hholiday hextra
  · simp [hskip, hweekend]
  · simp [hskip, hholiday]
  · simp [hskip, hextra]
  · simp only [Bool.not_eq_true] at hholiday
    simp [hholiday, hextra]
    omega

/-- Without `--as-of` the status is 0 exactly on the trading days of the local calendar. -/
theorem main_eq_zero_iff {c : Check} (hasOf : c.asOf = none) :
    (main c).1 = 0 ↔ TradingDay c c.localToday := by
  unfold main
  rw [hasOf, Option.elim_none, loadExtraClosedDays_eq]
  dsimp only
  cases hlines : c.file.lines with
  | none =>
    refine iff_of_false one_ne_zero fun h => ?_
    obtain ⟨lines, hlines', -⟩ := h.unlisted
    cases hlines.symm.trans hlines'
  | some lines =>
    have htrade := classify_eq_trade c.localToday c.krHolidays
      (closedDays c.fromisoformat lines)
    rw [mem_closedDays, not_exists] at htrade
    simp only [Option.map_some]
    split_ifs with hdecision
    · obtain ⟨hweekday, hworking, hunlisted⟩ := htrade.mp hdecision
      exact iff_of_true rfl ⟨hweekday, hworking, lines, hlines,
        fun line hline hcloses => hunlisted line ⟨hline, hcloses⟩⟩
    · refine iff_of_false not_false fun h => hdecision (htrade.mpr ⟨h.weekday, h.working, ?_⟩)
      rintro line ⟨hline, hcloses⟩
      obtain ⟨lines', hlines', hunlisted⟩ := h.unlisted
      cases hlines.symm.trans hlines'
      exact hunlisted line hline hcloses

section Lists

theorem strip_between {a s b : List Char} (ha : ∀ c ∈ a, isSpace c = true)
    (hb : ∀ c ∈ b, isSpace c = true) (hfirst : ∃ c t, s = c :: t ∧ isSpace c = false)
    (hlast : ∃ t c, s = t ++ [c] ∧ isSpace c = false) : strip (a ++ s ++ b) = s := by
  have hfront : strip (a ++ s ++ b) = strip (s ++ b) := by
    rw [strip_eq, strip_eq, List.append_assoc, List.dropWhile_append_of_pos ha]
  have hback : rstrip b = [] := by
    rw [rstrip, List.reverse_eq_nil_iff, List.dropWhile_eq_nil_iff]
    exact fun c hc => hb c (List.mem_reverse.mp hc)
  rw [hfront, strip_append hfirst hlast, hback, List.append_nil]

theorem isoDate_ends (d : PyDate) : (∃ c t, isoDate d.val = c :: t ∧ c.isDigit = true) ∧
    ∃ t c, isoDate d.val = t ++ [c] ∧ c.isDigit = true := by
  obtain ⟨year, hyear, hyearLt, hmonthLt, hdayLt⟩ := d.fields
  obtain ⟨c, rest, hfront, hc⟩ := zeroPad_front (k := 4) (by omega) hyearLt
  have hlength := length_toList_zeroPad (k := 2) (by omega) hdayLt
  obtain ⟨u, v, huv⟩ := List.length_eq_two.mp hlength
  have hv : v.isDigit = true := zeroPad_digits 2 d.val.day v (by rw [huv]; simp)
  constructor
  · refine ⟨c, rest ++ '-' :: ((zeroPad 2 d.val.month).toList ++
      '-' :: (zeroPad 2 d.val.day).toList), ?_, hc⟩
    rw [isoDate, hyear, hfront]
    rfl
  · refine ⟨(zeroPad 4 d.val.year).toList ++ '-' :: ((zeroPad 2 d.val.month).toList ++
      ['-', u]), v, ?_, hv⟩
    rw [isoDate, huv]
    simp

theorem closes_isoDate {fromisoformat : List Char → Option PyDate}
    (hprinted : ∀ d, fromisoformat (isoDate d.val) = some d) {a b : List Char}
    (ha : ∀ c ∈ a, isSpace c = true) (hb : ∀ c ∈ b, isSpace c = true) (d day : PyDate) :
    Closes fromisoformat (a ++ isoDate d.val ++ b) day ↔ day = d := by
  obtain ⟨⟨c, t, hfirst, hc⟩, t', c', hlast, hc'⟩ := isoDate_ends d
  have hspace := isSpace_of_isDigit hc
  have hspace' := isSpace_of_isDigit hc'
  have hstrip := strip_between ha hb ⟨c, t, hfirst, hspace⟩ ⟨t', c', hlast, hspace'⟩
  have hstrip' : strip (isoDate d.val) = isoDate d.val := by
    have := strip_between (a := []) (b := []) (by simp) (by simp) ⟨c, t, hfirst, hspace⟩
      ⟨t', c', hlast, hspace'⟩
    rwa [List.nil_append, List.append_nil] at this
  have hne : isoDate d.val ≠ [] := by rw [hfirst]; exact List.cons_ne_nil c t
  have hcomment : (isoDate d.val).head? ≠ some '#' := by
    rw [hfirst]
    intro heq
    cases heq
    exact absurd hc (by decide)
  rw [Closes, hstrip, parseIsoDate, hstrip', hprinted, Option.some.injEq, eq_comm]
  constructor
  · intro h
    exact h.2.2
  · intro h
    exact ⟨hne, hcomment, h⟩

/-- The file of lines that are written one after the other. -/
def listFile (lines : List (List Char)) : ClosedDaysFile :=
  .content (encodeUtf8 (String.ofList (lines.flatMap fun l => l ++ [newline])))

theorem lines_listFile {lines : List (List Char)} (h : ∀ l ∈ lines, OneLine l) :
    (listFile lines).lines = some lines := by
  have hreturn : carriageReturn ∉ lines.flatMap fun l => l ++ [newline] := by
    intro hmem
    obtain ⟨l, hl, hc⟩ := List.mem_flatMap.mp hmem
    rcases List.mem_append.mp hc with hc | hc
    · exact absurd (h l hl _ hc) (by decide)
    · exact absurd (List.mem_singleton.mp hc) (by decide)
  have huniversal := universalNewlines_append hreturn []
  rw [List.append_nil] at huniversal
  rw [listFile, ClosedDaysFile.lines, fromUTF8_encodeUtf8, Option.map_some, String.toList_ofList,
    huniversal, universalNewlines, List.append_nil, splitlines_flatMap h]

end Lists

/-- The gate is exact on every list an operator can write. It opens on working weekdays that no
line names, and a line with a date between blanks names that day only. Of `fromisoformat` no more
is assumed than that it reads what `isoformat` prints. -/
theorem gate_exact (c : Check) (hasOf : c.asOf = none)
    (hprinted : ∀ d, c.fromisoformat (isoDate d.val) = some d) {lines : List (List Char)}
    (hlines : ∀ l ∈ lines, OneLine l) (hfile : c.file = listFile lines) :
    ((main c).1 = 0 ↔ weekday c.localToday < 5 ∧ c.krHolidays c.localToday = false ∧
      ∀ l ∈ lines, ¬ Closes c.fromisoformat l c.localToday) ∧
    ∀ a b, (∀ x ∈ a ++ b, isSpace x = true) → ∀ d day : PyDate,
      Closes c.fromisoformat (a ++ isoDate d.val ++ b) day ↔ day = d := by
  constructor
  · rw [main_eq_zero_iff hasOf]
    have hread : c.file.lines = some lines := by rw [hfile, lines_listFile hlines]
    constructor
    · intro h
      obtain ⟨lines', hlines', hunlisted⟩ := h.unlisted
      cases hread.symm.trans hlines'
      exact ⟨h.weekday, h.working, hunlisted⟩
    · rintro ⟨hweekday, hworking, hunlisted⟩
      exact ⟨hweekday, hworking, lines, hread, hunlisted⟩
  · intro a b hblank d day
    exact closes_isoDate hprinted (fun x hx => hblank x (List.mem_append_left b hx))
      (fun x hx => hblank x (List.mem_append_right a hx)) d day

/-- Tuesday, 19 August 2025. -/
def typhoonDay : PyDate := ⟨⟨2025, 8, 19, by decide, by decide⟩, by decide⟩

/-- A comment, a line that is no date, and the day behind a blank. -/
def typhoonLines : List (List Char) :=
  ["# typhoon".toList, "2025-8-19".toList, [' '] ++ isoDate typhoonDay.val ++ []]

def typhoonCheck : Check := ⟨none, listFile typhoonLines, typhoonDay, fun _ => false, readDate⟩

theorem typhoonLines_oneLine : ∀ l ∈ typhoonLines, OneLine l :=
  List.forall_mem_cons.mpr ⟨by decide, List.forall_mem_cons.mpr ⟨by decide,
    List.forall_mem_singleton.mpr (by decide +kernel)⟩⟩

theorem gate_exact_typhoon : weekday typhoonDay < 5 ∧ (main typhoonCheck).1 ≠ 0 := by
  refine ⟨by decide, fun hzero => ?_⟩
  obtain ⟨hgate, hnames⟩ := gate_exact typhoonCheck rfl readDate_isoDate typhoonLines_oneLine rfl
  have hunlisted := (hgate.mp hzero).2.2
  exact hunlisted _ (by simp [typhoonLines])
    ((hnames [' '] [] (List.forall_mem_singleton.mpr rfl) typhoonDay typhoonDay).mpr rfl)

end CheckTradingDay

end Athena
