import Athena.Core.IsoPrint
import Athena.Ledger.MonthlyChain
import Athena.Shards.ParseHour

/-!
# The hour argument reads what the command prints

The export command prints the hour it has worked on with `isoformat`, and takes
an hour as `YYYY-MM-DDTHH`, as such a text, or counted back from the clock. The
three spellings of an hour are read as that hour.
-/

namespace Athena

theorem Datetime.ofWall_wall (d : Datetime) (hfold : d.fold = false) :
    Datetime.ofWall d.wall d.wall_bounds d.tzinfo = d := by
  have hwall := Datetime.wall_ofWall d.wall_bounds d.tzinfo
  generalize hcopy : Datetime.ofWall d.wall d.wall_bounds d.tzinfo = e at hwall
  have hfoldCopy : e.fold = false := by rw [← hcopy]; rfl
  have htz : e.tzinfo = d.tzinfo := by rw [← hcopy]; rfl
  obtain ⟨date, _, hour, minute, second, micro, fold, tz⟩ := d
  obtain ⟨date', _, hour', minute', second', micro', fold', tz'⟩ := e
  have hparts : hourIndex date' hour' = hourIndex date hour ∧ minute' = minute ∧
      second' = second ∧ micro' = micro := by
    simp only [Datetime.wall, microsPerHour] at hwall
    have := minute.isLt
    have := minute'.isLt
    have := second.isLt
    have := second'.isLt
    have := micro.isLt
    have := micro'.isLt
    refine ⟨by omega, Fin.ext (by omega), Fin.ext (by omega), Fin.ext (by omega)⟩
  obtain ⟨hindex, rfl, rfl, rfl⟩ := hparts
  obtain ⟨rfl, hhour⟩ := hourIndex_inj hindex
  simp_all

namespace Isoformat

def timeFields (d : Datetime) : TimeFields := ⟨d.hour, d.minute, d.second, d.microsecond⟩

theorem timeFields_inRange (d : Datetime) : (timeFields d).InRange :=
  ⟨d.hour.isLt, d.minute.isLt, d.second.isLt, d.microsecond.isLt⟩

theorem toList_isoformatUtc (d : Datetime) :
    (isoformatUtc d).toList = isoUtc ⟨d.date, d.year_bounds⟩ (timeFields d) := by
  have hmicro : d.microsecond = ⟨0, by decide⟩ ↔ (d.microsecond : ℕ) = 0 := Fin.ext_iff
  unfold isoformatUtc isoUtc isoDate isoTime isoFraction timeFields
  by_cases hzero : (d.microsecond : ℕ) = 0
  · rw [if_pos (hmicro.mpr hzero), if_pos hzero]
    simp
  · rw [if_neg (mt hmicro.mp hzero), if_neg hzero]
    simp

theorem fromisoformat_isoformatUtc {d : Datetime} (hfold : d.fold = false)
    (htz : d.tzinfo = some fun _ _ => 0) : fromisoformat (isoformatUtc d) = some d := by
  rw [fromisoformat_isoUtc ⟨d.date, d.year_bounds⟩ (timeFields_inRange d) (toList_isoformatUtc d)]
  have hrange := timeFields_inRange d
  rw [build, dif_pos ⟨hrange.hour, hrange.minute, hrange.second, hrange.microsecond⟩]
  obtain ⟨date, _, hour, minute, second, micro, fold, tz⟩ := d
  dsimp only at hfold htz
  rw [hfold, htz]
  rfl

end Isoformat

namespace ParseHour

def hourText (hour : UtcHour) : String :=
  String.ofList (Isoformat.isoDate hour.date ++ 'T' :: (zeroPad 2 hour.hour).toList)

theorem isDecimalDigit_of_isDigit {c : Char} (h : c.isDigit = true) : isDecimalDigit c = true := by
  simp only [Char.isDigit, Bool.and_eq_true, decide_eq_true_eq, UInt32.le_iff_toNat_le] at h
  rw [isDecimalDigit, List.any_eq_true]
  refine ⟨0x30, List.mem_cons_self, ?_⟩
  rw [Bool.and_eq_true, decide_eq_true_eq, decide_eq_true_eq]
  exact ⟨h.1, h.2⟩

theorem matchNowOffset_of_digit {c : Char} {s : List Char} (hc : c.isDigit = true) :
    matchNowOffset (c :: s) = none := by
  have hne : ¬ "now-".toList.isPrefixOf (c :: s) = true := by
    intro hnow
    have hn : 'n' = c := by simpa using congrArg List.head? (List.prefix_iff_eq_take.mp
      (List.isPrefixOf_iff_prefix.mp hnow))
    subst hn
    exact absurd hc (by decide)
  rw [matchNowOffset, if_neg fun h => hne h.1]

theorem zeroPad_two {n : ℕ} (hn : n < 10 ^ 2) : ∃ a b, (zeroPad 2 n).toList = [a, b] ∧
    a.isDigit = true ∧ b.isDigit = true := by
  obtain ⟨a, b, hab⟩ := List.length_eq_two.mp (length_toList_zeroPad (k := 2) (by omega) hn)
  have hdigits := zeroPad_digits 2 n
  rw [hab] at hdigits
  exact ⟨a, b, hab, hdigits a List.mem_cons_self, hdigits b (by simp)⟩

theorem zeroPad_four {n : ℕ} (hn : n < 10 ^ 4) : ∃ a b c d, (zeroPad 4 n).toList = [a, b, c, d] ∧
    a.isDigit = true ∧ b.isDigit = true ∧ c.isDigit = true ∧ d.isDigit = true := by
  have hlength := length_toList_zeroPad (k := 4) (by omega) hn
  have hdigits := zeroPad_digits 4 n
  generalize (zeroPad 4 n).toList = text at hlength hdigits ⊢
  rcases text with _ | ⟨a, _ | ⟨b, _ | ⟨c, _ | ⟨d, _ | ⟨e, s⟩⟩⟩⟩⟩ <;>
    simp only [List.length_cons, List.length_nil] at hlength <;> try omega
  refine ⟨a, b, c, d, rfl, ?_⟩
  simpa using hdigits

theorem hourText_chars (hour : UtcHour) : ∃ y₁ y₂ y₃ y₄ m₁ m₂ d₁ d₂ h₁ h₂ : Char,
    (hourText hour).toList =
      [y₁, y₂, y₃, y₄, '-', m₁, m₂, '-', d₁, d₂, 'T', h₁, h₂] ∧
    ∀ c ∈ [y₁, y₂, y₃, y₄, m₁, m₂, d₁, d₂, h₁, h₂], c.isDigit = true := by
  obtain ⟨year, hyear, hyearLt, hmonthLt, hdayLt⟩ :=
    Isoformat.PyDate.fields ⟨hour.date, hour.year_bounds⟩
  obtain ⟨y₁, y₂, y₃, y₄, hy, hys⟩ := zeroPad_four hyearLt
  obtain ⟨m₁, m₂, hm, hms⟩ := zeroPad_two hmonthLt
  obtain ⟨d₁, d₂, hd, hds⟩ := zeroPad_two hdayLt
  have hhour : (hour.hour : ℕ) < 10 ^ 2 := hour.hour.isLt.trans (by omega)
  obtain ⟨h₁, h₂, hh, hhs⟩ := zeroPad_two hhour
  dsimp only at hyear hm hd
  refine ⟨y₁, y₂, y₃, y₄, m₁, m₂, d₁, d₂, h₁, h₂, ?_, by simp [hys, hms, hds, hhs]⟩
  rw [hourText, String.toList_ofList, Isoformat.isoDate, hyear, hy, hm, hd, hh]
  rfl

theorem matchesHourIso_of_forall₂ {s : List Char}
    (h : List.Forall₂ (fun place c => matchesPlace place c = true) "dddd-dd-ddTdd".toList s) :
    matchesHourIso s = true := by
  have hall : ∀ {pattern s}, List.Forall₂ (fun place c => matchesPlace place c = true) pattern s →
      (pattern.zipWith matchesPlace s).all id = true := by
    intro pattern s h
    induction h with
    | nil => rfl
    | cons hc _ ih => rw [List.zipWith_cons_cons, List.all_cons, id_eq, hc, ih, Bool.and_self]
  unfold matchesHourIso
  generalize "dddd-dd-ddTdd".toList = pattern at h ⊢
  have hend : atEnd (s.drop pattern.length) = true := by
    rw [h.length_eq, List.drop_length]
    rfl
  simp only [hall h, hend, Bool.and_true, decide_eq_true_eq]
  exact h.length_eq.le

theorem isoText_hourText (hour : UtcHour) :
    isoText (hourText hour) = hourText hour ++ ":00:00+00:00" := by
  obtain ⟨y₁, y₂, y₃, y₄, m₁, m₂, d₁, d₂, h₁, h₂, htext, hdigits⟩ := hourText_chars hour
  have hplace : ∀ c ∈ [y₁, y₂, y₃, y₄, m₁, m₂, d₁, d₂, h₁, h₂], matchesPlace 'd' c = true :=
    fun c hc => by rw [matchesPlace, if_pos rfl, isDecimalDigit_of_isDigit (hdigits c hc)]
  have hpattern : "dddd-dd-ddTdd".toList =
      ['d', 'd', 'd', 'd', '-', 'd', 'd', '-', 'd', 'd', 'T', 'd', 'd'] := rfl
  have hmatch : matchesHourIso (hourText hour).toList = true := by
    apply matchesHourIso_of_forall₂
    rw [htext, hpattern]
    repeat' constructor
    all_goals exact hplace _ (by simp)
  rw [isoText, if_pos hmatch]

theorem atEnd_length {s : List Char} (h : atEnd s = true) : s.length ≤ 1 := by
  simp only [atEnd, Bool.or_eq_true, decide_eq_true_eq] at h
  rcases h with rfl | rfl
  · exact Nat.zero_le 1
  · exact le_rfl

theorem matchesHourIso_length {s : List Char} (h : matchesHourIso s = true) :
    s.length ≤ "dddd-dd-ddTdd".toList.length + 1 := by
  unfold matchesHourIso at h
  generalize "dddd-dd-ddTdd".toList = pattern at h ⊢
  have hend := atEnd_length (Bool.and_eq_true_iff.mp h).2
  rw [List.length_drop] at hend
  omega

/-- A printed datetime is longer than the pattern, and is handed on as it is. -/
theorem isoText_isoformatUtc (d : Datetime) : isoText (isoformatUtc d) = isoformatUtc d := by
  have hlength : 17 ≤ (isoformatUtc d).toList.length := by
    rw [Isoformat.toList_isoformatUtc, Isoformat.isoUtc, List.length_append,
      Isoformat.length_isoDate, List.length_cons, List.length_append]
    have hzone : "+00:00".toList.length = 6 := by decide
    omega
  have hpattern : "dddd-dd-ddTdd".toList.length = 13 := by decide
  have hmatch : ¬ matchesHourIso (isoformatUtc d).toList = true := by
    intro hmatch
    have hshort := matchesHourIso_length hmatch
    omega
  rw [isoText, if_neg hmatch]

theorem matchNowOffset_isoDate (date : Isoformat.PyDate) (s : List Char) :
    matchNowOffset (Isoformat.isoDate date.val ++ s) = none := by
  obtain ⟨year, hyear, hyearLt, -, -⟩ := date.fields
  obtain ⟨c, rest, hfront, hc⟩ := Isoformat.zeroPad_front (k := 4) (by omega) hyearLt
  rw [Isoformat.isoDate, hyear, hfront]
  exact matchNowOffset_of_digit hc

theorem utcAt_wall {d : Datetime} (hfold : d.fold = false) (htz : d.tzinfo = some fun _ _ => 0) :
    utcAt d.wall = .ok d := by
  rw [utcAt, dif_pos d.wall_bounds, ← htz, d.ofWall_wall hfold]

theorem parseHour_of_isoText (repr : String → String) (now : Datetime) {spec : String}
    {d : Datetime} (hfold : d.fold = false) (htz : d.tzinfo = some fun _ _ => 0)
    (hnow : matchNowOffset spec.toList = none) (hspec : isoText spec = isoformatUtc d) :
    parseHour Isoformat.fromisoformat repr now spec = .ok d := by
  have hread := Isoformat.fromisoformat_isoformatUtc hfold htz
  simp only [parseHour, hnow, hspec, hread, htz, astimezoneUtc, Int.sub_zero,
    utcAt_wall hfold htz]

theorem hourText_append (hour : UtcHour) :
    hourText hour ++ ":00:00+00:00" = isoformatUtc hour.toDatetime := by
  apply String.toList_injective
  have hzero : (zeroPad 2 0).toList = ['0', '0'] := by decide
  rw [Isoformat.toList_isoformatUtc, String.toList_append, hourText, String.toList_ofList]
  simp [Isoformat.isoUtc, Isoformat.isoTime, Isoformat.isoFraction, Isoformat.timeFields,
    UtcHour.toDatetime, hzero]

def backText (n : ℕ) : String := "now-" ++ n.repr

theorem matchNowOffset_backText (n : ℕ) :
    matchNowOffset (backText n).toList = some n.repr.toList := by
  have htext : (backText n).toList = "now-".toList ++ n.repr.toList := by
    rw [backText, String.toList_append]
  have hdigits : ∀ c ∈ n.repr.toList, isDecimalDigit c = true := fun c hc =>
    isDecimalDigit_of_isDigit (repr_digits n c hc)
  have htail : (backText n).toList.drop 4 = n.repr.toList := by
    rw [htext]
    exact List.drop_left' (by decide)
  have hnow : "now-".toList.isPrefixOf (backText n).toList = true := by
    rw [htext, List.isPrefixOf_iff_prefix]
    exact List.prefix_append _ _
  simp only [matchNowOffset, htail]
  rw [List.takeWhile_eq_self_iff.mpr hdigits, List.dropWhile_eq_nil_iff.mpr hdigits]
  exact if_pos ⟨hnow, repr_toList_ne_nil n, rfl⟩

theorem parseHour_backText (repr : String → String) {now : Datetime} {hour : UtcHour} {n : ℕ}
    (hn : 1 ≤ n) (hback : hour.index + n = now.namedHour.index) :
    parseHour Isoformat.fromisoformat repr now (backText n) = .ok hour.toDatetime := by
  have hlow := hour.toDatetime.wall_bounds.1
  rw [UtcHour.wall_toDatetime] at hlow
  have hreach : ReachesBack now n := by
    rw [ReachesBack, ← hback]
    convert hlow using 2
    omega
  have hhigh := now.wall_bounds.2
  have hcurrent := namedHour_le_wall now
  have hlimit : Datetime.wallLimit = 253402300800000000 := by decide
  have hsmall : n < 10 ^ 8 := by
    unfold microsPerHour at hlow hcurrent
    omega
  have hvalue : intOfDigits n.repr.toList = .ok n := by
    have hlength : n.repr.toList.length ≤ 8 := by
      rw [Nat.toList_repr]
      exact (Nat.length_toDigits_le_iff (by omega) (by omega)).mpr hsmall
    rw [intOfDigits, if_neg (by omega), map_asciiDigit_of_ascii (repr_ascii n), ofDigitChars_repr]
  have hwall : now.namedHour.toDatetime.wall - n * microsPerHour = hour.toDatetime.wall := by
    rw [UtcHour.wall_toDatetime, UtcHour.wall_toDatetime, ← hback]
    ring
  have hread : parseHour Isoformat.fromisoformat repr now (backText n) =
      utcAt hour.toDatetime.wall := by
    have hpos : ¬ n < 1 := by omega
    simp only [parseHour, matchNowOffset_backText, hvalue, bind, Except.bind, if_neg hpos,
      timedeltaHours_of_reachesBack hreach, hwall]
  rw [hread, utcAt_wall rfl rfl]

end ParseHour

/-- The three spellings of an hour, and the text that the command prints for it, are all read as
that hour, whatever the clock says. -/
theorem hour_spellings_agree (repr : String → String) (now : Datetime) (hour : UtcHour) :
    parseHour Isoformat.fromisoformat repr now (ParseHour.hourText hour) = .ok hour.toDatetime ∧
    parseHour Isoformat.fromisoformat repr now (isoformatUtc hour.toDatetime) =
      .ok hour.toDatetime ∧
    ∀ n : ℕ, 1 ≤ n → hour.index + n = now.namedHour.index →
      parseHour Isoformat.fromisoformat repr now (ParseHour.backText n) = .ok hour.toDatetime := by
  refine ⟨?_, ?_, ?_⟩
  · apply ParseHour.parseHour_of_isoText repr now rfl rfl
    · rw [ParseHour.hourText, String.toList_ofList]
      exact ParseHour.matchNowOffset_isoDate ⟨hour.date, hour.year_bounds⟩ _
    · rw [ParseHour.isoText_hourText, ParseHour.hourText_append]
  · apply ParseHour.parseHour_of_isoText repr now rfl rfl
    · rw [Isoformat.toList_isoformatUtc]
      exact ParseHour.matchNowOffset_isoDate ⟨hour.date, hour.year_bounds⟩ _
    · exact ParseHour.isoText_isoformatUtc _
  · intro n hn hback
    exact ParseHour.parseHour_backText repr hn hback

theorem nine_lt : 9 < 24 := by decide

def nineOClock : UtcHour := ⟨midMorning.date, midMorning.year_bounds, ⟨9, nine_lt⟩⟩

/-- Read at half past ten. -/
theorem hour_spellings_agree_nine :
    parseHour Isoformat.fromisoformat id midMorning (ParseHour.hourText nineOClock) =
      .ok nineOClock.toDatetime ∧
    parseHour Isoformat.fromisoformat id midMorning (isoformatUtc nineOClock.toDatetime) =
      .ok nineOClock.toDatetime ∧
    parseHour Isoformat.fromisoformat id midMorning (ParseHour.backText 1) =
      .ok nineOClock.toDatetime := by
  obtain ⟨htext, hprinted, hback⟩ := hour_spellings_agree id midMorning nineOClock
  exact ⟨htext, hprinted, hback 1 le_rfl (by decide)⟩

end Athena
