import Athena.Metrics.MountMetric

/-!
# Damaged metric files and odd exit statuses

Both emitters read the last success back from whatever bytes are at the output
path. The readers answer most damage with 0, but neither expects the
`OverflowError` of an infinite value, and the logger's expects every line of its
metric to have a value and every exit status to be a number.
-/

namespace Athena

inductive PromFile
  | missing
  | unreadable
  | content (bytes : Bytes)

/-- `path.read_text(encoding="utf-8")`. There is no text where `exists` or `open` fails or the
bytes are not UTF-8; both readers then answer as for a missing file. -/
def PromFile.readText : PromFile → Option (List Char)
  | missing => none
  | unreadable => none
  | content bytes =>
    (String.fromUTF8? bytes.toByteArray).map fun text => universalNewlines text.toList

theorem PromFile.readText_encodeUtf8 {text : String} (h : carriageReturn ∉ text.toList) :
    (PromFile.content (encodeUtf8 text)).readText = some text.toList := by
  have hlines := universalNewlines_append h []
  rw [List.append_nil] at hlines
  rw [readText, fromUTF8_encodeUtf8, Option.map_some, hlines, universalNewlines, List.append_nil]

def IsInfinite (word : List Char) : Prop := ∃ negative, parseFloat word = .ok (.inf negative)

/-- The value carried over from a word: its integer part if it is a finite number. -/
def carriedOver (word : Option (List Char)) : Int :=
  match word.map parseFloat with
  | some (.ok (.finite value)) => PyFloat.truncate value
  | _ => 0

/-- `int(float(word))` behind the handlers of both readers. -/
def readValue (word : List Char) : Except EmitErr Int :=
  match parseFloatInt word with
  | .ok n => .ok n
  | .error .valueError => .ok 0
  | .error .overflowError => .error .overflowError

theorem parseFloat_error {word : List Char} {e : NumeralErr} (h : parseFloat word = .error e) :
    e = .valueError := by
  unfold parseFloat at h
  dsimp only at h
  split_ifs at h
  split at h
  · cases h
  · cases h
    rfl

theorem readValue_of_isInfinite {word : List Char} (h : IsInfinite word) :
    readValue word = .error .overflowError := by
  obtain ⟨negative, hword⟩ := h
  rw [readValue, parseFloatInt, hword]
  rfl

theorem readValue_of_not_isInfinite {word : List Char} (h : ¬ IsInfinite word) :
    readValue word = .ok (carriedOver (some word)) := by
  unfold readValue carriedOver parseFloatInt
  rw [Option.map_some]
  cases hword : parseFloat word with
  | error e =>
    rw [parseFloat_error hword]
    rfl
  | ok x =>
    cases x with
    | nan => rfl
    | inf negative => exact absurd ⟨negative, hword⟩ h
    | finite value => rfl

/-- Only an infinite value goes wrong. -/
theorem not_isInfinite_of_readValue {word : List Char} {n : Int} (h : readValue word = .ok n) :
    ¬ IsInfinite word := by
  intro hinf
  rw [readValue_of_isInfinite hinf] at h
  cases h

namespace LoggerSync

def prevLine (output : Option (List Char)) : Option (List Char) :=
  output.bind fun text => (splitlines text).find? (MetricLine.IsOf lastSuccessSeconds)

/-- The text of the previous success. -/
def prevWord (output : Option (List Char)) : Option (List Char) :=
  (prevLine output).bind fun line => (words line)[1]?

/-- The first line of the metric, if there is one, has a value and no infinite one. -/
def ReadableFile (output : Option (List Char)) : Prop :=
  ∀ line, prevLine output = some line →
    ∃ word, (words line)[1]? = some word ∧ ¬ IsInfinite word

theorem readPrevLastSuccess_of_none {output : Option (List Char)} (h : prevLine output = none) :
    readPrevLastSuccess output = .ok 0 := by
  cases output with
  | none => rfl
  | some text =>
    have hline : (splitlines text).find? (MetricLine.IsOf lastSuccessSeconds) = none := h
    rw [readPrevLastSuccess, hline]

theorem readPrevLastSuccess_of_some {output : Option (List Char)} {line : List Char}
    (h : prevLine output = some line) :
    readPrevLastSuccess output =
      match (words line)[1]? with
      | none => .error .indexError
      | some word => readValue word := by
  cases output with
  | none => cases h
  | some text =>
    have hline : (splitlines text).find? (MetricLine.IsOf lastSuccessSeconds) = some line := h
    rw [readPrevLastSuccess, hline]
    rfl

theorem readPrevLastSuccess_of_readable {output : Option (List Char)} (h : ReadableFile output) :
    readPrevLastSuccess output = .ok (carriedOver (prevWord output)) := by
  cases hline : prevLine output with
  | none =>
    rw [readPrevLastSuccess_of_none hline, prevWord, hline]
    rfl
  | some line =>
    obtain ⟨word, hword, hfinite⟩ := h line hline
    rw [readPrevLastSuccess_of_some hline, prevWord, hline, Option.bind_some, hword]
    exact readValue_of_not_isInfinite hfinite

/-- On every other file it raises. -/
theorem readable_of_readPrevLastSuccess {output : Option (List Char)} {n : Int}
    (h : readPrevLastSuccess output = .ok n) : ReadableFile output := by
  intro line hline
  rw [readPrevLastSuccess_of_some hline] at h
  cases hword : (words line)[1]? with
  | none =>
    rw [hword] at h
    cases h
  | some word =>
    rw [hword] at h
    exact ⟨word, rfl, not_isInfinite_of_readValue h⟩

/-- The exit status is empty or a number. -/
def ReadableStatus (exitCode : String) : Prop :=
  strip exitCode.toList = [] ∨ ∃ n, parseInt (strip exitCode.toList) = .ok n

theorem readableStatus_iff {exitCode : String} :
    ReadableStatus exitCode ↔ ∃ code, parseExitCode exitCode.toList = .ok code := by
  unfold ReadableStatus parseExitCode
  dsimp only
  by_cases hempty : strip exitCode.toList = []
  · simp [hempty]
  · simp [hempty]

/-- The run ends with a complete new file: the exit code of the status, if it is one, and the
previous success carried over. -/
def Survives (output : Option (List Char)) (e : Emission) : Prop :=
  ∃ code, (∀ n, parseExitCode e.exitCode.toList = .ok n → code = n) ∧
    main output e = .ok (renderBody
      (if code ∈ successExitCodes then e.nowUnix else carriedOver (prevWord output))
      code e.duration)

theorem survives_iff (output : Option (List Char)) (e : Emission) :
    Survives output e ↔ ReadableStatus e.exitCode ∧ ReadableFile output := by
  rw [readableStatus_iff]
  constructor
  · intro h
    obtain ⟨code, -, hmain⟩ := h
    unfold main at hmain
    cases hcode : parseExitCode e.exitCode.toList with
    | error err =>
      rw [hcode] at hmain
      cases hmain
    | ok n =>
      rw [hcode] at hmain
      cases hprev : readPrevLastSuccess output with
      | error err =>
        rw [hprev] at hmain
        cases hmain
      | ok prev => exact ⟨⟨n, rfl⟩, readable_of_readPrevLastSuccess hprev⟩
  · intro h
    obtain ⟨⟨code, hcode⟩, hfile⟩ := h
    refine ⟨code, fun n hn => Except.ok.inj (hcode.symm.trans hn), ?_⟩
    unfold main
    rw [hcode, readPrevLastSuccess_of_readable hfile]

end LoggerSync

namespace MountMetric

/-- The text of the previous success of an action: the value on the first line of its metric
that has one. -/
def prevWord (output : Option (List Char)) (metric : MetricName) : Option (List Char) :=
  output.bind fun text =>
    ((splitlines text).filter (MetricLine.IsOf metric)).findSome? fun line => (words line)[1]?

theorem findTimestamp_eq (metric : MetricName) (lines : List (List Char)) :
    findTimestamp metric lines =
      match (lines.filter (MetricLine.IsOf metric)).findSome? fun line => (words line)[1]? with
      | none => .ok noPreviousTimestamp
      | some word => readValue word := by
  induction lines with
  | nil => rfl
  | cons line lines ih =>
    by_cases hof : MetricLine.IsOf metric line = true
    · rw [findTimestamp, if_pos hof, List.filter_cons_of_pos hof, List.findSome?_cons]
      -- a line of the metric without a value is passed over
      cases hwords : words line with
      | nil => exact ih
      | cons name values =>
        cases values with
        | nil => exact ih
        | cons word rest => rfl
    · rw [findTimestamp, if_neg hof, List.filter_cons_of_neg hof, ih]

/-- The value that the file holds for a metric, if any, is not infinite. -/
def ReadableMetric (output : Option (List Char)) (metric : MetricName) : Prop :=
  ∀ word, prevWord output metric = some word → ¬ IsInfinite word

theorem readPrevTimestamp_eq (output : Option (List Char)) (metric : MetricName) :
    readPrevTimestamp output metric =
      match prevWord output metric with
      | none => .ok noPreviousTimestamp
      | some word => readValue word := by
  cases output with
  | none => rfl
  | some text => exact findTimestamp_eq metric (splitlines text)

theorem readPrevTimestamp_of_readable {output : Option (List Char)} {metric : MetricName}
    (h : ReadableMetric output metric) :
    readPrevTimestamp output metric = .ok (carriedOver (prevWord output metric)) := by
  rw [readPrevTimestamp_eq]
  cases hword : prevWord output metric with
  | none => rfl
  | some word => exact readValue_of_not_isInfinite (h word hword)

theorem readable_of_readPrevTimestamp {output : Option (List Char)} {metric : MetricName} {n : Int}
    (h : readPrevTimestamp output metric = .ok n) : ReadableMetric output metric := by
  intro word hword
  rw [readPrevTimestamp_eq, hword] at h
  exact not_isInfinite_of_readValue h

/-- The timestamp, if there is one, is aware. -/
def Emission.Aware (e : Emission) : Prop :=
  ∀ ts, e.lastTransitionTs = some ts →
    ∃ offset, ts.tzinfo = some offset ∧ |offset ts.wall ts.fold| < 24 * microsPerHour

theorem toUnixSeconds_of_aware {e : Emission} (h : e.Aware) :
    ∃ transition, toUnixSeconds e.lastTransitionTs = .ok transition := by
  cases hts : e.lastTransitionTs with
  | none => exact ⟨_, rfl⟩
  | some ts =>
    obtain ⟨offset, hoffset, hshift⟩ := h ts hts
    unfold toUnixSeconds
    dsimp only
    rw [hoffset]
    dsimp only
    rw [if_pos hshift]
    cases PyFloat.ofRat (((ts.wall - offset ts.wall ts.fold : Int) : ℚ) / 1000000) with
    | nan => exact ⟨_, rfl⟩
    | inf negative => exact ⟨_, rfl⟩
    | finite seconds => exact ⟨_, rfl⟩

/-- The call ends with a complete new file: both previous successes carried over where the call
records none. -/
def Survives (output : Option (List Char)) (e : Emission) : Prop :=
  ∃ transition, toUnixSeconds e.lastTransitionTs = .ok transition ∧
    emit output e = .ok (renderBody e.state transition
      (updated "lock" e transition (carriedOver (prevWord output lastLockSuccess)))
      (updated "unlock" e transition (carriedOver (prevWord output lastUnlockSuccess))))

theorem survives_iff (output : Option (List Char)) {e : Emission} (he : e.Aware) :
    Survives output e ↔
      ReadableMetric output lastLockSuccess ∧ ReadableMetric output lastUnlockSuccess := by
  obtain ⟨transition, htransition⟩ := toUnixSeconds_of_aware he
  constructor
  · intro h
    obtain ⟨_, _, hemit⟩ := h
    unfold emit at hemit
    rw [htransition] at hemit
    cases hlock : readPrevTimestamp output lastLockSuccess with
    | error err =>
      rw [hlock] at hemit
      cases hemit
    | ok lock =>
      rw [hlock] at hemit
      cases hunlock : readPrevTimestamp output lastUnlockSuccess with
      | error err =>
        rw [hunlock] at hemit
        cases hemit
      | ok unlock =>
        exact ⟨readable_of_readPrevTimestamp hlock, readable_of_readPrevTimestamp hunlock⟩
  · intro h
    obtain ⟨hlock, hunlock⟩ := h
    refine ⟨transition, htransition, ?_⟩
    unfold emit
    rw [htransition, readPrevTimestamp_of_readable hlock, readPrevTimestamp_of_readable hunlock]
    rfl

end MountMetric

/-- Whatever is at the output path and whatever the exit status: the emitters replace the file
unless a value in it is infinite, or, for the logger, missing, or the status is no number. -/
theorem damaged_file_survived_iff (file : PromFile) (e : LoggerSync.Emission)
    (m : MountMetric.Emission) (hm : m.Aware) :
    (LoggerSync.Survives file.readText e ↔
      LoggerSync.ReadableStatus e.exitCode ∧ LoggerSync.ReadableFile file.readText) ∧
    (MountMetric.Survives file.readText m ↔
      MountMetric.ReadableMetric file.readText MountMetric.lastLockSuccess ∧
        MountMetric.ReadableMetric file.readText MountMetric.lastUnlockSuccess) :=
  ⟨LoggerSync.survives_iff file.readText e, MountMetric.survives_iff file.readText hm⟩

/-- A byte that is not UTF-8, an empty exit status and a call without a timestamp. -/
theorem damaged_file_survived_invalid :
    let file := PromFile.content [0xff]
    let e : LoggerSync.Emission := ⟨"", .nan, 1714000000⟩
    let m : MountMetric.Emission := ⟨.locked, none, none⟩
    (LoggerSync.Survives file.readText e ↔
      LoggerSync.ReadableStatus e.exitCode ∧ LoggerSync.ReadableFile file.readText) ∧
    (MountMetric.Survives file.readText m ↔
      MountMetric.ReadableMetric file.readText MountMetric.lastLockSuccess ∧
        MountMetric.ReadableMetric file.readText MountMetric.lastUnlockSuccess) := by
  intro file e m
  apply damaged_file_survived_iff
  intro ts hts
  cases hts

/-- A unit that timed out, a line without a value, and infinite values in either file. -/
theorem emitters_stopped :
    let file := fun line => (PromFile.content (encodeUtf8 line)).readText
    LoggerSync.main none ⟨"TERM", .nan, 1714000000⟩ = .error .systemExit ∧
    LoggerSync.main (file "athena_logger_sync_last_success_seconds ")
      ⟨"0", .nan, 1714000000⟩ = .error .indexError ∧
    LoggerSync.main (file "athena_logger_sync_last_success_seconds inf")
      ⟨"0", .nan, 1714000000⟩ = .error .overflowError ∧
    MountMetric.emit (file "athena_readonly_mount_last_lock_success_timestamp_seconds inf")
      ⟨.locked, none, none⟩ = .error .overflowError ∧
    ¬ (∀ file e, LoggerSync.Survives (PromFile.readText file) e) ∧
    ¬ (∀ file m, m.Aware → MountMetric.Survives (PromFile.readText file) m) := by
  intro file
  have hmount : MountMetric.emit
      (file "athena_readonly_mount_last_lock_success_timestamp_seconds inf")
      ⟨.locked, none, none⟩ = .error .overflowError := by
    simp only [file]
    rw [PromFile.readText_encodeUtf8 (by decide)]
    rfl
  refine ⟨rfl, ?_, ?_, hmount, ?_, ?_⟩
  · simp only [file]
    rw [PromFile.readText_encodeUtf8 (by decide)]
    rfl
  · simp only [file]
    rw [PromFile.readText_encodeUtf8 (by decide)]
    rfl
  · intro hall
    obtain ⟨code, -, hmain⟩ := hall .missing ⟨"TERM", .nan, 1714000000⟩
    cases hmain
  · intro hall
    obtain ⟨transition, -, hemit⟩ := hall (.content (encodeUtf8 _)) ⟨.locked, none, none⟩
      (fun ts hts => by cases hts)
    cases hmount.symm.trans hemit

end Athena
