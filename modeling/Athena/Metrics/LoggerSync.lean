import Athena.Metrics.Textfile

/-!
# The metrics of the logger sync

`LoggerSync.main` is `emit_logger_sync_metric.main` on the file that an earlier
run left: the last success lives in that file only, printed by one run and
parsed by the next. The sweep of stale temporary files is left out; it does
not touch the output file.
-/

namespace Athena

/-- The exceptions that end an emitter; `systemExit` is a usage error of the command line. -/
inductive EmitErr
  | systemExit
  | valueError (message : String)
  | overflowError
  | indexError
  deriving DecidableEq, Repr

/-- The text that `str` gives for a finite float. -/
structure FloatRepr where
  text : List Char
  isWord : IsWord text
  finite : ∃ value, parseFloat text = .ok (.finite value)

/-- A float given as an argument. -/
inductive FloatArg
  | nan
  | inf (negative : Bool)
  | finite (repr : FloatRepr)

namespace LoggerSync

def successExitCodes : List Int := [0, 23, 24, 30]

def unknownExitCode : Int := -1

def lastSuccessSeconds : MetricName := ⟨"athena_logger_sync_last_success_seconds".toList, by decide⟩

def lastExitCode : MetricName := ⟨"athena_logger_sync_last_exit_code".toList, by decide⟩

def durationSeconds : MetricName := ⟨"athena_logger_sync_duration_seconds".toList, by decide⟩

def parseExitCode (raw : List Char) : Except NumeralErr Int :=
  let stripped := strip raw
  if stripped = [] then .ok unknownExitCode else parseInt stripped

/-- `_read_prev_last_success`, on the file at the output path if there is one. -/
def readPrevLastSuccess : Option (List Char) → Except EmitErr Int
  | none => .ok 0
  | some text =>
    match (splitlines text).find? (MetricLine.IsOf lastSuccessSeconds) with
    | none => .ok 0
    | some line =>
      match (words line)[1]? with
      | none => .error .indexError
      | some word =>
        match parseFloatInt word with
        | .ok n => .ok n
        | .error .valueError => .ok 0
        | .error .overflowError => .error .overflowError

def zeroRepr : FloatRepr := ⟨"0.0".toList, by decide, 0, parseFloat_zero⟩

/-- `_sanitise_duration`, printed. -/
def sanitiseDuration : FloatArg → FloatRepr
  | .finite repr => repr
  | .nan | .inf _ => zeroRepr

def bodyLines (lastSuccess exitCode : Int) (duration : FloatArg) : List MetricLine :=
  [.help lastSuccessSeconds "Unix timestamp of last successful rsync.",
    .gauge lastSuccessSeconds,
    .sample lastSuccessSeconds (printInt lastSuccess),
    .help lastExitCode "Last rsync exit code.",
    .gauge lastExitCode,
    .sample lastExitCode (printInt exitCode),
    .help durationSeconds "Last rsync duration.",
    .gauge durationSeconds,
    .sample durationSeconds ⟨(sanitiseDuration duration).text, (sanitiseDuration duration).isWord⟩]

def renderBody (lastSuccess exitCode : Int) (duration : FloatArg) : List Char :=
  render (bodyLines lastSuccess exitCode duration)

/-- The command line of a run, and its `int(time.time())`. -/
structure Emission where
  exitCode : String
  duration : FloatArg
  nowUnix : Int

/-- `main`: what the output file contains afterwards. -/
def main (output : Option (List Char)) (e : Emission) : Except EmitErr (List Char) :=
  match parseExitCode e.exitCode.toList with
  | .error _ => .error .systemExit
  | .ok exitCode =>
    match readPrevLastSuccess output with
    | .error err => .error err
    | .ok prevLastSuccess =>
      let lastSuccess := if exitCode ∈ successExitCodes then e.nowUnix else prevLastSuccess
      .ok (renderBody lastSuccess exitCode e.duration)

def emitted (es : List Emission) : Except EmitErr (Option (List Char)) := emittedBy main es

namespace Emission

def code (e : Emission) : Option Int := (parseExitCode e.exitCode.toList).toOption

def Succeeded (e : Emission) : Prop := ∃ code ∈ e.code, code ∈ successExitCodes

instance (e : Emission) : Decidable e.Succeeded := inferInstanceAs (Decidable (∃ _ ∈ e.code, _))

/-- The exit code is one, and the clock reads between 1 and `2 ^ 53` seconds. -/
def Valid (e : Emission) : Prop := e.code.isSome ∧ 1 ≤ e.nowUnix ∧ e.nowUnix ≤ 2 ^ 53

instance (e : Emission) : Decidable e.Valid := inferInstanceAs (Decidable (_ ∧ _ ∧ _))

end Emission

/-- The clock reading of the latest successful run; 0 if there was none. -/
def lastSuccess (es : List Emission) : Int :=
  ((es.filter fun e => e.Succeeded).getLast?.map Emission.nowUnix).getD 0

section Body

variable (n exitCode : Int) (duration : FloatArg)

theorem samples_lastSuccessSeconds :
    samples (renderBody n exitCode duration) lastSuccessSeconds = [(strInt n).toList] := by
  rw [renderBody, samples_render]
  rfl

theorem samples_lastExitCode :
    samples (renderBody n exitCode duration) lastExitCode = [(strInt exitCode).toList] := by
  rw [renderBody, samples_render]
  rfl

theorem samples_durationSeconds :
    samples (renderBody n exitCode duration) durationSeconds =
      [(sanitiseDuration duration).text] := by
  rw [renderBody, samples_render]
  rfl

theorem readPrevLastSuccess_renderBody {n : Int} (hn : 0 ≤ n ∧ n ≤ 2 ^ 53) :
    readPrevLastSuccess (some (renderBody n exitCode duration)) = .ok n := by
  have hline : (splitlines (renderBody n exitCode duration)).find?
      (MetricLine.IsOf lastSuccessSeconds) =
        some (MetricLine.sample lastSuccessSeconds (printInt n)).text := by
    rw [renderBody, find_render]
    rfl
  unfold readPrevLastSuccess
  dsimp only
  rw [hline]
  dsimp only
  rw [MetricLine.words_sample]
  dsimp only [List.getElem?_cons_succ, List.getElem?_cons_zero]
  rw [parseFloatInt_printInt (abs_le.mpr ⟨by omega, hn.2⟩)]

end Body

/-- One run, on a file whose last success can be read. -/
theorem main_eq {output : Option (List Char)} {e : Emission} {prev : Int} (he : e.Valid)
    (hprev : readPrevLastSuccess output = .ok prev) :
    ∃ code, e.code = some code ∧
      main output e = .ok (renderBody (if e.Succeeded then e.nowUnix else prev) code e.duration)
      := by
  obtain ⟨code, hcode⟩ := Option.isSome_iff_exists.mp he.1
  have hsucceeded : code ∈ successExitCodes ↔ e.Succeeded := by
    unfold Emission.Succeeded
    rw [hcode]
    simp
  have hparse : parseExitCode e.exitCode.toList = .ok code := by
    unfold Emission.code at hcode
    cases hraw : parseExitCode e.exitCode.toList with
    | error err => rw [hraw] at hcode; cases hcode
    | ok raw => rw [hraw] at hcode; cases hcode; rfl
  refine ⟨code, hcode, ?_⟩
  unfold main
  rw [hparse]
  dsimp only
  rw [hprev]
  dsimp only
  simp only [hsucceeded]

theorem lastSuccess_append (es : List Emission) (e : Emission) :
    lastSuccess (es ++ [e]) = if e.Succeeded then e.nowUnix else lastSuccess es := by
  unfold lastSuccess
  by_cases h : e.Succeeded <;> simp [h]

theorem lastSuccess_bounds {es : List Emission} (h : ∀ e ∈ es, e.Valid) :
    0 ≤ lastSuccess es ∧ lastSuccess es ≤ 2 ^ 53 := by
  induction es using List.reverseRecOn with
  | nil => exact ⟨le_rfl, by decide⟩
  | append_singleton es e ih =>
    have he := h e (by simp)
    rw [lastSuccess_append]
    split_ifs
    · exact ⟨by have := he.2.1; omega, he.2.2⟩
    · exact ih fun x hx => h x (List.mem_append_left _ hx)

/-- The file always holds the last success, by induction on the runs. -/
theorem emitted_readable {es : List Emission} (h : ∀ e ∈ es, e.Valid) :
    ∃ output, emitted es = .ok output ∧ readPrevLastSuccess output = .ok (lastSuccess es) := by
  induction es using List.reverseRecOn with
  | nil => exact ⟨none, rfl, rfl⟩
  | append_singleton es e ih =>
    obtain ⟨output, houtput, hread⟩ := ih fun x hx => h x (List.mem_append_left _ hx)
    obtain ⟨code, -, hmain⟩ := main_eq (h e (by simp)) hread
    have hbounds := lastSuccess_bounds h
    rw [lastSuccess_append] at hbounds ⊢
    refine ⟨_, emittedBy_append_ok houtput hmain, ?_⟩
    exact readPrevLastSuccess_renderBody code e.duration hbounds

/-- After every run the file has one sample for each gauge: the last success, the exit code of
the run, and a finite duration. -/
theorem logger_sync_runs (es : List Emission) (e : Emission) (h : ∀ x ∈ es ++ [e], x.Valid) :
    ∃ text code duration value, emitted (es ++ [e]) = .ok (some text) ∧
      samples text lastSuccessSeconds = [(strInt (lastSuccess (es ++ [e]))).toList] ∧
      e.code = some code ∧ samples text lastExitCode = [(strInt code).toList] ∧
      samples text durationSeconds = [duration] ∧
      parseFloat duration = .ok (.finite value) := by
  obtain ⟨output, houtput, hread⟩ :=
    emitted_readable fun x hx => h x (List.mem_append_left _ hx)
  obtain ⟨code, hcode, hmain⟩ := main_eq (h e (by simp)) hread
  obtain ⟨value, hvalue⟩ := (sanitiseDuration e.duration).finite
  refine ⟨_, code, _, value, emittedBy_append_ok houtput hmain, ?_, hcode,
    samples_lastExitCode _ code _, samples_durationSeconds _ code e.duration, hvalue⟩
  rw [samples_lastSuccessSeconds, lastSuccess_append]

/-- A success, an aborted unit and a hard failure with a duration that is not a number. -/
theorem logger_sync_runs_failures :
    ∃ text code duration value,
      emitted ([⟨"23", .nan, 1714000000⟩, ⟨"", .inf false, 1714000060⟩] ++
        [⟨"12", .nan, 1714000120⟩]) = .ok (some text) ∧
      samples text lastSuccessSeconds = [(strInt (lastSuccess
        ([⟨"23", .nan, 1714000000⟩, ⟨"", .inf false, 1714000060⟩] ++
          [⟨"12", .nan, 1714000120⟩]))).toList] ∧
      (⟨"12", .nan, 1714000120⟩ : Emission).code = some code ∧
      samples text lastExitCode = [(strInt code).toList] ∧
      samples text durationSeconds = [duration] ∧
      parseFloat duration = .ok (.finite value) := by
  apply logger_sync_runs
  decide

end LoggerSync

end Athena
