import Athena.Core.Datetime
import Athena.Metrics.LoggerSync
import Athena.Mount.ReadonlyMount

/-!
# The metrics of the read-only mount

`MountMetric.emit` is `emit_readonly_mount_metric` on the file that an earlier
call left. Both last successes live in that file only; a call prints all four
metrics and the next one looks for two of them by name.
-/

namespace Athena

namespace MountMetric

def stateMetric : MetricName := ⟨"athena_readonly_mount_state".toList, by decide⟩

/-- The gauge of one member of the state metric. -/
def memberMetric : MountState → MetricName
  | .locked => ⟨"athena_readonly_mount_state\x7bstate=\"LOCKED\"\x7d".toList, by decide⟩
  | .unlocked => ⟨"athena_readonly_mount_state\x7bstate=\"UNLOCKED\"\x7d".toList, by decide⟩
  | .partially => ⟨"athena_readonly_mount_state\x7bstate=\"PARTIAL\"\x7d".toList, by decide⟩

def lastTransition : MetricName :=
  ⟨"athena_readonly_mount_last_transition_timestamp_seconds".toList, by decide⟩

def lastLockSuccess : MetricName :=
  ⟨"athena_readonly_mount_last_lock_success_timestamp_seconds".toList, by decide⟩

def lastUnlockSuccess : MetricName :=
  ⟨"athena_readonly_mount_last_unlock_success_timestamp_seconds".toList, by decide⟩

def noPreviousTimestamp : Int := 0

/-- `_to_unix_seconds`. An offset of a day or more is rejected by `utcoffset`. -/
def toUnixSeconds : Option Datetime → Except EmitErr Int
  | none => .ok noPreviousTimestamp
  | some ts =>
    match ts.tzinfo with
    | none => .error (.valueError ("emit_readonly_mount_metric: timestamps must be " ++
        "timezone-aware. Pass datetime.now(UTC) or LockTransition.timestamp_utc directly."))
    | some offset =>
      let shift := offset ts.wall ts.fold
      if |shift| < 24 * microsPerHour then
        match PyFloat.ofRat (((ts.wall - shift : Int) : ℚ) / 1000000) with
        | .finite seconds => .ok (PyFloat.truncate seconds)
        | .nan | .inf _ => .ok noPreviousTimestamp
      else .error (.valueError ("offset must be a timedelta strictly between " ++
        "-timedelta(hours=24) and timedelta(hours=24)"))

/-- The loop of `_read_prev_timestamp` over the lines of the file. -/
def findTimestamp (metric : MetricName) : List (List Char) → Except EmitErr Int
  | [] => .ok noPreviousTimestamp
  | line :: lines =>
    if MetricLine.IsOf metric line then
      match words line with
      | _ :: word :: _ =>
        match parseFloatInt word with
        | .ok n => .ok n
        | .error .valueError => .ok noPreviousTimestamp
        | .error .overflowError => .error .overflowError
      | _ => findTimestamp metric lines
    else findTimestamp metric lines

/-- `_read_prev_timestamp`, on the file at the output path if there is one. -/
def readPrevTimestamp (output : Option (List Char)) (metric : MetricName) : Except EmitErr Int :=
  match output with
  | none => .ok noPreviousTimestamp
  | some text => findTimestamp metric (splitlines text)

def members : List MountState := [.locked, .unlocked, .partially]

def bodyLines (state : MountState) (transition lockSuccess unlockSuccess : Int) :
    List MetricLine :=
  [MetricLine.help stateMetric "Current state of /var/lib/athena/policy.",
    MetricLine.gauge stateMetric] ++
  members.map (fun member =>
    MetricLine.sample (memberMetric member) (printInt (if member = state then 1 else 0))) ++
  [MetricLine.help lastTransition "Unix ts of last transition.",
    MetricLine.gauge lastTransition,
    MetricLine.sample lastTransition (printInt transition),
    MetricLine.help lastLockSuccess "Unix ts of last lock.",
    MetricLine.gauge lastLockSuccess,
    MetricLine.sample lastLockSuccess (printInt lockSuccess),
    MetricLine.help lastUnlockSuccess "Unix ts of last unlock.",
    MetricLine.gauge lastUnlockSuccess,
    MetricLine.sample lastUnlockSuccess (printInt unlockSuccess)]

def renderBody (state : MountState) (transition lockSuccess unlockSuccess : Int) : List Char :=
  render (bodyLines state transition lockSuccess unlockSuccess)

structure Emission where
  state : MountState
  lastTransitionTs : Option Datetime
  successfulAction : Option String

/-- `transition_unix or prev`, if the action is the one that succeeded. -/
def updated (action : String) (e : Emission) (transition prev : Int) : Int :=
  if e.successfulAction = some action then if transition ≠ 0 then transition else prev else prev

/-- `emit_readonly_mount_metric`: what the output file contains afterwards. -/
def emit (output : Option (List Char)) (e : Emission) : Except EmitErr (List Char) := do
  let transition ← toUnixSeconds e.lastTransitionTs
  let prevLock ← readPrevTimestamp output lastLockSuccess
  let prevUnlock ← readPrevTimestamp output lastUnlockSuccess
  return renderBody e.state transition (updated "lock" e transition prevLock)
    (updated "unlock" e transition prevUnlock)

def emitted (es : List Emission) : Except EmitErr (Option (List Char)) := emittedBy emit es

namespace Emission

/-- What `_to_unix_seconds` gives for the timestamp, if there is one. -/
def seconds (e : Emission) : Option Int :=
  e.lastTransitionTs.bind fun ts => (toUnixSeconds (some ts)).toOption

/-- The timestamp, if there is one, is mapped to a positive integer. -/
def Valid (e : Emission) : Prop :=
  ∀ ts, e.lastTransitionTs = some ts → ∃ n, toUnixSeconds (some ts) = .ok n ∧ 0 < n

/-- The success that the call records for an action. -/
def success (action : String) (e : Emission) : Option Int :=
  if e.successfulAction = some action then e.seconds else none

end Emission

/-- The seconds of the latest call that records a success of the action; 0 if there is none. -/
def lastSuccess (action : String) (es : List Emission) : Int :=
  ((es.filterMap (Emission.success action)).getLast?).getD 0

section Body

variable (state : MountState) (transition lockSuccess unlockSuccess : Int)

theorem findTimestamp_render (lines : List MetricLine) (metric : MetricName) {n : Int}
    (hn : |n| ≤ 2 ^ 53)
    (h : lines.find? (fun l => l.word = metric.val) = some (.sample metric (printInt n))) :
    findTimestamp metric (lines.map MetricLine.text) = .ok n := by
  induction lines with
  | nil => cases h
  | cons l lines ih =>
    by_cases hword : l.word = metric.val
    · rw [List.find?_cons_of_pos (by simpa using hword)] at h
      cases h
      have hof := (MetricLine.isOf_text metric _).mpr hword
      rw [List.map_cons, findTimestamp, if_pos hof, MetricLine.words_sample]
      dsimp only
      rw [parseFloatInt_printInt hn]
    · rw [List.find?_cons_of_neg (by simpa using hword)] at h
      have hof : ¬ MetricLine.IsOf metric l.text = true := fun hl =>
        hword ((MetricLine.isOf_text metric l).mp hl)
      rw [List.map_cons, findTimestamp, if_neg hof, ih h]

theorem readPrevTimestamp_lock {lockSuccess : Int} (hn : |lockSuccess| ≤ 2 ^ 53) :
    readPrevTimestamp (some (renderBody state transition lockSuccess unlockSuccess))
      lastLockSuccess = .ok lockSuccess := by
  rw [readPrevTimestamp, renderBody, splitlines_render]
  exact findTimestamp_render _ _ hn rfl

theorem readPrevTimestamp_unlock {unlockSuccess : Int} (hn : |unlockSuccess| ≤ 2 ^ 53) :
    readPrevTimestamp (some (renderBody state transition lockSuccess unlockSuccess))
      lastUnlockSuccess = .ok unlockSuccess := by
  rw [readPrevTimestamp, renderBody, splitlines_render]
  exact findTimestamp_render _ _ hn rfl

end Body

theorem abs_toUnixSeconds_le {ts : Datetime} {n : Int} (h : toUnixSeconds (some ts) = .ok n) :
    |n| ≤ 2 ^ 53 := by
  have hwall := ts.wall_bounds
  have hlimit : Datetime.wallLimit = 253402300800000000 := by decide
  unfold toUnixSeconds at h
  dsimp only at h
  cases htz : ts.tzinfo with
  | none => rw [htz] at h; cases h
  | some offset =>
    rw [htz] at h
    dsimp only at h
    split_ifs at h with hshift
    have hmicros : |ts.wall - offset ts.wall ts.fold| ≤ 300000000000000000 := by
      unfold microsPerHour at hshift
      rw [abs_lt] at hshift
      rw [abs_le]
      omega
    generalize hq : ((ts.wall - offset ts.wall ts.fold : Int) : ℚ) / 1000000 = q at h
    have hsmall : |q| ≤ 300000000000 := by
      have hcast : |((ts.wall - offset ts.wall ts.fold : Int) : ℚ)| ≤ 300000000000000000 := by
        exact_mod_cast hmicros
      rw [← hq, abs_div, abs_of_pos (by norm_num : (0 : ℚ) < 1000000), div_le_iff₀ (by norm_num)]
      linarith
    have hnearest : |Binary64.nearest q| ≤ ((2 ^ 53 : Int) : ℚ) := by
      have hdouble := Binary64.abs_nearest_le q
      push_cast
      linarith
    unfold PyFloat.ofRat at h
    split_ifs at h with hinf
    · cases h
      decide
    · cases h
      exact PyFloat.abs_truncate_le hnearest

namespace Emission

variable {e : Emission} {action : String}

theorem success_bounds (he : e.Valid) {n : Int} (h : e.success action = some n) :
    0 < n ∧ n ≤ 2 ^ 53 := by
  unfold success seconds at h
  split_ifs at h
  obtain ⟨ts, hts, hn⟩ := Option.bind_eq_some_iff.mp h
  obtain ⟨m, hm, hpos⟩ := he ts hts
  rw [hm] at hn
  cases hn
  exact ⟨hpos, (abs_le.mp (abs_toUnixSeconds_le hm)).2⟩

theorem updated_eq (he : e.Valid) {transition : Int}
    (h : toUnixSeconds e.lastTransitionTs = .ok transition) (prev : Int) :
    updated action e transition prev = (e.success action).getD prev := by
  unfold updated success seconds
  cases hts : e.lastTransitionTs with
  | none =>
    rw [hts] at h
    cases h
    simp [noPreviousTimestamp]
  | some ts =>
    obtain ⟨m, hm, hpos⟩ := he ts hts
    rw [hts, hm] at h
    cases h
    by_cases haction : e.successfulAction = some action
    · simp [haction, hm, Except.toOption, hpos.ne']
    · simp [haction]

end Emission

theorem lastSuccess_append (action : String) (es : List Emission) (e : Emission) :
    lastSuccess action (es ++ [e]) = (e.success action).getD (lastSuccess action es) := by
  unfold lastSuccess
  rw [List.filterMap_append]
  cases h : e.success action <;> simp [h]

theorem lastSuccess_bounds (action : String) {es : List Emission} (h : ∀ e ∈ es, e.Valid) :
    0 ≤ lastSuccess action es ∧ lastSuccess action es ≤ 2 ^ 53 := by
  induction es using List.reverseRecOn with
  | nil => exact ⟨le_rfl, (by decide : (0 : Int) ≤ 2 ^ 53)⟩
  | append_singleton es e ih =>
    rw [lastSuccess_append]
    cases hsuccess : e.success action with
    | none => exact ih fun x hx => h x (List.mem_append_left _ hx)
    | some n =>
      obtain ⟨hpos, hle⟩ := Emission.success_bounds (h e (by simp)) hsuccess
      exact ⟨hpos.le, hle⟩

/-- One call, on a file whose last successes can be read. -/
theorem emit_eq {output : Option (List Char)} {e : Emission} {lock unlock : Int} (he : e.Valid)
    (hlock : readPrevTimestamp output lastLockSuccess = .ok lock)
    (hunlock : readPrevTimestamp output lastUnlockSuccess = .ok unlock) :
    ∃ transition, emit output e =
      .ok (renderBody e.state transition ((e.success "lock").getD lock)
        ((e.success "unlock").getD unlock)) := by
  have htransition : ∃ transition, toUnixSeconds e.lastTransitionTs = .ok transition := by
    cases hts : e.lastTransitionTs with
    | none => exact ⟨_, rfl⟩
    | some ts =>
      obtain ⟨n, hn, -⟩ := he ts hts
      exact ⟨n, hn⟩
  obtain ⟨transition, htransition⟩ := htransition
  refine ⟨transition, ?_⟩
  rw [← Emission.updated_eq he htransition, ← Emission.updated_eq he htransition]
  unfold emit
  rw [htransition, hlock, hunlock]
  rfl

/-- The file always holds both last successes, by induction on the calls. -/
theorem emitted_readable {es : List Emission} (h : ∀ e ∈ es, e.Valid) :
    ∃ output, emitted es = .ok output ∧
      readPrevTimestamp output lastLockSuccess = .ok (lastSuccess "lock" es) ∧
      readPrevTimestamp output lastUnlockSuccess = .ok (lastSuccess "unlock" es) := by
  induction es using List.reverseRecOn with
  | nil => exact ⟨none, rfl, rfl, rfl⟩
  | append_singleton es e ih =>
    obtain ⟨output, houtput, hlock, hunlock⟩ := ih fun x hx => h x (List.mem_append_left _ hx)
    obtain ⟨transition, hemit⟩ := emit_eq (h e (by simp)) hlock hunlock
    have hlockBounds := lastSuccess_bounds "lock" h
    have hunlockBounds := lastSuccess_bounds "unlock" h
    rw [lastSuccess_append] at hlockBounds hunlockBounds ⊢
    rw [lastSuccess_append]
    refine ⟨_, emittedBy_append_ok houtput hemit, ?_, ?_⟩
    · exact readPrevTimestamp_lock e.state transition _ (abs_le.mpr ⟨by omega, hlockBounds.2⟩)
    · exact readPrevTimestamp_unlock e.state transition _ (abs_le.mpr ⟨by omega, hunlockBounds.2⟩)

/-- After every call the file holds the seconds of the latest lock and of the latest unlock,
and a call changes the gauge of its own action only. -/
theorem mount_metric_runs (es : List Emission) (e : Emission) (h : ∀ x ∈ es ++ [e], x.Valid) :
    ∃ before after, emitted es = .ok before ∧ emitted (es ++ [e]) = .ok (some after) ∧
      readPrevTimestamp (some after) lastLockSuccess = .ok (lastSuccess "lock" (es ++ [e])) ∧
      readPrevTimestamp (some after) lastUnlockSuccess =
        .ok (lastSuccess "unlock" (es ++ [e])) ∧
      (e.successfulAction ≠ some "lock" →
        readPrevTimestamp (some after) lastLockSuccess =
          readPrevTimestamp before lastLockSuccess) ∧
      (e.successfulAction ≠ some "unlock" →
        readPrevTimestamp (some after) lastUnlockSuccess =
          readPrevTimestamp before lastUnlockSuccess) := by
  obtain ⟨before, hbefore, hlock, hunlock⟩ :=
    emitted_readable fun x hx => h x (List.mem_append_left _ hx)
  obtain ⟨transition, hemit⟩ := emit_eq (h e (by simp)) hlock hunlock
  have hafter := emittedBy_append_ok hbefore hemit
  obtain ⟨output, houtput, hlockAfter, hunlockAfter⟩ := emitted_readable h
  cases hafter.symm.trans houtput
  have hother : ∀ action, e.successfulAction ≠ some action →
      lastSuccess action (es ++ [e]) = lastSuccess action es := by
    intro action haction
    rw [lastSuccess_append, Emission.success, if_neg haction]
    rfl
  refine ⟨before, _, hbefore, hafter, hlockAfter, hunlockAfter, ?_, ?_⟩
  · intro haction
    rw [hlockAfter, hlock, hother "lock" haction]
  · intro haction
    rw [hunlockAfter, hunlock, hother "unlock" haction]

theorem toUnixSeconds_exact {ts : Datetime} {offset : Int → Bool → Int} {n : Int}
    (htz : ts.tzinfo = some offset) (hshift : |offset ts.wall ts.fold| < 24 * microsPerHour)
    (hwhole : ts.wall - offset ts.wall ts.fold = n * 1000000) (hn : |n| ≤ 2 ^ 53) :
    toUnixSeconds (some ts) = .ok n := by
  have hdiv : ((n * 1000000 : Int) : ℚ) / 1000000 = (n : ℚ) := by
    push_cast
    exact mul_div_cancel_right₀ _ (by norm_num)
  unfold toUnixSeconds
  dsimp only
  rw [htz]
  dsimp only
  rw [if_pos hshift, hwhole, hdiv, PyFloat.ofRat_intCast hn]
  exact congrArg Except.ok (PyFloat.truncate_intCast n)

def sampleHour : UtcHour := ⟨⟨2027, 5, 24, by decide, by decide⟩, by decide, ⟨9, by decide⟩⟩

theorem toUnixSeconds_sampleHour : toUnixSeconds (some sampleHour.toDatetime) = .ok 1811149200 := by
  refine toUnixSeconds_exact rfl (by decide) ?_ (by decide)
  rw [UtcHour.wall_toDatetime]
  rfl

/-- A lock, and an unlock that brings no timestamp. -/
theorem mount_metric_runs_lock :
    let lock : Emission := ⟨.locked, some sampleHour.toDatetime, some "lock"⟩
    let refresh : Emission := ⟨.partially, none, some "unlock"⟩
    ∃ before after, emitted [lock] = .ok before ∧ emitted ([lock] ++ [refresh]) = .ok (some after) ∧
      readPrevTimestamp (some after) lastLockSuccess =
        .ok (lastSuccess "lock" ([lock] ++ [refresh])) ∧
      readPrevTimestamp (some after) lastUnlockSuccess =
        .ok (lastSuccess "unlock" ([lock] ++ [refresh])) ∧
      (refresh.successfulAction ≠ some "lock" →
        readPrevTimestamp (some after) lastLockSuccess =
          readPrevTimestamp before lastLockSuccess) ∧
      (refresh.successfulAction ≠ some "unlock" →
        readPrevTimestamp (some after) lastUnlockSuccess =
          readPrevTimestamp before lastUnlockSuccess) := by
  intro lock refresh
  apply mount_metric_runs
  intro x hx ts hts
  simp only [List.cons_append, List.nil_append, List.mem_cons, List.not_mem_nil, or_false] at hx
  rcases hx with rfl | rfl
  · cases hts
    exact ⟨_, toUnixSeconds_sampleHour, by decide⟩
  · cases hts

end MountMetric

end Athena
