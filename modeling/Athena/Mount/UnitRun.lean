import Athena.Metrics.Damaged
import Athena.Mount.Service
import Athena.Mount.TradingDay

/-!
# The lock and unlock units over whole runs

A unit runs the trading-day check, then the command, and after the end of either
`emit_readonly_mount_metric.py`, which probes the flags itself. Units follow one
another in any order, and the operator may change flags in between. What a unit
does after a failed check is up to systemd and left open.
-/

namespace Athena

/-- The two actions, each with a unit of its own. -/
inductive MountAction
  | lock
  | unlock
  deriving DecidableEq, Repr

namespace MountAction

def text : MountAction → String
  | lock => "lock"
  | unlock => "unlock"

def command : MountAction → MountCommand
  | lock => .lock
  | unlock => .unlock

/-- The flag that the action gives to the protected files. -/
def flag : MountAction → Bool
  | lock => true
  | unlock => false

def targetState : MountAction → MountState
  | lock => .locked
  | unlock => .unlocked

end MountAction

namespace EmitMountMetric

def unknownExit : Int := -1

def parseExitCode (raw : List Char) : Int :=
  let stripped := strip raw
  if stripped = [] then unknownExit
  else
    match parseInt stripped with
    | .ok code => code
    | .error _ => unknownExit

def actualState (x : ChattrExecutor) (h : Host) : MountState × Host :=
  match (ReadonlyMountController.withDefaults x).status h with
  | (.ok state, h) => (state, h)
  | (.error _, h) => (.partially, h)

def emission (action : MountAction) (exitCode : List Char) (state : MountState) (now : Datetime) :
    MountMetric.Emission where
  state := state
  lastTransitionTs := some now
  successfulAction :=
    if parseExitCode exitCode = 0 ∧ state = action.targetState then some action.text else none

end EmitMountMetric

namespace MountUnits

/-- One activation of a unit: what its three processes meet. Where `$EXIT_STATUS` is not set,
`--exit-code` is left without an argument. -/
structure Activation where
  action : MountAction
  check : CheckTradingDay.Check
  executor : ChattrExecutor
  startedAt : Int
  exitStatus : Option (List Char)
  prober : ChattrExecutor
  stoppedAt : Datetime

inductive Event
  | unit (a : Activation)
  | operator (flags : PurePosixPath → Bool)

structure System where
  host : Host
  metrics : Option (List Char)

/-- All files mutable, and no metrics yet. -/
def System.start : System := ⟨⟨fun _ => false, 0⟩, none⟩

-- whether systemd goes on to `ExecStart` when `ExecStartPre` ends in a status
variable (startsAfter : ℕ → Bool)

namespace Activation

def hostAfter (a : Activation) (h : Host) : Host :=
  if startsAfter (CheckTradingDay.main a.check).1 then
    (MountCommand.main a.executor false a.action.command a.startedAt h).2
  else h

/-- `ExecStopPost`. A usage error comes before anything is probed or written. -/
def stopPost (a : Activation) (s : System) : Except EmitErr System :=
  match a.exitStatus with
  | none => .ok s
  | some exitCode =>
    let (state, h) := EmitMountMetric.actualState a.prober s.host
    (MountMetric.emit s.metrics
      (EmitMountMetric.emission a.action exitCode state a.stoppedAt)).map fun text =>
        ⟨h, some text⟩

end Activation

def step (s : System) : Event → Except EmitErr System
  | .unit a => a.stopPost { s with host := a.hostAfter startsAfter s.host }
  | .operator flags => .ok { s with host := { s.host with immutable := flags } }

def run (events : List Event) : Except EmitErr System :=
  events.foldlM (step startsAfter) System.start

theorem run_append (events : List Event) (e : Event) :
    run startsAfter (events ++ [e]) =
      (run startsAfter events).bind fun s => step startsAfter s e := by
  unfold run
  rw [List.foldlM_append]
  simp only [List.foldlM_cons, List.foldlM_nil, bind_pure]
  rfl

end MountUnits

section Transitions

open ReadonlyMountController

theorem transition_frame (c : ReadonlyMountController) (target : Bool) (now : Int) (h : Host)
    {p : PurePosixPath} (hp : p ∉ c.protectedPaths) :
    (c.transition target now h).2.immutable p = h.immutable p := by
  obtain ⟨-, himm, -⟩ := status_spec c h
  unfold transition
  generalize c.status h = out at *
  obtain ⟨result, h₁⟩ := out
  dsimp only at himm
  cases result with
  | error e => exact congrFun himm p
  | ok previous =>
    have hloop := foldl_cycle_frame c.executor target c.protectedPaths ⟨[], none, h₁⟩ hp
    obtain ⟨-, himm₂, -⟩ := status_spec c
      (c.protectedPaths.foldl (cycle c.executor target) ⟨[], none, h₁⟩).host
    dsimp only at hloop ⊢
    rw [himm, ← himm₂] at hloop
    rw [← hloop]
    generalize c.status _ = out
    obtain ⟨result, h₂⟩ := out
    cases result <;> rfl

/-- A transition never moves a flag away from its target. -/
theorem transition_keeps (c : ReadonlyMountController) (hd : c.protectedPaths.Nodup)
    (target : Bool) (now : Int) {h : Host} {p : PurePosixPath} (hp : h.immutable p = target) :
    (c.transition target now h).2.immutable p = target := by
  by_cases hmem : p ∈ c.protectedPaths
  · obtain ⟨i, hi, rfl⟩ := List.mem_iff_getElem.mp hmem
    exact (transition_flag target c hd now h i hi).mpr (.inl hp)
  · rw [transition_frame c target now h hmem, hp]

theorem defaultProtectedPaths_nodup : defaultProtectedPaths.Nodup := by decide

theorem mountCommand_host (x : ChattrExecutor) (action : MountAction) (now : Int) (h : Host) :
    (MountCommand.main x false action.command now h).2 =
      ((withDefaults x).transition action.flag now h).2 := by
  cases action with
  | lock => exact MountCommand.cmdLock_host x now h
  | unlock =>
    simp only [MountCommand.main, MountAction.command, MountCommand.dispatch,
      MountCommand.cmdUnlock, ReadonlyMountController.unlock, MountAction.flag]
    generalize (withDefaults x).transition false now h = out
    obtain ⟨result, h'⟩ := out
    cases result <;> rfl

end Transitions

namespace EmitMountMetric

open ReadonlyMountController

/-- No probe of the status read fails. -/
def Probed (x : ChattrExecutor) (h : Host) : Prop :=
  ∀ i (hi : i < defaultProtectedPaths.length),
    x.probeFault (h.probes + i) defaultProtectedPaths[i] = none

theorem actualState_immutable (x : ChattrExecutor) (h : Host) :
    (actualState x h).2.immutable = h.immutable := by
  obtain ⟨-, himm, -⟩ := status_spec (withDefaults x) h
  unfold actualState
  generalize (withDefaults x).status h = out at *
  obtain ⟨result, h'⟩ := out
  cases result <;> exact himm

theorem classifyState_eq_iff (action : MountAction) {n total : ℕ} (htotal : 0 < total) :
    classifyState n total = action.targetState ↔
      n = match action with
        | .lock => total
        | .unlock => 0 := by
  unfold classifyState
  cases action <;> simp only [MountAction.targetState] <;> split_ifs <;> simp <;> omega

theorem countP_eq_iff (action : MountAction) (flags : PurePosixPath → Bool)
    (ps : List PurePosixPath) :
    (ps.countP flags = match action with
      | .lock => ps.length
      | .unlock => 0) ↔ ∀ p ∈ ps, flags p = action.flag := by
  cases action with
  | lock => exact List.countP_eq_length
  | unlock =>
    rw [List.countP_eq_zero]
    simp only [MountAction.flag, Bool.not_eq_true]

/-- The published state is the target of an action exactly when the flags are. A probe that
fails gives neither. -/
theorem actualState_eq_iff (x : ChattrExecutor) (action : MountAction) (h : Host) :
    (actualState x h).1 = action.targetState ↔
      Probed x h ∧ ∀ p ∈ defaultProtectedPaths, h.immutable p = action.flag := by
  have hprobed : (∃ n, (countImmutable x defaultProtectedPaths h).1 = .ok n) ↔ Probed x h :=
    (countImmutable_spec x defaultProtectedPaths h).1
  have hcount := countImmutable_ok x defaultProtectedPaths h
  rw [actualState, ReadonlyMountController.status, withDefaults]
  generalize countImmutable x defaultProtectedPaths h = out at *
  obtain ⟨result, h'⟩ := out
  cases result with
  | error e =>
    have hfail : ¬ Probed x h := fun hp => by
      obtain ⟨n, hn⟩ := hprobed.mpr hp
      cases hn
    refine iff_of_false ?_ fun hall => hfail hall.1
    cases action <;> exact nofun
  | ok n =>
    have hlength : 0 < defaultProtectedPaths.length := by decide
    rw [and_iff_right (hprobed.mp ⟨n, rfl⟩), ← countP_eq_iff, ← hcount n rfl]
    exact classifyState_eq_iff action hlength

end EmitMountMetric

namespace MountUnits

open ReadonlyMountController EmitMountMetric

variable (startsAfter : ℕ → Bool)

def Event.hostAfter : Event → Host → Host
  | .unit a, h =>
    match a.exitStatus with
    | none => a.hostAfter startsAfter h
    | some _ => (actualState a.prober (a.hostAfter startsAfter h)).2
  | .operator flags, h => { h with immutable := flags }

/-- The activation, on this host, ends in status 0 with every protected file as it should be. -/
def Activation.Achieves (a : Activation) (h : Host) : Prop :=
  (∃ exitCode ∈ a.exitStatus, parseExitCode exitCode = 0) ∧
    Probed a.prober (a.hostAfter startsAfter h) ∧
    ∀ p ∈ defaultProtectedPaths, (a.hostAfter startsAfter h).immutable p = a.action.flag

instance (a : Activation) (h : Host) : Decidable (a.Achieves startsAfter h) := by
  unfold Activation.Achieves Probed
  infer_instance

/-- The activations of an action that achieve it, from a host on. -/
def achieved (action : MountAction) : List Event → Host → List Activation
  | [], _ => []
  | .operator flags :: es, h => achieved action es { h with immutable := flags }
  | .unit a :: es, h =>
    if a.action = action ∧ a.Achieves startsAfter h then
      a :: achieved action es ((Event.unit a).hostAfter startsAfter h)
    else achieved action es ((Event.unit a).hostAfter startsAfter h)

def hostAlong (events : List Event) (h : Host) : Host :=
  events.foldl (fun h e => e.hostAfter startsAfter h) h

theorem hostAlong_append (before after : List Event) (h : Host) :
    hostAlong startsAfter (before ++ after) h =
      hostAlong startsAfter after (hostAlong startsAfter before h) := List.foldl_append

theorem achieved_append (action : MountAction) (before after : List Event) (h : Host) :
    achieved startsAfter action (before ++ after) h = achieved startsAfter action before h ++
      achieved startsAfter action after (hostAlong startsAfter before h) := by
  induction before generalizing h with
  | nil => rfl
  | cons e before ih =>
    rw [hostAlong, List.foldl_cons, ← hostAlong, List.cons_append]
    cases e with
    | operator flags => exact ih _
    | unit a =>
      rw [achieved, achieved, ih]
      split_ifs
      · rfl
      · rfl

/-- The clock of every emission is a time that can be printed. -/
def ValidClocks (events : List Event) : Prop :=
  ∀ a, .unit a ∈ events → ∃ n, MountMetric.toUnixSeconds (some a.stoppedAt) = .ok n ∧ 0 < n

/-- The seconds of the latest activation that has achieved the action; 0 if there is none. -/
def lastAchieved (action : MountAction) (events : List Event) : Int :=
  ((achieved startsAfter action events System.start.host).getLast?.bind fun a =>
    (MountMetric.toUnixSeconds (some a.stoppedAt)).toOption).getD 0

theorem emission_success {a : Activation} {exitCode : List Char} (ha : a.exitStatus = some exitCode)
    (h : Host) (action : MountAction) :
    (emission a.action exitCode (actualState a.prober (a.hostAfter startsAfter h)).1
        a.stoppedAt).success action.text =
      if a.action = action ∧ a.Achieves startsAfter h then
        (MountMetric.toUnixSeconds (some a.stoppedAt)).toOption
      else none := by
  have hachieves : a.Achieves startsAfter h ↔ parseExitCode exitCode = 0 ∧
      (actualState a.prober (a.hostAfter startsAfter h)).1 = a.action.targetState := by
    rw [actualState_eq_iff, Activation.Achieves, ha]
    simp
  have htext : a.action.text = action.text ↔ a.action = action := by
    cases a.action <;> cases action <;> decide
  unfold MountMetric.Emission.success MountMetric.Emission.seconds emission
  by_cases hdone : a.Achieves startsAfter h
  · rw [if_pos (hachieves.mp hdone)]
    by_cases haction : a.action = action
    · exact (if_pos (congrArg some (htext.mpr haction))).trans (if_pos ⟨haction, hdone⟩).symm
    · exact (if_neg fun heq => haction (htext.mp (Option.some.inj heq))).trans
        (if_neg fun hboth => haction hboth.1).symm
  · rw [if_neg (mt hachieves.mpr hdone)]
    exact (if_neg nofun).trans (if_neg fun hboth => hdone hboth.2).symm

theorem lastAchieved_unit (action : MountAction) (events : List Event) (a : Activation)
    {n : Int} (hn : MountMetric.toUnixSeconds (some a.stoppedAt) = .ok n) :
    lastAchieved startsAfter action (events ++ [.unit a]) =
      if a.action = action ∧
          a.Achieves startsAfter (hostAlong startsAfter events System.start.host) then n
      else lastAchieved startsAfter action events := by
  unfold lastAchieved
  rw [achieved_append, achieved]
  split_ifs
  · rw [achieved, List.getLast?_concat, Option.bind_some, hn]
    rfl
  · rw [achieved, List.append_nil]

theorem lastAchieved_operator (action : MountAction) (events : List Event)
    (flags : PurePosixPath → Bool) :
    lastAchieved startsAfter action (events ++ [.operator flags]) =
      lastAchieved startsAfter action events := by
  unfold lastAchieved
  rw [achieved_append, achieved, achieved, List.append_nil]

/-- What a run is made of: it never fails, its flags are those of the events, and its metrics
are those of a run of emitters whose successes are the activations that have achieved. -/
theorem run_spec {events : List Event} (h : ValidClocks events) :
    ∃ s es, run startsAfter events = .ok s ∧
      s.host = hostAlong startsAfter events System.start.host ∧
      (∀ e ∈ es, MountMetric.Emission.Valid e) ∧ MountMetric.emitted es = .ok s.metrics ∧
      ∀ action : MountAction,
        MountMetric.lastSuccess action.text es = lastAchieved startsAfter action events := by
  induction events using List.reverseRecOn with
  | nil => exact ⟨System.start, [], rfl, rfl, by simp, rfl, fun action => rfl⟩
  | append_singleton events e ih =>
    obtain ⟨s, es, hrun, hhost, hvalid, hemitted, hlast⟩ :=
      ih fun a ha => h a (List.mem_append_left _ ha)
    rw [run_append, hrun, hostAlong_append, ← hhost]
    cases e with
    | operator flags =>
      refine ⟨_, es, rfl, rfl, hvalid, hemitted, fun action => ?_⟩
      rw [lastAchieved_operator, hlast]
    | unit a =>
      obtain ⟨n, hn, hpos⟩ := h a (by simp)
      cases hexit : a.exitStatus with
      | none =>
        have hno : ¬ a.Achieves startsAfter s.host := fun hdone => by
          obtain ⟨exitCode, hmem, -⟩ := hdone.1
          rw [hexit] at hmem
          cases hmem
        refine ⟨{ s with host := a.hostAfter startsAfter s.host }, es, ?_, ?_, hvalid, hemitted,
          fun action => ?_⟩
        · simp [Except.bind, step, Activation.stopPost, hexit]
        · simp [hostAlong, Event.hostAfter, hexit]
        · rw [lastAchieved_unit startsAfter action events a hn, ← hhost,
            if_neg fun hdone => hno hdone.2, hlast]
      | some exitCode =>
        let e := emission a.action exitCode
          (actualState a.prober (a.hostAfter startsAfter s.host)).1 a.stoppedAt
        have he : e.Valid := by
          intro ts hts
          cases hts
          exact ⟨n, hn, hpos⟩
        obtain ⟨output, houtput, hlock, hunlock⟩ := MountMetric.emitted_readable hvalid
        cases hemitted.symm.trans houtput
        obtain ⟨transition, hemit⟩ := MountMetric.emit_eq he hlock hunlock
        refine ⟨⟨(actualState a.prober (a.hostAfter startsAfter s.host)).2, _⟩, es ++ [e], ?_, ?_,
          ?_, emittedBy_append_ok hemitted hemit, fun action => ?_⟩
        · simp only [Except.bind, step, Activation.stopPost, hexit]
          rw [hemit]
          rfl
        · simp [hostAlong, Event.hostAfter, hexit]
        · rintro x hx
          rcases List.mem_append.mp hx with hx | hx
          · exact hvalid x hx
          · exact List.mem_singleton.mp hx ▸ he
        · rw [MountMetric.lastSuccess_append, emission_success startsAfter hexit, hlast,
            lastAchieved_unit startsAfter action events a hn, ← hhost, hn]
          split_ifs <;> rfl

theorem samples_memberMetric (state st : MountState) (transition lock unlock : Int) :
    samples (MountMetric.renderBody state transition lock unlock) (MountMetric.memberMetric st) =
      [(printInt (if st = state then 1 else 0)).val] := by
  rw [MountMetric.renderBody, samples_render]
  cases st <;> cases state <;> rfl

theorem sample_one_iff (state st : MountState) (transition lock unlock : Int) :
    samples (MountMetric.renderBody state transition lock unlock) (MountMetric.memberMetric st) =
      [(printInt 1).val] ↔ state = st := by
  rw [samples_memberMetric, List.cons.injEq, and_iff_left rfl, eq_comm (a := state)]
  split_ifs with heq
  · exact iff_of_true rfl heq
  · exact iff_of_false (by decide) heq

/-- What `ExecStopPost` publishes after an activation whose exit status is set. -/
theorem run_unit_metrics {events : List Event} {a : Activation}
    (h : ValidClocks (events ++ [.unit a])) {exitCode : List Char}
    (hexit : a.exitStatus = some exitCode) {s s' : System}
    (hs : run startsAfter events = .ok s) (hs' : run startsAfter (events ++ [.unit a]) = .ok s') :
    ∃ transition lock unlock, s'.metrics = some (MountMetric.renderBody
      (actualState a.prober (a.hostAfter startsAfter s.host)).1 transition lock unlock) := by
  obtain ⟨s₀, es, hrun, hhost, hvalid, hemitted, hlast⟩ :=
    run_spec startsAfter fun b hb => h b (List.mem_append_left _ hb)
  cases hs.symm.trans hrun
  obtain ⟨n, hn, hpos⟩ := h a (by simp)
  let e := emission a.action exitCode
    (actualState a.prober (a.hostAfter startsAfter s.host)).1 a.stoppedAt
  have he : e.Valid := by
    intro ts hts
    cases hts
    exact ⟨n, hn, hpos⟩
  obtain ⟨output, houtput, hlock, hunlock⟩ := MountMetric.emitted_readable hvalid
  cases hemitted.symm.trans houtput
  obtain ⟨transition, hemit⟩ := MountMetric.emit_eq he hlock hunlock
  rw [run_append, hs] at hs'
  simp only [Except.bind, step, Activation.stopPost, hexit] at hs'
  rw [hemit] at hs'
  cases hs'
  exact ⟨transition, _, _, rfl⟩

/-- The metrics tell the truth over whole runs. Whatever the units meet, the success gauges hold
the time of the latest activation that ended in status 0 with every protected file found as it
should be, and the gauge of `LOCKED` or `UNLOCKED` is 1 exactly if all flags were read as such. -/
theorem unit_metrics_truthful {events : List Event} (h : ValidClocks events) :
    ∃ s, run startsAfter events = .ok s ∧
      MountMetric.readPrevTimestamp s.metrics MountMetric.lastLockSuccess =
        .ok (lastAchieved startsAfter .lock events) ∧
      MountMetric.readPrevTimestamp s.metrics MountMetric.lastUnlockSuccess =
        .ok (lastAchieved startsAfter .unlock events) ∧
      ∀ before a s₀, events = before ++ [.unit a] → a.exitStatus.isSome →
        run startsAfter before = .ok s₀ → ∃ text, s.metrics = some text ∧
          ∀ action : MountAction,
            samples text (MountMetric.memberMetric action.targetState) = [(printInt 1).val] ↔
              Probed a.prober (a.hostAfter startsAfter s₀.host) ∧
                ∀ p ∈ defaultProtectedPaths, s.host.immutable p = action.flag := by
  obtain ⟨s, es, hrun, hhost, hvalid, hemitted, hlast⟩ := run_spec startsAfter h
  obtain ⟨output, houtput, hlock, hunlock⟩ := MountMetric.emitted_readable hvalid
  cases hemitted.symm.trans houtput
  refine ⟨s, hrun, hlast .lock ▸ hlock, hlast .unlock ▸ hunlock, ?_⟩
  rintro before a s₀ rfl hsome hbefore
  obtain ⟨exitCode, hexit⟩ := Option.isSome_iff_exists.mp hsome
  obtain ⟨s₁, -, hbefore₁, hhost₁, -⟩ :=
    run_spec startsAfter fun b hb => h b (List.mem_append_left _ hb)
  cases hbefore.symm.trans hbefore₁
  obtain ⟨transition, lock, unlock, htext⟩ :=
    run_unit_metrics startsAfter h hexit hbefore hrun
  have hflags : s.host.immutable = (a.hostAfter startsAfter s₀.host).immutable := by
    rw [hhost, hostAlong_append, ← hhost₁]
    simp only [hostAlong, List.foldl_cons, List.foldl_nil, Event.hostAfter, hexit]
    exact actualState_immutable _ _
  refine ⟨_, htext, fun action => ?_⟩
  rw [sample_one_iff, actualState_eq_iff, hflags]

/-- A trading Tuesday, and executors that meet no fault. -/
def tuesdayLock (exitStatus : Option (List Char)) : Activation where
  action := .lock
  check := ⟨none, .missing, CheckTradingDay.typhoonDay, fun _ => false, Isoformat.readDate⟩
  executor := MountCommand.dryRunExecutor
  startedAt := 0
  exitStatus := exitStatus
  prober := MountCommand.dryRunExecutor
  stoppedAt := MountMetric.sampleHour.toDatetime

/-- An executor whose probes all fail. -/
def unprobedExecutor : ChattrExecutor where
  probeFault _ _ := some ⟨"CalledProcessError", "exit status 1"⟩
  setFault _ := none
  clearFault _ := none

def saturday : Isoformat.PyDate := ⟨⟨2025, 9, 6, by decide, by decide⟩, by decide⟩

/-- The unlock unit of a Saturday, a minute later. -/
def saturdayUnlock : Activation where
  action := .unlock
  check := ⟨none, .missing, saturday, fun _ => false, Isoformat.readDate⟩
  executor := MountCommand.dryRunExecutor
  startedAt := 0
  exitStatus := some ['1']
  prober := MountCommand.dryRunExecutor
  stoppedAt := MountMetric.sampleHour.toDatetime

/-- Under a systemd that goes on after status 0 only: a lock that succeeds, a skipped unlock,
and an operator who makes the files mutable behind the units' back. -/
theorem unit_metrics_truthful_tuesday :
    let startsAfter : ℕ → Bool := fun status => status = 0
    let events := [Event.unit (tuesdayLock (some ['0'])), .operator fun _ => false,
      .unit saturdayUnlock]
    lastAchieved startsAfter .lock events = 1811149200 ∧
    lastAchieved startsAfter .unlock events = 0 ∧
    ∃ s, run startsAfter events = .ok s ∧
      MountMetric.readPrevTimestamp s.metrics MountMetric.lastLockSuccess =
        .ok (lastAchieved startsAfter .lock events) ∧
      MountMetric.readPrevTimestamp s.metrics MountMetric.lastUnlockSuccess =
        .ok (lastAchieved startsAfter .unlock events) ∧
      ∀ before a s₀, events = before ++ [.unit a] → a.exitStatus.isSome →
        run startsAfter before = .ok s₀ → ∃ text, s.metrics = some text ∧
          ∀ action : MountAction,
            samples text (MountMetric.memberMetric action.targetState) = [(printInt 1).val] ↔
              Probed a.prober (a.hostAfter startsAfter s₀.host) ∧
                ∀ p ∈ defaultProtectedPaths, s.host.immutable p = action.flag := by
  intro startsAfter events
  have hseconds := MountMetric.toUnixSeconds_sampleHour
  have hachieves : (tuesdayLock (some ['0'])).Achieves startsAfter System.start.host := by decide
  have hlast : ∀ action, lastAchieved startsAfter action events =
      if action = .lock then 1811149200 else 0 := by
    intro action
    have hfirst := lastAchieved_unit startsAfter action [] (tuesdayLock (some ['0'])) hseconds
    have hnext := lastAchieved_operator startsAfter action
      [Event.unit (tuesdayLock (some ['0']))] fun _ => false
    have hskipped : ¬ saturdayUnlock.Achieves startsAfter
        (hostAlong startsAfter [.unit (tuesdayLock (some ['0'])), .operator fun _ => false]
          System.start.host) := fun hdone => by
      obtain ⟨exitCode, hmem, hzero⟩ := hdone.1
      cases hmem
      exact absurd hzero (by decide)
    refine (lastAchieved_unit startsAfter action
      [.unit (tuesdayLock (some ['0'])), .operator fun _ => false] saturdayUnlock hseconds).trans ?_
    rw [if_neg fun hdone => hskipped hdone.2]
    refine hnext.trans (hfirst.trans ?_)
    cases action with
    | lock => exact if_pos ⟨rfl, hachieves⟩
    | unlock => exact if_neg fun hdone => MountAction.noConfusion hdone.1
  refine ⟨hlast .lock, hlast .unlock, unit_metrics_truthful startsAfter fun a ha => ?_⟩
  have hstopped : a.stoppedAt = MountMetric.sampleHour.toDatetime := by
    simp only [events, List.mem_cons, List.not_mem_nil, Event.unit.injEq, or_false,
      reduceCtorEq, false_or] at ha
    rcases ha with rfl | rfl <;> rfl
  rw [hstopped]
  exact ⟨_, hseconds, by decide⟩

section Flags

theorem step_host {s s' : System} {e : Event} (h : step startsAfter s e = .ok s') :
    s'.host = e.hostAfter startsAfter s.host := by
  cases e with
  | operator flags =>
    cases h
    rfl
  | unit a =>
    unfold step Activation.stopPost at h
    unfold Event.hostAfter
    dsimp only at h ⊢
    cases hexit : a.exitStatus with
    | none =>
      rw [hexit] at h
      cases h
      rfl
    | some exitCode =>
      rw [hexit] at h
      dsimp only at h ⊢
      generalize MountMetric.emit _ _ = out at h
      cases out with
      | error e => cases h
      | ok text =>
        cases h
        rfl

theorem run_host {events : List Event} {s : System} (h : run startsAfter events = .ok s) :
    s.host = hostAlong startsAfter events System.start.host := by
  induction events using List.reverseRecOn generalizing s with
  | nil =>
    cases h
    rfl
  | append_singleton events e ih =>
    rw [run_append] at h
    cases hbefore : run startsAfter events with
    | error err =>
      rw [hbefore] at h
      cases h
    | ok s₀ =>
      rw [hbefore] at h
      rw [step_host startsAfter h, ih hbefore, hostAlong_append]
      rfl

theorem Activation.hostAfter_frame (a : Activation) (h : Host) {p : PurePosixPath}
    (hp : p ∉ defaultProtectedPaths) :
    (a.hostAfter startsAfter h).immutable p = h.immutable p := by
  unfold Activation.hostAfter
  split_ifs
  · rw [mountCommand_host]
    exact transition_frame (withDefaults a.executor) _ _ h hp
  · rfl

theorem Event.hostAfter_unit (a : Activation) (h : Host) :
    ((Event.unit a).hostAfter startsAfter h).immutable =
      (a.hostAfter startsAfter h).immutable := by
  unfold Event.hostAfter
  dsimp only
  cases a.exitStatus with
  | none => rfl
  | some exitCode => exact actualState_immutable _ _

/-- A unit that keeps the files locked: the lock unit, or an unlock unit whose command systemd
does not start. -/
def Quiet (e : Event) : Prop :=
  ∃ a, e = .unit a ∧
    (a.action = .unlock → startsAfter (CheckTradingDay.main a.check).1 = false)

variable {startsAfter}

theorem Quiet.hostAfter_keeps {e : Event} (he : Quiet startsAfter e) {h : Host}
    {p : PurePosixPath} (hp : h.immutable p = true) :
    (e.hostAfter startsAfter h).immutable p = true := by
  obtain ⟨a, rfl, hquiet⟩ := he
  rw [Event.hostAfter_unit]
  unfold Activation.hostAfter
  split_ifs with hstarts
  · have haction : a.action = .lock := by
      cases haction : a.action with
      | lock => rfl
      | unlock => exact absurd hstarts (by rw [hquiet haction]; exact Bool.false_ne_true)
    rw [mountCommand_host, haction]
    exact transition_keeps (withDefaults a.executor) defaultProtectedPaths_nodup true _ hp
  · exact hp

theorem hostAlong_keeps {events : List Event} (hquiet : ∀ e ∈ events, Quiet startsAfter e)
    {h : Host} {p : PurePosixPath} (hp : h.immutable p = true) :
    (hostAlong startsAfter events h).immutable p = true := by
  induction events generalizing h with
  | nil => exact hp
  | cons e events ih =>
    obtain ⟨he, hrest⟩ := List.forall_mem_cons.mp hquiet
    exact ih hrest (he.hostAfter_keeps hp)

theorem hostAlong_frame {events : List Event} (hquiet : ∀ e ∈ events, Quiet startsAfter e)
    {h : Host} {p : PurePosixPath} (hp : p ∉ defaultProtectedPaths) :
    (hostAlong startsAfter events h).immutable p = h.immutable p := by
  induction events generalizing h with
  | nil => rfl
  | cons e events ih =>
    obtain ⟨⟨a, rfl, -⟩, hrest⟩ := List.forall_mem_cons.mp hquiet
    rw [hostAlong, List.foldl_cons, ← hostAlong, ih hrest, Event.hostAfter_unit,
      a.hostAfter_frame startsAfter h hp]

/-- Where systemd takes status 1 for a failure, the unlock unit of a day off is quiet. -/
theorem quiet_of_day_off (hskip : ∀ status, status ≠ 0 → startsAfter status = false)
    {a : Activation} (hasOf : a.check.asOf = none)
    (hday : ¬ CheckTradingDay.TradingDay a.check a.check.localToday) :
    Quiet startsAfter (.unit a) :=
  ⟨a, rfl, fun _ => hskip _ fun hzero =>
    hday ((CheckTradingDay.main_eq_zero_iff hasOf).mp hzero)⟩

end Flags

/-- Once the lock unit has started its command and that has ended in status 0, the protected
files are immutable and stay so at every moment, through any further locks and any unlock units
whose command systemd does not start, while all other files are left as they were. Where every
status but 0 keeps systemd from starting it, these are the unlock units of all days off. -/
theorem locked_until_unlock {before after : List Event} {a : Activation} {s₀ : System}
    (hbefore : run startsAfter before = .ok s₀) (haction : a.action = .lock)
    (hstarts : startsAfter (CheckTradingDay.main a.check).1 = true)
    (hexit : MountCommand.exitStatus
      (MountCommand.main a.executor false .lock a.startedAt s₀.host).1 = 0)
    (hquiet : ∀ e ∈ after, Quiet startsAfter e) {mid : List Event} (hmid : mid <+: after)
    {s : System} (hs : run startsAfter (before ++ .unit a :: mid) = .ok s) :
    (∀ p ∈ defaultProtectedPaths, s.host.immutable p = true) ∧
    (∀ p ∉ defaultProtectedPaths, s.host.immutable p = s₀.host.immutable p) ∧
    ((∀ status, status ≠ 0 → startsAfter status = false) → ∀ b : Activation,
      b.check.asOf = none → ¬ CheckTradingDay.TradingDay b.check b.check.localToday →
        Quiet startsAfter (.unit b)) := by
  have hquiet' : ∀ e ∈ mid, Quiet startsAfter e := fun e he => hquiet e (hmid.subset he)
  have hhost : s.host =
      hostAlong startsAfter mid ((Event.unit a).hostAfter startsAfter s₀.host) := by
    rw [run_host startsAfter hs, run_host startsAfter hbefore, hostAlong_append]
    rfl
  rw [hhost]
  refine ⟨fun p hp => ?_, fun p hp => ?_, fun hskip b => quiet_of_day_off hskip⟩
  · apply hostAlong_keeps hquiet'
    rw [Event.hostAfter_unit, Activation.hostAfter, if_pos hstarts, haction]
    exact MountCommand.cmdLock_success a.executor a.startedAt s₀.host hexit p hp
  · rw [hostAlong_frame hquiet' hp, Event.hostAfter_unit, a.hostAfter_frame startsAfter _ hp]

/-- A lock unit on a Saturday, whose probes all fail. -/
def saturdayLock : Activation where
  action := .lock
  check := ⟨none, .missing, saturday, fun _ => false, Isoformat.readDate⟩
  executor := unprobedExecutor
  startedAt := 0
  exitStatus := some ['1']
  prober := MountCommand.dryRunExecutor
  stoppedAt := MountMetric.sampleHour.toDatetime

/-- An unlock unit whose check ends in a usage error. -/
def misusedUnlock : Activation where
  action := .unlock
  check := ⟨some ['t', 'o', 'd', 'a', 'y'], .missing, CheckTradingDay.typhoonDay, fun _ => false,
    Isoformat.readDate⟩
  executor := MountCommand.dryRunExecutor
  startedAt := 0
  exitStatus := none
  prober := MountCommand.dryRunExecutor
  stoppedAt := MountMetric.sampleHour.toDatetime

/-- Under a systemd that goes on after the statuses of `SuccessExitStatus=0 1`. -/
theorem locked_until_unlock_saturday :
    let startsAfter : ℕ → Bool := fun status => status = 0 ∨ status = 1
    ∃ s, run startsAfter ([] ++ .unit (tuesdayLock none) ::
        [.unit saturdayLock, .unit misusedUnlock]) = .ok s ∧
      (∀ p ∈ defaultProtectedPaths, s.host.immutable p = true) ∧
        ∀ p ∉ defaultProtectedPaths, s.host.immutable p = System.start.host.immutable p := by
  intro startsAfter
  have hbefore : run startsAfter [] = .ok System.start := rfl
  have hstarts : startsAfter (CheckTradingDay.main (tuesdayLock none).check).1 = true := by decide
  have hexit : MountCommand.exitStatus (MountCommand.main (tuesdayLock none).executor false .lock
      (tuesdayLock none).startedAt System.start.host).1 = 0 := by decide
  have hquiet : ∀ e ∈ [Event.unit saturdayLock, .unit misusedUnlock], Quiet startsAfter e :=
    List.forall_mem_cons.mpr ⟨⟨saturdayLock, rfl, nofun⟩,
      List.forall_mem_singleton.mpr ⟨misusedUnlock, rfl, fun _ => by decide⟩⟩
  have hclocks : ValidClocks ([] ++ .unit (tuesdayLock none) ::
      [.unit saturdayLock, .unit misusedUnlock]) := by
    intro a ha
    simp only [List.nil_append, List.mem_cons, List.not_mem_nil, Event.unit.injEq, or_false] at ha
    rcases ha with rfl | rfl | rfl <;>
      exact ⟨_, MountMetric.toUnixSeconds_sampleHour, by decide⟩
  obtain ⟨s, es, hs, -⟩ := run_spec startsAfter hclocks
  obtain ⟨hlocked, hframe, -⟩ :=
    locked_until_unlock startsAfter hbefore rfl hstarts hexit hquiet (List.prefix_refl _) hs
  exact ⟨s, hs, hlocked, hframe⟩

end MountUnits

end Athena
