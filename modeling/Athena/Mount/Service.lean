import Athena.Mount.Transition

/-!
# The service that locks the policy files

`athena-readonly-mount-lock.service` runs the `lock` command and asks to be
restarted on failure. What counts as one is up to `SuccessExitStatus`, which was
chosen for the trading-day check that runs first but holds for the lock as well.
-/

namespace Athena

/-- The subcommands the parser accepts. -/
inductive MountCommand
  | lock
  | unlock
  | status
  deriving DecidableEq, Repr

namespace MountCommand

open ReadonlyMountController

def exitCodeForState (state expected : MountState) : ℕ :=
  if state = expected then 0 else 1

/-- `_cmd_lock`: its exit code, and the host it leaves. -/
def cmdLock (x : ChattrExecutor) (now : Int) (h : Host) : Except PyException ℕ × Host :=
  match (withDefaults x).lock now h with
  | (.error e, h) => (.error e, h)
  | (.ok t, h) => (.ok (exitCodeForState t.newState .locked), h)

def cmdUnlock (x : ChattrExecutor) (now : Int) (h : Host) : Except PyException ℕ × Host :=
  match (withDefaults x).unlock now h with
  | (.error e, h) => (.error e, h)
  | (.ok t, h) => (.ok (exitCodeForState t.newState .unlocked), h)

/-- `_cmd_status`: a read, so a partial state is no failure here. -/
def cmdStatus (x : ChattrExecutor) (h : Host) : Except PyException ℕ × Host :=
  match (withDefaults x).status h with
  | (.error e, h) => (.error e, h)
  | (.ok _, h) => (.ok 0, h)

/-- The branch of `main` for the parsed subcommand. -/
def dispatch (x : ChattrExecutor) (now : Int) (h : Host) :
    MountCommand → Except PyException ℕ × Host
  | .lock => cmdLock x now h
  | .unlock => cmdUnlock x now h
  | .status => cmdStatus x h

def dryRunExecutor : ChattrExecutor := ⟨fun _ _ => none, fun _ => none, fun _ => none⟩

/-- `main` on parsed arguments. A dry run keeps its flags in memory, all clear at first. -/
def main (x : ChattrExecutor) (dryRun : Bool) (command : MountCommand) (now : Int) (h : Host) :
    Except PyException ℕ × Host :=
  if dryRun then ((dispatch dryRunExecutor now ⟨fun _ => false, 0⟩ command).1, h)
  else dispatch x now h command

/-- The status of `raise SystemExit(main())`: the interpreter exits with 1 on an exception
that nothing catches. -/
def exitStatus : Except PyException ℕ → ℕ
  | .ok code => code
  | .error _ => 1

theorem exitCodeForState_le_one (state expected : MountState) :
    exitCodeForState state expected ≤ 1 := by
  unfold exitCodeForState
  split <;> omega

theorem cmdLock_exitStatus_le_one (x : ChattrExecutor) (now : Int) (h : Host) :
    exitStatus (cmdLock x now h).1 ≤ 1 := by
  unfold cmdLock
  generalize (withDefaults x).lock now h = out
  obtain ⟨result, h'⟩ := out
  cases result with
  | error e => exact le_rfl
  | ok t => exact exitCodeForState_le_one t.newState .locked

theorem cmdLock_host (x : ChattrExecutor) (now : Int) (h : Host) :
    (cmdLock x now h).2 = ((withDefaults x).transition true now h).2 := by
  unfold cmdLock ReadonlyMountController.lock
  generalize (withDefaults x).transition true now h = out
  obtain ⟨result, h'⟩ := out
  cases result <;> rfl

/-- Status 0 is only given when both files are immutable. -/
theorem cmdLock_success (x : ChattrExecutor) (now : Int) (h : Host)
    (hexit : exitStatus (cmdLock x now h).1 = 0) :
    ∀ p ∈ defaultProtectedPaths, (cmdLock x now h).2.immutable p = true := by
  rw [cmdLock_host]
  have hlock := fun t => transition_locked true (withDefaults x) now h (t := t)
  unfold cmdLock ReadonlyMountController.lock at hexit
  generalize (withDefaults x).transition true now h = out at *
  obtain ⟨result, h'⟩ := out
  cases result with
  | error e => exact absurd hexit one_ne_zero
  | ok t =>
    have hstate : t.newState = .locked := by
      by_contra hne
      simp [exitStatus, exitCodeForState, hne] at hexit
    exact hlock t rfl hstate

end MountCommand

/-- What a unit says about the end of its process: `Restart` and `SuccessExitStatus`. -/
structure ServiceUnit where
  restartOnFailure : Bool
  successExitStatus : List ℕ

/-- An exit status after which the process is started again. -/
def ServiceUnit.Restarts (u : ServiceUnit) (status : ℕ) : Prop :=
  u.restartOnFailure = true ∧ status ∉ u.successExitStatus

instance (u : ServiceUnit) (status : ℕ) : Decidable (u.Restarts status) :=
  inferInstanceAs (Decidable (_ ∧ _))

/-- `athena-readonly-mount-lock.service`. -/
def lockService : ServiceUnit := ⟨true, [0, 1]⟩

section LockProcess

open ReadonlyMountController

variable (x : ChattrExecutor) (now : Int) (h : Host)

/-- `python -m athena.alpha_defense.f5 lock`: the exit status, and the host it leaves. -/
def lockProcess : ℕ × Host :=
  (MountCommand.exitStatus (MountCommand.main x false .lock now h).1,
    (MountCommand.main x false .lock now h).2)

/-- A process that leaves a protected path mutable ends in a status that the unit does not
count as a success, so that the retry takes place. -/
def LockedOrRetried (u : ServiceUnit) : Prop :=
  (∃ p ∈ defaultProtectedPaths, (lockProcess x now h).2.immutable p = false) →
    (lockProcess x now h).1 ∉ u.successExitStatus ∧ u.Restarts (lockProcess x now h).1

/-- Under systemd's own list every lock that did not lock is retried: with a path still
mutable the status is not 0. -/
theorem default_service_retries : LockedOrRetried x now h ⟨true, [0]⟩ := by
  rintro ⟨p, hp, hmutable⟩
  have hfailed : (lockProcess x now h).1 ≠ 0 := by
    intro hexit
    have himmutable : (lockProcess x now h).2.immutable p = true :=
      MountCommand.cmdLock_success x now h hexit p hp
    rw [hmutable] at himmutable
    cases himmutable
  have hlisted : (lockProcess x now h).1 ∉ [0] := by simpa using hfailed
  exact ⟨hlisted, rfl, hlisted⟩

/-- The process finds the i-th path immutable or makes it so: the first status read goes
through, the path's own probe too, and the `chattr` call leaves the flag set. -/
def BecomesImmutable (i : ℕ) (hi : i < defaultProtectedPaths.length) : Prop :=
  h.immutable defaultProtectedPaths[i] = true ∨
    ((∀ j (hj : j < defaultProtectedPaths.length),
        x.probeFault (h.probes + j) defaultProtectedPaths[j] = none) ∧
      x.probeFault (h.probes + defaultProtectedPaths.length + i) defaultProtectedPaths[i] =
        none ∧
      ReachesTarget x true defaultProtectedPaths[i])

theorem lockProcess_flag (i : ℕ) (hi : i < defaultProtectedPaths.length) :
    (lockProcess x now h).2.immutable defaultProtectedPaths[i] = true ↔
      BecomesImmutable x h i hi := by
  have hdistinct : defaultProtectedPaths.Nodup := by decide
  have hhost : (lockProcess x now h).2 = ((withDefaults x).transition true now h).2 :=
    MountCommand.cmdLock_host x now h
  rw [hhost]
  exact transition_flag true (withDefaults x) hdistinct now h i hi

/-- The unit keeps its promise exactly where nothing is left to retry. Its list holds every
status the process can end in, so a lock that left a path mutable is never run again. -/
theorem lock_service_retries_iff :
    LockedOrRetried x now h lockService ↔
      ∀ i (hi : i < defaultProtectedPaths.length), BecomesImmutable x h i hi := by
  have hlisted : (lockProcess x now h).1 ∈ lockService.successExitStatus := by
    have hle : (lockProcess x now h).1 ≤ 1 := MountCommand.cmdLock_exitStatus_le_one x now h
    simp only [lockService, List.mem_cons, List.not_mem_nil, or_false]
    omega
  constructor
  · intro hkept i hi
    rw [← lockProcess_flag x now h i hi]
    by_contra hmutable
    have hretry := hkept ⟨_, List.getElem_mem hi, Bool.eq_false_iff.mpr hmutable⟩
    exact hretry.1 hlisted
  · rintro hall ⟨p, hp, hmutable⟩
    obtain ⟨i, hi, rfl⟩ := List.mem_iff_getElem.mp hp
    rw [(lockProcess_flag x now h i hi).mpr (hall i hi)] at hmutable
    cases hmutable

/-- `sudo` refuses both `chattr` calls: nothing is locked, and nothing is retried. -/
theorem refused_lock_not_retried :
    (lockProcess refusingExecutor 0 mutableHost).1 = 1 ∧
      (∀ p ∈ defaultProtectedPaths,
        (lockProcess refusingExecutor 0 mutableHost).2.immutable p = false) ∧
      ¬ lockService.Restarts (lockProcess refusingExecutor 0 mutableHost).1 ∧
      ¬ LockedOrRetried refusingExecutor 0 mutableHost lockService := by
  have hopen : ∀ p ∈ defaultProtectedPaths,
      (lockProcess refusingExecutor 0 mutableHost).2.immutable p = false := by decide
  have hno : ¬ lockService.Restarts (lockProcess refusingExecutor 0 mutableHost).1 := by decide
  refine ⟨by decide, hopen, hno, ?_⟩
  intro hkept
  exact hno (hkept ⟨_, List.mem_cons_self, hopen _ List.mem_cons_self⟩).2

end LockProcess

end Athena
