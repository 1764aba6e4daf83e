import Athena.Mount.Recovery
import Athena.Mount.Subprocess

/-!
# What the subprocess executor does, as faults on a host

A controller on `SubprocessChattrExecutor` does what the controller does on a
host with the flags of its files, when the fates of the processes are told as
faults of an executor. All results about executors therefore hold of it.
-/

namespace Athena

namespace Subprocess

open WorldSimulation ReadonlyMountController

variable {ι : Type*} (argvText : List String → String) (fates : Fates)

/-- The exception of an `lsattr` call for a path. -/
def probeFault (file : String → Option ι) (n : ℕ) (p : PurePosixPath) : Option PyException :=
  match fates.lsattr n p with
  | .runs =>
    if (file p.str).isSome then none else some (calledProcessError argvText (lsattrArgv p) 1)
  | .exits k => some (calledProcessError argvText (lsattrArgv p) (k + 1))
  | .timesOut _ => some (timeoutExpired argvText (lsattrArgv p))
  | .unstarted e => some e

/-- The exception of a `chattr` call that is made because the flag is not at the target yet, and
the flag that it leaves. -/
def callFault (target : Bool) (p : PurePosixPath) : Option (PyException × Bool) :=
  let args := [mode target, p.str]
  match fates.chattr target p with
  | .runs =>
    if permits args then none
    else some (calledProcessError argvText (sudoArgv args) 1, !target)
  | .exits k => some (calledProcessError argvText (sudoArgv args) (k + 1), !target)
  | .timesOut done =>
    some (timeoutExpired argvText (sudoArgv args),
      if done && permits args then target else !target)
  | .unstarted e => some (e, !target)

def faults (file : String → Option ι) : ChattrExecutor where
  probeFault := probeFault argvText fates file
  setFault := callFault argvText fates true
  clearFault := callFault argvText fates false

/-- The host shows the flags of the machine's files at these paths. -/
structure Tracks (paths : List PurePosixPath) (file : String → Option ι) (m : Machine ι)
    (h : Host) : Prop where
  file : m.file = file
  probes : m.probes = h.probes
  flags : ∀ p ∈ paths, h.immutable p = m.flag p.str

/-- No two of these paths lead to one file. -/
def Distinct (paths : List PurePosixPath) (file : String → Option ι) : Prop :=
  ∀ p ∈ paths, ∀ q ∈ paths, ∀ i, file p.str = some i → file q.str = some i → p = q

variable {argvText fates} {paths : List PurePosixPath} {file : String → Option ι} {m : Machine ι}
  {h : Host}

theorem probeFault_eq_none_iff {n : ℕ} {p : PurePosixPath} :
    probeFault argvText fates file n p = none ↔
      fates.lsattr n p = .runs ∧ (file p.str).isSome := by
  unfold probeFault
  cases fates.lsattr n p with
  | runs =>
    dsimp only
    split_ifs with hfile
    · exact iff_of_true rfl ⟨rfl, hfile⟩
    · exact iff_of_false nofun fun h => hfile h.2
  | exits k => exact iff_of_false nofun nofun
  | timesOut done => exact iff_of_false nofun nofun
  | unstarted e => exact iff_of_false nofun nofun

theorem callFault_of_runs {target : Bool} {p : PurePosixPath} (hp : p ∈ defaultProtectedPaths)
    (hfate : fates.chattr target p = .runs) : callFault argvText fates target p = none := by
  have hpermits : permits [mode target, p.str] = true :=
    (permits_iff _ _).mpr ⟨target, rfl, p, hp, rfl⟩
  rw [callFault, hfate]
  dsimp only
  rw [if_pos hpermits]

theorem Tracks.probed (htracks : Tracks paths file m h) :
    Tracks paths file { m with probes := m.probes + 1 } { h with probes := h.probes + 1 } :=
  ⟨htracks.file, congrArg (· + 1) htracks.probes, htracks.flags⟩

theorem Tracks.left (htracks : Tracks paths file m h) {p : PurePosixPath} {value : Bool}
    (hp : h.immutable p = value) :
    Tracks paths file m { h with immutable := Function.update h.immutable p value } := by
  rw [← hp, Function.update_eq_self]
  exact htracks

variable [DecidableEq ι]

theorem Tracks.set (htracks : Tracks paths file m h) (hdistinct : Distinct paths file)
    {p : PurePosixPath} (hp : p ∈ paths) {i : ι} (hi : file p.str = some i) (value : Bool) :
    Tracks paths file (m.setAttrs i ['i'] value)
      { h with immutable := Function.update h.immutable p value } := by
  refine ⟨htracks.file, htracks.probes, fun q hq => ?_⟩
  have hold := htracks.flags q hq
  have hfile : (m.setAttrs i ['i'] value).file = file := htracks.file
  unfold Machine.flag at hold ⊢
  rw [htracks.file] at hold
  rw [hfile]
  by_cases hqp : q = p
  · subst hqp
    simp [hi, Machine.setAttrs_attrs]
  · refine (Function.update_of_ne hqp value h.immutable).trans ?_
    rw [hold]
    cases hj : file q.str with
    | none => rfl
    | some j =>
      have hji : j ≠ i := fun heq => hqp (hdistinct q hq p hp i (heq ▸ hj) hi)
      simp [Machine.setAttrs_attrs, hji]

variable (columns : LsattrColumns)

theorem absolute_str {p : PurePosixPath} (hroot : p.root = "/") :
    ∃ rest, p.str.toList = '/' :: rest := by
  refine ⟨(String.intercalate "/" p.parts).toList, ?_⟩
  rw [PurePosixPath.str, if_neg (fun hempty => absurd (hroot ▸ hempty.1) (by decide)), hroot,
    String.toList_append]
  rfl

/-- One probe returns the same here and there: the flag, if there is a file, or the exception. -/
theorem isImmutable_cases (htracks : Tracks paths file m h) {p : PurePosixPath} (hp : p ∈ paths)
    (habsolute : p.root = "/") {x : ChattrExecutor}
    (hprobe : ∀ n, x.probeFault n p = probeFault argvText fates file n p) :
    ∃ result, (executor argvText columns fates).isImmutable p m =
        (result, { m with probes := m.probes + 1 }) ∧
      x.calls.isImmutable p h = (result, { h with probes := h.probes + 1 }) ∧
      ∀ flag, result = .ok flag → flag = h.immutable p ∧ ∃ i, file p.str = some i := by
  obtain ⟨rest, hpath⟩ := absolute_str habsolute
  have hflag := htracks.flags p hp
  have hhost : x.calls.isImmutable p h =
      ((probeFault argvText fates file m.probes p).elim (.ok (h.immutable p)) .error,
        { h with probes := h.probes + 1 }) := by
    change x.isImmutable p h = _
    rw [ChattrExecutor.isImmutable, ← htracks.probes, hprobe]
    cases probeFault argvText fates file m.probes p <;> rfl
  refine ⟨_, ?_, hhost, ?_⟩
  · have hfile := htracks.file
    unfold Machine.flag at hflag
    rw [hfile] at hflag
    simp only [executor, runLsattr, probeFault, hfile]
    cases fates.lsattr m.probes p with
    | runs =>
      cases hi : file p.str with
      | none => rfl
      | some i =>
        rw [hi, Option.any_some] at hflag
        simp only [andThen, flagsContainImmutable_line columns _ hpath, ← hflag]
        rfl
    | exits k => rfl
    | timesOut done => rfl
    | unstarted e => rfl
  · intro flag hresult
    cases hfault : probeFault argvText fates file m.probes p with
    | some e =>
      rw [hfault] at hresult
      cases hresult
    | none =>
      rw [hfault] at hresult
      cases hresult
      exact ⟨rfl, Option.isSome_iff_exists.mp (probeFault_eq_none_iff.mp hfault).2⟩

theorem asRoot_mode (htracks : Tracks paths file m h) {p : PurePosixPath} {i : ι}
    (hi : file p.str = some i) (target : Bool) :
    asRoot [mode target, p.str] m =
      if permits [mode target, p.str] then (0, m.setAttrs i ['i'] target) else (1, m) := by
  rw [asRoot, chattr_mode, htracks.file, hi]

theorem chattr_agree (htracks : Tracks paths file m h) (hdistinct : Distinct paths file)
    {p : PurePosixPath} (hp : p ∈ paths) {i : ι} (hi : file p.str = some i) {target : Bool}
    (hflag : h.immutable p = !target) {x : ChattrExecutor}
    (hcall : chattrFault x target p = callFault argvText fates target p) :
    Agree (Tracks paths file) ((executor argvText columns fates).chattr target p m)
      (x.calls.chattr target p h) := by
  have hhere : (executor argvText columns fates).chattr target p m =
      runSudoChattr argvText (fates.chattr target p) [mode target, p.str] m := by
    cases target <;> rfl
  have hthere : x.calls.chattr target p h =
      ChattrExecutor.chattr (callFault argvText fates target p) target p h := by
    rw [← hcall]
    cases target <;> rfl
  have hroot := asRoot_mode htracks hi target
  have hset := htracks.set hdistinct hp hi target
  have hleft := htracks.left hflag
  rw [hhere, hthere]
  unfold runSudoChattr callFault
  dsimp only
  rw [hroot]
  cases fates.chattr target p with
  | runs =>
    by_cases hpermits : permits [mode target, p.str] = true
    · simp only [if_pos hpermits]
      exact ⟨rfl, hset⟩
    · simp only [if_neg hpermits]
      exact ⟨rfl, hleft⟩
  | exits k => exact ⟨rfl, hleft⟩
  | unstarted e => exact ⟨rfl, hleft⟩
  | timesOut done =>
    by_cases heffect : (done && permits [mode target, p.str]) = true
    · obtain ⟨hdone, hpermits⟩ := Bool.and_eq_true_iff.mp heffect
      simp only [if_pos heffect, if_pos hdone, if_pos hpermits]
      exact ⟨rfl, hset⟩
    · simp only [if_neg heffect]
      refine ⟨rfl, ?_⟩
      cases done with
      | false => exact hleft
      | true =>
        have hpermits : ¬ permits [mode target, p.str] = true := fun h => heffect h
        simp only [if_neg hpermits, if_true]
        exact hleft

theorem attempt_agree (htracks : Tracks paths file m h) (hdistinct : Distinct paths file)
    {p : PurePosixPath} (hp : p ∈ paths) (habsolute : p.root = "/") {target : Bool}
    {x : ChattrExecutor}
    (hprobe : ∀ n, x.probeFault n p = probeFault argvText fates file n p)
    (hcall : chattrFault x target p = callFault argvText fates target p) :
    Agree (Tracks paths file) ((executor argvText columns fates).attempt target p m)
      (x.calls.attempt target p h) := by
  obtain ⟨result, hhere, hthere, hok⟩ :=
    isImmutable_cases columns htracks hp habsolute hprobe
  unfold ChattrCalls.attempt
  rw [hhere, hthere]
  cases result with
  | error e => exact ⟨rfl, htracks.probed⟩
  | ok flag =>
    obtain ⟨rfl, i, hi⟩ := hok flag rfl
    simp only [andThen]
    by_cases hflag : h.immutable p = target
    · simp only [if_pos hflag]
      exact ⟨rfl, htracks.probed⟩
    · simp only [if_neg hflag]
      have hcalled := chattr_agree columns htracks.probed hdistinct hp hi
        (Bool.eq_not.mpr hflag) hcall
      exact hcalled.andThen fun _ m h hmh => ⟨rfl, hmh⟩

/-- The executor behaves like any one with these faults. -/
theorem simulates_faults (hdistinct : Distinct paths file) (habsolute : ∀ p ∈ paths, p.root = "/")
    {target : Bool} {x : ChattrExecutor}
    (hprobe : ∀ p ∈ paths, ∀ n, x.probeFault n p = probeFault argvText fates file n p)
    (hcall : ∀ p ∈ paths, chattrFault x target p = callFault argvText fates target p) :
    (executor argvText columns fates).Simulates x.calls paths target (Tracks paths file) := by
  constructor
  · intro p hp m h htracks
    obtain ⟨result, hhere, hthere, -⟩ :=
      isImmutable_cases columns htracks hp (habsolute p hp) (hprobe p hp)
    rw [hhere, hthere]
    exact ⟨rfl, htracks.probed⟩
  · intro p hp m h htracks
    exact attempt_agree columns htracks hdistinct hp (habsolute p hp) (hprobe p hp) (hcall p hp)

/-- With both files in place and processes that run, the sudoers file lets `lock` and `unlock` do
all of their work, and nothing else. -/
theorem installed_transition {target : Bool} (now : Int)
    (hdistinct : Distinct defaultProtectedPaths m.file)
    (hfiles : ∀ p ∈ defaultProtectedPaths, (m.file p.str).isSome)
    (hprobes : ∀ n, ∀ p ∈ defaultProtectedPaths, fates.lsattr n p = .runs)
    (hcalls : ∀ p ∈ defaultProtectedPaths, fates.chattr target p = .runs) :
    ∃ t m', (executor argvText columns fates).transition defaultProtectedPaths target now m =
        (.ok t, m') ∧
      t.newState = targetState target ∧ t.errorMessage = none ∧
      t.perFileResults = defaultProtectedPaths.map (fun p =>
        (p, if m.flag p.str = target then .already else .ok)) ∧
      (∀ p ∈ defaultProtectedPaths, m'.flag p.str = target) ∧ Confined m m' := by
  let host : Host := ⟨fun p => m.flag p.str, m.probes⟩
  have htracks : Tracks defaultProtectedPaths m.file m host := ⟨rfl, rfl, fun p _ => rfl⟩
  have hprobe : ∀ p ∈ defaultProtectedPaths, ∀ n, (refusing fun _ => none).probeFault n p =
      probeFault argvText fates m.file n p := by
    intro p hp n
    exact (probeFault_eq_none_iff.mpr ⟨hprobes n p hp, hfiles p hp⟩).symm
  have hcall : ∀ p ∈ defaultProtectedPaths, chattrFault (refusing fun _ => none) target p =
      callFault argvText fates target p := by
    intro p hp
    rw [callFault_of_runs hp (hcalls p hp)]
    cases target <;> rfl
  have habsolute : ∀ p ∈ defaultProtectedPaths, p.root = "/" := by decide
  have hagree := (simulates_faults columns hdistinct habsolute hprobe hcall).transition now htracks
  have hnodup : defaultProtectedPaths.Nodup := by decide
  let c := withDefaults (refusing fun _ => none)
  obtain ⟨t, h', hout, hdone⟩ := transition_performed c hnodup (fun _ => none) target now host
  have hcalled : (refusing fun _ => none).calls.transition defaultProtectedPaths target now host =
      (.ok t, h') := (transition_calls (c.runningOn _) target now host).trans hout
  rw [hcalled] at hagree
  obtain ⟨hvalue, hworld⟩ := hagree
  have hresults : t.perFileResults = defaultProtectedPaths.map fun p =>
      (p, if m.flag p.str = target then .already else .ok) := hdone.results
  have hnone : ∀ r ∈ t.perFileResults, r.2 ≠ .error := by
    rw [hresults, List.forall_mem_map]
    intro p hp
    dsimp only
    split_ifs <;> exact nofun
  refine ⟨t, _, Prod.ext hvalue rfl, hdone.state.mpr hnone, ?_, hresults, fun p hp => ?_, ?_⟩
  · rw [← Option.not_isSome_iff_eq_none, hdone.messageIff]
    rintro ⟨r, hr, herror⟩
    exact hnone r hr herror
  · rw [← hworld.flags p hp, hdone.flags p hp]
    exact .inr rfl
  · exact ((simulates_self argvText columns m fates defaultProtectedPaths target).transition now
      ⟨rfl, Confined.refl m⟩).world.2

/-- Both policy files, of which one is locked. -/
def halfLocked : Machine Bool where
  file path :=
    if path = "/var/lib/athena/policy/policy.toml" then some true
    else if path = "/var/lib/athena/policy/flag_registry.toml" then some false
    else none
  attrs i a := i && a = 'i'
  probes := 0

def oneColumn : LsattrColumns :=
  ⟨['i'], List.mem_singleton_self 'i', List.forall_mem_singleton.mpr rfl⟩

theorem halfLocked_distinct : Distinct defaultProtectedPaths halfLocked.file := by
  unfold Distinct
  decide

/-- The call for the other file runs into its timeout, after its effect. -/
def lateFates : Fates := ⟨fun _ _ => .runs, fun _ _ => .timesOut true⟩

theorem installed_transition_half :
    ∃ t m', (executor toString oneColumn ⟨fun _ _ => .runs, fun _ _ => .runs⟩).transition
        defaultProtectedPaths true 0 halfLocked = (.ok t, m') ∧
      t.newState = .locked ∧ t.errorMessage = none ∧
      t.perFileResults = defaultProtectedPaths.map (fun p =>
        (p, if halfLocked.flag p.str = true then .already else .ok)) ∧
      (∀ p ∈ defaultProtectedPaths, m'.flag p.str = true) ∧ Confined halfLocked m' :=
  installed_transition oneColumn 0 halfLocked_distinct (by decide) (fun _ _ _ => rfl)
    (fun _ _ => rfl)

end Subprocess

end Athena
