import Athena.Library.WorldSimulation
import Athena.Mount.Transition

/-!
# The protocol of executors

A controller knows of its executor only the three calls of `ChattrExecutor`, the
`Protocol` of the source. Here the calls act on any world; on a `Host` with its
faults the controller is the one of `ReadonlyMountController`.
-/

namespace Athena

open WorldSimulation

/-- The three calls, on a world. -/
structure ChattrCalls (σ : Type*) where
  isImmutable : PurePosixPath → σ → Except PyException Bool × σ
  setImmutable : PurePosixPath → σ → Except PyException Unit × σ
  clearImmutable : PurePosixPath → σ → Except PyException Unit × σ

namespace ChattrCalls

section Controller

variable {σ : Type*} (x : ChattrCalls σ)

def countImmutable : List PurePosixPath → σ → Except PyException ℕ × σ
  | [], s => (.ok 0, s)
  | p :: ps, s =>
    andThen (x.isImmutable p s) fun flag s =>
      andThen (countImmutable ps s) fun n s => (.ok (if flag then n + 1 else n), s)

def status (paths : List PurePosixPath) (s : σ) : Except PyException MountState × σ :=
  andThen (x.countImmutable paths s) fun n s => (.ok (classifyState n paths.length), s)

def chattr (target : Bool) (p : PurePosixPath) (s : σ) : Except PyException Unit × σ :=
  if target then x.setImmutable p s else x.clearImmutable p s

def attempt (target : Bool) (p : PurePosixPath) (s : σ) : Except PyException PerFileResult × σ :=
  andThen (x.isImmutable p s) fun flag s =>
    if flag = target then (.ok .already, s)
    else andThen (x.chattr target p s) fun _ s => (.ok .ok, s)

/-- The variables of the loop in `_transition`. -/
structure Record where
  perFile : List (PurePosixPath × PerFileResult)
  firstError : Option String

def Record.start : Record := ⟨[], none⟩

/-- What one round records. -/
def Record.add (r : Record) (p : PurePosixPath) : Except PyException PerFileResult → Record
  | .ok result => { r with perFile := dictSet r.perFile p result }
  | .error e => ⟨dictSet r.perFile p .error,
      r.firstError.or (some (p.str ++ ": " ++ e.typeName ++ ": " ++ e.text))⟩

def cycle (target : Bool) (r : Record × σ) (p : PurePosixPath) : Record × σ :=
  let (result, s) := x.attempt target p r.2
  (r.1.add p result, s)

def transition (paths : List PurePosixPath) (target : Bool) (now : Int) (s : σ) :
    Except PyException LockTransition × σ :=
  andThen (x.status paths s) fun previous s =>
    let (record, s) := paths.foldl (x.cycle target) (Record.start, s)
    andThen (x.status paths s) fun newState s =>
      (.ok
        { targetImmutable := target
          targetPaths := paths
          timestampUtc := now
          previousState := previous
          newState := newState
          perFileResults := record.perFile
          errorMessage := record.firstError }, s)

end Controller

section Simulation

variable {σ τ : Type*} {x : ChattrCalls σ} {y : ChattrCalls τ} {paths : List PurePosixPath}
  {target : Bool} {R : σ → τ → Prop}

/-- The calls that a transition makes agree, on related worlds. -/
structure Simulates (x : ChattrCalls σ) (y : ChattrCalls τ) (paths : List PurePosixPath)
    (target : Bool) (R : σ → τ → Prop) : Prop where
  probe : ∀ p ∈ paths, ∀ s t, R s t → Agree R (x.isImmutable p s) (y.isImmutable p t)
  attempt : ∀ p ∈ paths, ∀ s t, R s t → Agree R (x.attempt target p s) (y.attempt target p t)

theorem countImmutable_agree
    (hprobe : ∀ p ∈ paths, ∀ s t, R s t → Agree R (x.isImmutable p s) (y.isImmutable p t))
    {s : σ} {t : τ} (hst : R s t) :
    Agree R (x.countImmutable paths s) (y.countImmutable paths t) := by
  induction paths generalizing s t with
  | nil => exact ⟨rfl, hst⟩
  | cons p paths ih =>
    obtain ⟨hp, hpaths⟩ := List.forall_mem_cons.mp hprobe
    apply (hp s t hst).andThen
    intro flag s t hst
    apply (ih hpaths hst).andThen
    intro n s t hst
    exact ⟨rfl, hst⟩

theorem Simulates.status (h : Simulates x y paths target R) {s : σ} {t : τ} (hst : R s t) :
    Agree R (x.status paths s) (y.status paths t) := by
  apply (countImmutable_agree h.probe hst).andThen
  intro n s t hst
  exact ⟨rfl, hst⟩

theorem Simulates.cycle (h : Simulates x y paths target R) {p : PurePosixPath} (hp : p ∈ paths)
    {r : Record × σ} {q : Record × τ} (hrq : Agree R r q) :
    Agree R (x.cycle target r p) (y.cycle target q p) := by
  obtain ⟨hvalue, hworld⟩ := h.attempt p hp r.2 q.2 hrq.world
  exact ⟨congrArg₂ (Record.add · p ·) hrq.value hvalue, hworld⟩

theorem Simulates.transition (h : Simulates x y paths target R) (now : Int) {s : σ} {t : τ}
    (hst : R s t) :
    Agree R (x.transition paths target now s) (y.transition paths target now t) := by
  apply (h.status hst).andThen
  intro previous s t hst
  have hloop : Agree R (paths.foldl (x.cycle target) (Record.start, s))
      (paths.foldl (y.cycle target) (Record.start, t)) :=
    Agree.foldl (fun p hp r q hrq => h.cycle hp hrq) ⟨rfl, hst⟩
  dsimp only
  rw [hloop.value]
  apply (h.status hloop.world).andThen
  intro newState s t hst
  exact ⟨rfl, hst⟩

end Simulation

end ChattrCalls

/-- An executor with its faults, as calls on a host. -/
def ChattrExecutor.calls (x : ChattrExecutor) : ChattrCalls Host :=
  ⟨x.isImmutable, x.setImmutable, x.clearImmutable⟩

namespace ReadonlyMountController

variable (x : ChattrExecutor)

theorem countImmutable_calls (ps : List PurePosixPath) (h : Host) :
    x.calls.countImmutable ps h = countImmutable x ps h := by
  induction ps generalizing h with
  | nil => rfl
  | cons p ps ih =>
    rw [ChattrCalls.countImmutable, countImmutable]
    change andThen (x.isImmutable p h) _ = _
    generalize x.isImmutable p h = out
    obtain ⟨result, h'⟩ := out
    cases result with
    | error e => rfl
    | ok flag =>
      simp only [andThen, ih]
      generalize countImmutable x ps h' = out
      obtain ⟨result, h''⟩ := out
      cases result <;> rfl

theorem status_calls (c : ReadonlyMountController) (h : Host) :
    c.executor.calls.status c.protectedPaths h = c.status h := by
  rw [ChattrCalls.status, countImmutable_calls, status]
  generalize countImmutable c.executor c.protectedPaths h = out
  obtain ⟨result, h'⟩ := out
  cases result <;> rfl

theorem attempt_calls (target : Bool) (p : PurePosixPath) (h : Host) :
    x.calls.attempt target p h = attempt x target p h := by
  rw [ChattrCalls.attempt, attempt]
  change andThen (x.isImmutable p h) _ = _
  generalize x.isImmutable p h = out
  obtain ⟨result, h'⟩ := out
  cases result with
  | error e => rfl
  | ok flag =>
    have hcall : x.calls.chattr target p h' =
        if target then x.setImmutable p h' else x.clearImmutable p h' := rfl
    simp only [andThen, hcall]
    by_cases hflag : flag = target
    · rw [if_pos hflag, if_pos hflag]
    · rw [if_neg hflag, if_neg hflag]
      generalize (if target = true then x.setImmutable p h' else x.clearImmutable p h') = out
      obtain ⟨result, h''⟩ := out
      cases result <;> rfl

theorem foldl_cycle_calls (target : Bool) (ps : List PurePosixPath) (s : Progress) :
    ps.foldl (x.calls.cycle target) (⟨s.perFile, s.firstError⟩, s.host) =
      let s' := ps.foldl (cycle x target) s
      (⟨s'.perFile, s'.firstError⟩, s'.host) := by
  induction ps generalizing s with
  | nil => rfl
  | cons p ps ih =>
    have hround : x.calls.cycle target (⟨s.perFile, s.firstError⟩, s.host) p =
        (⟨(cycle x target s p).perFile, (cycle x target s p).firstError⟩,
          (cycle x target s p).host) := by
      rw [ChattrCalls.cycle, attempt_calls, cycle]
      dsimp only
      generalize attempt x target p s.host = out
      obtain ⟨result, h'⟩ := out
      cases result <;> rfl
    rw [List.foldl_cons, List.foldl_cons, hround]
    exact ih _

/-- On a host with faults, the protocol's controller is the controller. -/
theorem transition_calls (c : ReadonlyMountController) (target : Bool) (now : Int) (h : Host) :
    c.executor.calls.transition c.protectedPaths target now h = c.transition target now h := by
  rw [ChattrCalls.transition, status_calls, transition]
  generalize c.status h = out
  obtain ⟨result, h₁⟩ := out
  cases result with
  | error e => rfl
  | ok previous =>
    simp only [andThen, ChattrCalls.Record.start]
    rw [foldl_cycle_calls c.executor target c.protectedPaths ⟨[], none, h₁⟩, status_calls]
    generalize c.protectedPaths.foldl (cycle c.executor target) ⟨[], none, h₁⟩ = s
    generalize c.status s.host = out
    obtain ⟨result, h₂⟩ := out
    cases result <;> rfl

end ReadonlyMountController

end Athena
