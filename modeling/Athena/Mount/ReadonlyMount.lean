import Athena.Core.Text

/-!
# The readonly-mount controller

`lock` and `unlock` walk the protected paths and run `chattr` where the
immutable flag differs from the target. An executor is given by its faults: the
exception its n-th probe raises on a path, and for a failing `chattr` call the
flag it leaves behind. Probes are numbered through, so a fault may come and go
between two probes of one path.
-/

namespace Athena

/-- A `PurePosixPath`: its root (empty for a relative path) and its components. -/
structure PurePosixPath where
  root : String
  parts : List String
  deriving DecidableEq, Repr

namespace PurePosixPath

def str (p : PurePosixPath) : String :=
  if p.root = "" ∧ p.parts = [] then "." else p.root ++ String.intercalate "/" p.parts

def IsRelativeTo (p other : PurePosixPath) : Prop := p.root = other.root ∧ other.parts <+: p.parts

instance (p other : PurePosixPath) : Decidable (p.IsRelativeTo other) :=
  inferInstanceAs (Decidable (_ ∧ _))

end PurePosixPath

def protectedRoot : PurePosixPath := ⟨"/", ["var", "lib", "athena", "policy"]⟩

/-- An `Exception`: the name of its type and its text. -/
structure PyException where
  typeName : String
  text : String
  deriving DecidableEq, Repr

/-- The flags of the files, and the number of probes made so far. -/
structure Host where
  immutable : PurePosixPath → Bool
  probes : ℕ

structure ChattrExecutor where
  probeFault : ℕ → PurePosixPath → Option PyException
  setFault : PurePosixPath → Option (PyException × Bool)
  clearFault : PurePosixPath → Option (PyException × Bool)

namespace ChattrExecutor

variable (x : ChattrExecutor)

def isImmutable (p : PurePosixPath) (h : Host) : Except PyException Bool × Host :=
  (match x.probeFault h.probes p with
    | some e => .error e
    | none => .ok (h.immutable p), { h with probes := h.probes + 1 })

/-- A `chattr` call, with the fault it runs into if any. -/
def chattr (fault : Option (PyException × Bool)) (flag : Bool) (p : PurePosixPath) (h : Host) :
    Except PyException Unit × Host :=
  match fault with
  | some (e, left) => (.error e, { h with immutable := Function.update h.immutable p left })
  | none => (.ok (), { h with immutable := Function.update h.immutable p flag })

def setImmutable (p : PurePosixPath) (h : Host) : Except PyException Unit × Host :=
  chattr (x.setFault p) true p h

def clearImmutable (p : PurePosixPath) (h : Host) : Except PyException Unit × Host :=
  chattr (x.clearFault p) false p h

end ChattrExecutor

inductive MountState
  | locked
  | unlocked
  | partially
  deriving DecidableEq, Repr

inductive PerFileResult
  | ok
  | already
  | skipped
  | error
  deriving DecidableEq, Repr

structure LockTransition where
  targetImmutable : Bool
  targetPaths : List PurePosixPath
  timestampUtc : Int
  previousState : MountState
  newState : MountState
  perFileResults : List (PurePosixPath × PerFileResult)
  errorMessage : Option String
  deriving DecidableEq, Repr

def classifyState (immutableCount total : ℕ) : MountState :=
  if immutableCount = 0 then .unlocked
  else if immutableCount = total then .locked
  else .partially

/-- A controller carries what its constructor has checked. -/
structure ReadonlyMountController where
  executor : ChattrExecutor
  protectedPaths : List PurePosixPath
  nonempty : protectedPaths ≠ []
  underRoot : ∀ p ∈ protectedPaths, p.IsRelativeTo protectedRoot

/-- The variables of the loop in `_transition`. -/
structure Progress where
  perFile : List (PurePosixPath × PerFileResult)
  firstError : Option String
  host : Host

namespace ReadonlyMountController

def defaultProtectedPaths : List PurePosixPath :=
  [⟨"/", ["var", "lib", "athena", "policy", "policy.toml"]⟩,
    ⟨"/", ["var", "lib", "athena", "policy", "flag_registry.toml"]⟩]

/-- `ReadonlyMountController.__init__` with `_validate_protected_paths`. -/
def init (executor : ChattrExecutor) (protectedPaths : Option (List PurePosixPath)) :
    Except PyErr ReadonlyMountController :=
  let paths := protectedPaths.getD defaultProtectedPaths
  if hempty : paths = [] then
    .error (.valueError "ReadonlyMountController requires at least one protected path.")
  else
    match hfind : paths.find? fun p => ¬ p.IsRelativeTo protectedRoot with
    | some p => .error (.valueError ("Protected path " ++ p.str ++ " is outside " ++
        protectedRoot.str ++
        "; F5 only manages files under the policy root (architecture.md Gap-3)."))
    | none => .ok ⟨executor, paths, hempty, by simpa using hfind⟩

/-- The sum in `status`: the probes stop at the first one that raises. -/
def countImmutable (x : ChattrExecutor) : List PurePosixPath → Host → Except PyException ℕ × Host
  | [], h => (.ok 0, h)
  | p :: ps, h =>
    match x.isImmutable p h with
    | (.error e, h) => (.error e, h)
    | (.ok flag, h) =>
      match countImmutable x ps h with
      | (.error e, h) => (.error e, h)
      | (.ok n, h) => (.ok (if flag then n + 1 else n), h)

def status (c : ReadonlyMountController) (h : Host) : Except PyException MountState × Host :=
  match countImmutable c.executor c.protectedPaths h with
  | (.error e, h) => (.error e, h)
  | (.ok n, h) => (.ok (classifyState n c.protectedPaths.length), h)

def attempt (x : ChattrExecutor) (targetImmutable : Bool) (p : PurePosixPath) (h : Host) :
    Except PyException PerFileResult × Host :=
  match x.isImmutable p h with
  | (.error e, h) => (.error e, h)
  | (.ok flag, h) =>
    if flag = targetImmutable then (.ok .already, h)
    else
      match if targetImmutable then x.setImmutable p h else x.clearImmutable p h with
      | (.error e, h) => (.error e, h)
      | (.ok (), h) => (.ok .ok, h)

def cycle (x : ChattrExecutor) (targetImmutable : Bool) (s : Progress) (p : PurePosixPath) :
    Progress :=
  match attempt x targetImmutable p s.host with
  | (.ok r, h) => { s with perFile := dictSet s.perFile p r, host := h }
  | (.error e, h) =>
    { perFile := dictSet s.perFile p .error
      firstError := s.firstError.or (some (p.str ++ ": " ++ e.typeName ++ ": " ++ e.text))
      host := h }

def transition (c : ReadonlyMountController) (targetImmutable : Bool) (now : Int) (h : Host) :
    Except PyException LockTransition × Host :=
  match c.status h with
  | (.error e, h) => (.error e, h)
  | (.ok previous, h) =>
    let s := c.protectedPaths.foldl (cycle c.executor targetImmutable) ⟨[], none, h⟩
    match c.status s.host with
    | (.error e, h) => (.error e, h)
    | (.ok newState, h) =>
      (.ok
        { targetImmutable := targetImmutable
          targetPaths := c.protectedPaths
          timestampUtc := now
          previousState := previous
          newState := newState
          perFileResults := s.perFile
          errorMessage := s.firstError }, h)

def lock (c : ReadonlyMountController) (now : Int) (h : Host) :
    Except PyException LockTransition × Host :=
  c.transition true now h

def unlock (c : ReadonlyMountController) (now : Int) (h : Host) :
    Except PyException LockTransition × Host :=
  c.transition false now h

end ReadonlyMountController

end Athena
