import Athena.Core.Numerals
import Athena.Library.Framing
import Athena.Mount.ChattrProtocol

/-!
# The executor behind the units

`SubprocessChattrExecutor` reads the output of `lsattr` and lets `sudo` run
`chattr`, which the installed sudoers file permits for four command lines. Files
carry attribute letters; several path texts may lead to one file. Each process
may fail, not start, or run into its timeout with or without its effect.
-/

namespace Athena

open WorldSimulation ReadonlyMountController

variable {ι : Type*}

/-- What becomes of a process; `exits n` is a failure with status `n + 1` and no effect. -/
inductive Fate
  | runs
  | exits (n : ℕ)
  | timesOut (done : Bool)
  | unstarted (e : PyException)

/-- Where path texts lead, the attributes of the files, and how often `lsattr` was called. -/
structure Machine (ι : Type*) where
  file : String → Option ι
  attrs : ι → Char → Bool
  probes : ℕ

namespace Machine

/-- The flag `i` of the file behind a path text, if there is one. -/
def flag (m : Machine ι) (path : String) : Bool := (m.file path).any fun i => m.attrs i 'i'

variable [DecidableEq ι]

def setAttrs (m : Machine ι) (i : ι) (letters : List Char) (value : Bool) : Machine ι :=
  { m with attrs := Function.update m.attrs i fun a =>
      if a ∈ letters then value else m.attrs i a }

theorem setAttrs_attrs (m : Machine ι) (i j : ι) (letters : List Char) (value : Bool) (a : Char) :
    (m.setAttrs i letters value).attrs j a =
      if j = i ∧ a ∈ letters then value else m.attrs j a := by
  by_cases hj : j = i
  · subst hj
    simp [setAttrs]
  · simp [setAttrs, hj]

/-- `chattr`, as far as its exit status tells. -/
def chattr (args : List String) (m : Machine ι) : ℕ × Machine ι :=
  match args with
  | [mode, path] =>
    match mode.toList, m.file path with
    | '+' :: letters, some i => (0, m.setAttrs i letters true)
    | '-' :: letters, some i => (0, m.setAttrs i letters false)
    | _, _ => (1, m)
  | _ => (1, m)

end Machine

/-- The arguments of `/usr/sbin/chattr` in `sudoers.d/athena-readonly-mount`, line by line. -/
def sudoers : List (List String) :=
  [["+i", "/var/lib/athena/policy/policy.toml"], ["-i", "/var/lib/athena/policy/policy.toml"],
    ["+i", "/var/lib/athena/policy/flag_registry.toml"],
    ["-i", "/var/lib/athena/policy/flag_registry.toml"]]

/-- The arguments of a command line with blanks between them, which is what `sudo` compares. -/
def argsText (args : List String) : List Char := Framing.join ' ' (args.map String.toList)

def permits (args : List String) : Bool := sudoers.any fun line => argsText line = argsText args

/-- `sudo /usr/sbin/chattr` without a terminal to ask for a password. -/
def asRoot [DecidableEq ι] (args : List String) (m : Machine ι) : ℕ × Machine ι :=
  if permits args then m.chattr args else (1, m)

/-- The letters of the columns that this release of `lsattr` prints. -/
structure LsattrColumns where
  letters : List Char
  immutable : 'i' ∈ letters
  noSpace : ∀ a ∈ letters, isSpace a = false

/-- What `lsattr -d` prints. -/
def LsattrColumns.line (columns : LsattrColumns) (attrs : Char → Bool) (path : String) :
    List Char :=
  columns.letters.map (fun a => if attrs a then a else '-') ++ ' ' :: (path.toList ++ [newline])

/-- The group of `_LSATTR_FLAGS_RE.match`. -/
def lsattrFlags (s : List Char) : Option (List Char) :=
  let flags := s.takeWhile fun c => !isSpace c
  let rest := s.dropWhile fun c => !isSpace c
  if flags ≠ [] ∧ rest.dropWhile isSpace ≠ [] then some flags else none

def flagsContainImmutable (lsattrOutput : List Char) : Bool :=
  (lsattrFlags (strip lsattrOutput)).any fun flags => 'i' ∈ flags

/-- The fate of the n-th `lsattr` call and of the `chattr` call towards a flag. -/
structure Fates where
  lsattr : ℕ → PurePosixPath → Fate
  chattr : Bool → PurePosixPath → Fate

namespace Subprocess

-- how the text of an exception shows the argument list
variable (argvText : List String → String)

def calledProcessError (argv : List String) (status : ℕ) : PyException :=
  ⟨"CalledProcessError", "Command '" ++ argvText argv ++ "' returned non-zero exit status " ++
    strInt status ++ "."⟩

def timeoutExpired (argv : List String) : PyException :=
  ⟨"TimeoutExpired", "Command '" ++ argvText argv ++ "' timed out after 10 seconds"⟩

def sudoArgv (args : List String) : List String := "sudo" :: "/usr/sbin/chattr" :: args

def lsattrArgv (p : PurePosixPath) : List String := ["/usr/bin/lsattr", "-d", p.str]

def runSudoChattr [DecidableEq ι] (fate : Fate) (args : List String) (m : Machine ι) :
    Except PyException Unit × Machine ι :=
  match fate with
  | .runs =>
    match asRoot args m with
    | (0, m) => (.ok (), m)
    | (n + 1, m) => (.error (calledProcessError argvText (sudoArgv args) (n + 1)), m)
  | .exits n => (.error (calledProcessError argvText (sudoArgv args) (n + 1)), m)
  | .timesOut done =>
    (.error (timeoutExpired argvText (sudoArgv args)), if done then (asRoot args m).2 else m)
  | .unstarted e => (.error e, m)

def runLsattr (columns : LsattrColumns) (fate : Fate) (p : PurePosixPath) (m : Machine ι) :
    Except PyException (List Char) × Machine ι :=
  (match fate with
    | .runs =>
      match m.file p.str with
      | some i => .ok (columns.line (m.attrs i) p.str)
      | none => .error (calledProcessError argvText (lsattrArgv p) 1)
    | .exits n => .error (calledProcessError argvText (lsattrArgv p) (n + 1))
    | .timesOut _ => .error (timeoutExpired argvText (lsattrArgv p))
    | .unstarted e => .error e, { m with probes := m.probes + 1 })

/-- The argument for a flag. -/
def mode (target : Bool) : String := if target then "+i" else "-i"

def executor [DecidableEq ι] (columns : LsattrColumns) (fates : Fates) :
    ChattrCalls (Machine ι) where
  isImmutable p m :=
    andThen (runLsattr argvText columns (fates.lsattr m.probes p) p m) fun output m =>
      (.ok (flagsContainImmutable output), m)
  setImmutable p m := runSudoChattr argvText (fates.chattr true p) ["+i", p.str] m
  clearImmutable p m := runSudoChattr argvText (fates.chattr false p) ["-i", p.str] m

end Subprocess

section Columns

theorem mem_line_iff (columns : LsattrColumns) (attrs : Char → Bool) :
    'i' ∈ columns.letters.map (fun a => if attrs a then a else '-') ↔ attrs 'i' = true := by
  constructor
  · intro hmem
    obtain ⟨a, -, ha⟩ := List.mem_map.mp hmem
    split_ifs at ha with hattr
    · exact ha ▸ hattr
    · exact absurd ha (by decide)
  · intro hattr
    exact List.mem_map.mpr ⟨'i', columns.immutable, if_pos hattr⟩

section Words

variable {flags : List Char} (hne : flags ≠ []) (hspace : ∀ c ∈ flags, isSpace c = false)
include hne hspace

theorem strip_flags (rest : List Char) :
    strip (flags ++ ' ' :: '/' :: rest) = flags ++ ' ' :: '/' :: rstrip rest := by
  obtain ⟨c, flags, rfl⟩ := List.exists_cons_of_ne_nil hne
  have hsplit : c :: flags ++ ' ' :: '/' :: rest = (c :: flags ++ [' ', '/']) ++ rest := by simp
  have hfirst : ∃ d s, c :: flags ++ [' ', '/'] = d :: s ∧ isSpace d = false :=
    ⟨c, _, rfl, hspace c List.mem_cons_self⟩
  have hlast : ∃ s d, c :: flags ++ [' ', '/'] = s ++ [d] ∧ isSpace d = false :=
    ⟨c :: flags ++ [' '], '/', by simp, by decide⟩
  rw [hsplit, strip_append hfirst hlast]
  simp

theorem lsattrFlags_flags (rest : List Char) :
    lsattrFlags (flags ++ ' ' :: '/' :: rest) = some flags := by
  have htake : (flags ++ ' ' :: '/' :: rest).takeWhile (fun d => !isSpace d) = flags := by
    rw [List.takeWhile_append_of_pos (fun d hd => by simp [hspace d hd]),
      List.takeWhile_cons_of_neg (by decide), List.append_nil]
  have hdrop : (flags ++ ' ' :: '/' :: rest).dropWhile (fun d => !isSpace d) =
      ' ' :: '/' :: rest := by
    rw [List.dropWhile_append_of_pos (fun d hd => by simp [hspace d hd]),
      List.dropWhile_cons_of_neg (by decide)]
  have hpathname : (' ' :: '/' :: rest).dropWhile isSpace ≠ [] := by
    rw [List.dropWhile_cons_of_pos (by decide), List.dropWhile_cons_of_neg (by decide)]
    exact List.cons_ne_nil _ _
  rw [lsattrFlags, htake, hdrop, if_pos ⟨hne, hpathname⟩]

end Words

/-- The flags are read off the line of any file with an absolute path. -/
theorem flagsContainImmutable_line (columns : LsattrColumns) (attrs : Char → Bool) {path : String}
    {rest : List Char} (hpath : path.toList = '/' :: rest) :
    flagsContainImmutable (columns.line attrs path) = attrs 'i' := by
  have hspace : ∀ c ∈ columns.letters.map (fun a => if attrs a then a else '-'),
      isSpace c = false := by
    intro c hc
    obtain ⟨a, ha, rfl⟩ := List.mem_map.mp hc
    split_ifs
    · exact columns.noSpace a ha
    · rfl
  have hne : columns.letters.map (fun a => if attrs a then a else '-') ≠ [] := by
    simpa using List.ne_nil_of_mem columns.immutable
  rw [flagsContainImmutable, LsattrColumns.line, hpath, List.cons_append, strip_flags hne hspace,
    lsattrFlags_flags hne hspace, Option.any_some, Bool.eq_iff_iff, decide_eq_true_eq]
  exact mem_line_iff columns attrs

end Columns

section Sudoers

theorem str_defaultProtectedPaths : defaultProtectedPaths.map PurePosixPath.str =
    ["/var/lib/athena/policy/policy.toml", "/var/lib/athena/policy/flag_registry.toml"] := by
  decide

theorem mem_sudoers_iff (line : List String) :
    line ∈ sudoers ↔ ∃ target, ∃ p ∈ defaultProtectedPaths,
      line = [Subprocess.mode target, p.str] := by
  have hpaths : ∀ target, (∃ p ∈ defaultProtectedPaths, line = [Subprocess.mode target, p.str]) ↔
      ∃ path ∈ defaultProtectedPaths.map PurePosixPath.str,
        line = [Subprocess.mode target, path] := by
    intro target
    simp
  rw [Bool.exists_bool, hpaths false, hpaths true, str_defaultProtectedPaths]
  simp only [Subprocess.mode, sudoers, List.mem_cons, List.not_mem_nil, or_false,
    exists_eq_or_imp, exists_eq_left, if_true, Bool.false_eq_true, if_false]
  tauto

theorem sudoers_blankFree : ∀ line ∈ sudoers,
    Framing.SeparatorFree ' ' (line.map String.toList) := by
  unfold Framing.SeparatorFree
  decide

theorem permits_iff (mode path : String) :
    permits [mode, path] = true ↔
      ∃ target, mode = Subprocess.mode target ∧ ∃ p ∈ defaultProtectedPaths, p.str = path := by
  unfold permits
  rw [List.any_eq_true]
  constructor
  · rintro ⟨line, hline, htext⟩
    obtain ⟨target, p, hp, rfl⟩ := (mem_sudoers_iff line).mp hline
    have hlength : ([Subprocess.mode target, p.str].map String.toList).length =
        ([mode, path].map String.toList).length := rfl
    have hsame := (Framing.join_eq_join_iff (sudoers_blankFree _ hline) hlength).mp
      (of_decide_eq_true htext)
    simp only [List.map_cons, List.map_nil, List.cons.injEq, String.toList_inj, and_true] at hsame
    exact ⟨target, hsame.1.symm, p, hp, hsame.2⟩
  · rintro ⟨target, rfl, p, hp, rfl⟩
    exact ⟨_, (mem_sudoers_iff _).mpr ⟨target, p, hp, rfl⟩, decide_eq_true rfl⟩

end Sudoers

section Confinement

variable [DecidableEq ι]

/-- What differs between two machines is the flag `i` of protected files. -/
def Confined (before m : Machine ι) : Prop :=
  m.file = before.file ∧ ∀ i a, m.attrs i a ≠ before.attrs i a →
    a = 'i' ∧ ∃ p ∈ defaultProtectedPaths, before.file p.str = some i

omit [DecidableEq ι] in
theorem Confined.refl (m : Machine ι) : Confined m m := ⟨rfl, fun _ _ h => absurd rfl h⟩

theorem chattr_mode (m : Machine ι) (target : Bool) (path : String) :
    m.chattr [Subprocess.mode target, path] =
      match m.file path with
      | some i => (0, m.setAttrs i ['i'] target)
      | none => (1, m) := by
  cases target with
  | true =>
    have hmode : (Subprocess.mode true).toList = ['+', 'i'] := rfl
    simp only [Machine.chattr, hmode]
    cases m.file path <;> rfl
  | false =>
    have hmode : (Subprocess.mode false).toList = ['-', 'i'] := rfl
    simp only [Machine.chattr, hmode]
    cases m.file path <;> rfl

theorem Confined.setAttrs {before m : Machine ι} (h : Confined before m) {p : PurePosixPath}
    (hp : p ∈ defaultProtectedPaths) {i : ι} (hi : m.file p.str = some i) (value : Bool) :
    Confined before (m.setAttrs i ['i'] value) := by
  refine ⟨h.1, fun j a hne => ?_⟩
  rw [Machine.setAttrs_attrs] at hne
  split_ifs at hne with hset
  · obtain ⟨rfl, ha⟩ := hset
    exact ⟨List.mem_singleton.mp ha, p, hp, h.1 ▸ hi⟩
  · exact h.2 j a hne

theorem Confined.asRoot {before m : Machine ι} (h : Confined before m) (args : List String) :
    Confined before (asRoot args m).2 := by
  unfold Athena.asRoot
  split_ifs with hpermits
  · match args, hpermits with
    | [], _ => exact h
    | [_], _ => exact h
    | _ :: _ :: _ :: _, _ => exact h
    | [mode, path], hpermits =>
      obtain ⟨target, rfl, p, hp, rfl⟩ := (permits_iff mode path).mp hpermits
      rw [chattr_mode]
      cases hfile : m.file p.str with
      | none => exact h
      | some i => exact h.setAttrs hp hfile target
  · exact h

variable (argvText : List String → String) (columns : LsattrColumns)

namespace Subprocess

theorem runSudoChattr_confined {before m : Machine ι} (h : Confined before m) (fate : Fate)
    (args : List String) : Confined before (runSudoChattr argvText fate args m).2 := by
  have hroot := h.asRoot args
  unfold runSudoChattr
  cases fate with
  | runs =>
    dsimp only
    generalize Athena.asRoot args m = out at hroot ⊢
    obtain ⟨status, m'⟩ := out
    cases status <;> exact hroot
  | exits n => exact h
  | timesOut done =>
    cases done
    · exact h
    · exact hroot
  | unstarted e => exact h

theorem isImmutable_confined (fates : Fates) (p : PurePosixPath) {before m : Machine ι}
    (h : Confined before m) :
    Confined before ((executor argvText columns fates).isImmutable p m).2 := by
  have hprobed : Confined before
      (runLsattr argvText columns (fates.lsattr m.probes p) p m).2 := h
  exact andThen_world hprobed fun output m hm => hm

theorem attempt_confined (fates : Fates) (target : Bool) (p : PurePosixPath) {before m : Machine ι}
    (h : Confined before m) :
    Confined before ((executor argvText columns fates).attempt target p m).2 := by
  apply andThen_world (isImmutable_confined argvText columns fates p h)
  intro flag m hm
  split_ifs
  · exact hm
  · have hchattr : Confined before ((executor argvText columns fates).chattr target p m).2 := by
      cases target <;> exact runSudoChattr_confined argvText hm _ _
    exact andThen_world hchattr fun _ m hm => hm

/-- A controller with any paths makes one machine of one machine, and keeps it confined. -/
theorem simulates_self (before : Machine ι) (fates : Fates) (paths : List PurePosixPath)
    (target : Bool) :
    (executor argvText columns fates).Simulates (executor argvText columns fates) paths target
      fun m m' => m = m' ∧ Confined before m := by
  constructor
  · rintro p - m _ ⟨rfl, hm⟩
    exact ⟨rfl, rfl, isImmutable_confined argvText columns fates p hm⟩
  · rintro p - m _ ⟨rfl, hm⟩
    exact ⟨rfl, rfl, attempt_confined argvText columns fates target p hm⟩

/-- What the user of the units may do: transitions and status reads of controllers with any paths,
and any other command line through `sudo`. -/
inductive Action
  | transition (paths : List PurePosixPath) (target : Bool) (fates : Fates) (now : Int)
  | status (paths : List PurePosixPath) (fates : Fates)
  | command (fate : Fate) (args : List String)

def act (m : Machine ι) : Action → Machine ι
  | .transition paths target fates now =>
    ((executor argvText columns fates).transition paths target now m).2
  | .status paths fates => ((executor argvText columns fates).status paths m).2
  | .command fate args => (runSudoChattr argvText fate args m).2

theorem act_confined {before m : Machine ι} (h : Confined before m) (action : Action) :
    Confined before (act argvText columns m action) := by
  cases action with
  | transition paths target fates now =>
    exact ((simulates_self argvText columns before fates paths target).transition now
      ⟨rfl, h⟩).world.2
  | status paths fates =>
    exact ((simulates_self argvText columns before fates paths true).status ⟨rfl, h⟩).world.2
  | command fate args => exact runSudoChattr_confined argvText h fate args

/-- The sudoers file is surgical. It permits exactly the two flag changes of the default protected
paths; and whatever controllers with any paths and any other `sudo` command lines do, in any order
and however their processes end, no attribute but the flag `i` of these files changes. -/
theorem sudoers_surgical (m : Machine ι) (actions : List Action) :
    (∀ mode path, permits [mode, path] = true ↔
      (mode = "+i" ∨ mode = "-i") ∧ ∃ p ∈ defaultProtectedPaths, p.str = path) ∧
    Confined m (actions.foldl (act argvText columns) m) := by
  constructor
  · intro mode path
    rw [permits_iff]
    simp only [Bool.exists_bool, Subprocess.mode, if_true, Bool.false_eq_true, if_false]
    rw [← or_and_right, or_comm]
  · have hrun : ∀ m', Confined m m' → Confined m (actions.foldl (act argvText columns) m') := by
      induction actions with
      | nil => exact fun m' h => h
      | cons action actions ih => exact fun m' h => ih _ (act_confined argvText columns h action)
    exact hrun m (Confined.refl m)

end Subprocess

end Confinement

end Athena
