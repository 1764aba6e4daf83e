import Athena.Library.TempReplace
import Athena.Metrics.Emitters
import Mathlib.Tactic.NormNum

/-!
# The directory of the textfile collector

`emit_logger_sync_metric.py` writes its metrics to a temporary file with its
process id in the name and renames that onto the `.prom` file, while others do
the same, remove temporary files that are older than five minutes, or are killed.
The collector reads whatever ends in `.prom`.
-/

namespace Athena

namespace LoggerSync

open TempReplace

variable {ι : Type*}

def outputName : List Char := "athena_logger_sync.prom".toList

/-- `args.output.with_suffix(f"{args.output.suffix}.{os.getpid()}.tmp")`. -/
def tmpName (pid : ℕ) : List Char := outputName ++ '.' :: (pid.repr.toList ++ ".tmp".toList)

/-- What `parent.glob(f"{target.stem}{target.suffix}.*.tmp")` matches. -/
def sweeps (name : List Char) : Bool :=
  outputName.length + 5 ≤ name.length && (outputName ++ ['.']).isPrefixOf name &&
    ".tmp".toList.isSuffixOf name

def staleTmpAgeSeconds : ℚ≥0 := 300

/-- What the collector reads. -/
def Scraped (name : List Char) : Prop := ".prom".toList <:+ name

theorem tmpName_ne (pid : ℕ) : tmpName pid ≠ outputName := by
  intro heq
  have hlength := congrArg List.length heq
  rw [tmpName, List.length_append, List.length_cons] at hlength
  omega

theorem not_scraped_tmpName (pid : ℕ) : ¬ Scraped (tmpName pid) := by
  rintro ⟨front, hfront⟩
  have hlast : (tmpName pid).getLast? = some 'p' := by
    have htmp : ".tmp".toList = ['.', 't', 'm', 'p'] := rfl
    rw [tmpName, htmp]
    simp [List.getLast?_append, List.getLast?_cons]
  have hprom : ".prom".toList = ['.', 'p', 'r', 'o', 'm'] := rfl
  rw [← hfront, hprom] at hlast
  simp [List.getLast?_append] at hlast

/-- The directory, with the process ids of the runs. -/
def names (pid : ι → ℕ) : Names ι (List Char) (List Char) where
  out := outputName
  temp i := tmpName (pid i)
  stale := sweeps
  age := staleTmpAgeSeconds
  blank := []
  temp_ne i := tmpName_ne (pid i)
  out_kept := by decide

/-- What a run makes of the file it has read; nothing if it raises. -/
def newContent (runs : ι → Emission) (i : ι) (seen : Option (List Char)) : Option (List Char) :=
  (main seen (runs i)).toOption

theorem replacement_newContent (runs : ι → Emission) :
    TempReplace.replacement (newContent runs) = fun i => Athena.replacement main (runs i) := by
  funext i seen
  unfold TempReplace.replacement newContent Athena.replacement
  cases main seen (runs i) <;> rfl

variable [DecidableEq ι] {pid : ι → ℕ} {runs : ι → Emission}

theorem content_emitted (hvalid : ∀ i, (runs i).Valid) {es : List (TempReplace.Event ι _ _)}
    {s : State ι (List Char) (List Char)}
    (hrun : run (names pid) (newContent runs) State.start es = some s) :
    ∃ chain : List ι, emitted (chain.map runs) = .ok (s.content (names pid)) := by
  have hrefines := (Refines.start (names pid) (newContent runs)).run hrun
  have hlineage := emittedBy_lineage readable_none (fun i _ => main_readable (hvalid i))
    (shownAlong (names pid) (newContent runs) State.start es)
  refine ⟨ReadReplace.lineage (shownAlong (names pid) (newContent runs) State.start es), ?_⟩
  rw [← hrefines.value, replacement_newContent]
  exact hlineage

omit [DecidableEq ι] in
theorem main_of_text {i : ι} {seen : Option (List Char)} {text : List Char}
    (h : newContent runs i seen = some text) : main seen (runs i) = .ok text := by
  unfold newContent at h
  cases hmain : main seen (runs i) with
  | error err => rw [hmain] at h; cases h
  | ok out => rw [hmain] at h; cases h; rfl

theorem replace_published {t : ReadReplace.State ι _} {s : State ι (List Char) (List Char)}
    (hrefines : Refines (names pid) (newContent runs) t s) {i : ι} {job : Job (List Char)}
    (hi : s.phase i = .written job) {file : File (List Char)}
    (hfile : s.files ((names pid).temp i) = some file) :
    ∃ s', step (names pid) (newContent runs) s (.replace i) = some s' ∧
      s'.content (names pid) = some job.text ∧ main job.seen (runs i) = .ok job.text := by
  obtain ⟨hreads, hwhole⟩ : Fits (names pid) (newContent runs) t s i (.written job) :=
    hi ▸ hrefines.fits i
  refine ⟨close (names pid) (rename (names pid) s i file) i, by simp only [step, hi, hfile], ?_,
    main_of_text hreads.text⟩
  simp [State.content, close, rename, State.enter, State.setFile, hwhole file hfile]

def slowPid : Fin 2 → ℕ := ![17, 18]

/-- One emitter stalls over its temporary file until the other removes that. -/
def slowEvents : List (TempReplace.Event (Fin 2) (List Char) (List Char)) :=
  [.read 0, .sweep 0, .create 0, .write 0 ['#'], .wait 300, .read 1, .sweep 1,
    .stat 1 (tmpName 17), .finish 0, .unlink 1, .replace 0]

/-- The other then writes its own. -/
def promptEvents : List (TempReplace.Event (Fin 2) (List Char) (List Char)) :=
  [.write 1 ['#'], .finish 1, .wait 10]

theorem slowEvents_run :
    ∃ text, newContent twoRuns 1 none = some text ∧ ∃ s₀,
      run (names slowPid) (newContent twoRuns) State.start slowEvents = some s₀ ∧
      s₀.content (names slowPid) = none ∧ s₀.now = 300 ∧ Unmarked s₀ (tmpName 18) ∧
      s₀.phase 1 = .sweeping ⟨none, text⟩ 300 none ∧ s₀.files (tmpName 18) = none := by
  obtain ⟨text₀, hmain₀, -⟩ := main_readable (twoRuns_valid 0) readable_none
  obtain ⟨text₁, hmain₁, -⟩ := main_readable (twoRuns_valid 1) readable_none
  have hbody₀ : newContent twoRuns 0 none = some text₀ := by rw [newContent, hmain₀]; rfl
  have hbody₁ : newContent twoRuns 1 none = some text₁ := by rw [newContent, hmain₁]; rfl
  have hsweeps : sweeps (tmpName 17) = true := by decide
  have hne : tmpName 18 ≠ tmpName 17 := by decide
  have hout : ∀ pid, outputName ≠ tmpName pid := fun pid => (tmpName_ne pid).symm
  refine ⟨text₁, hbody₁, ?_⟩
  simp [run, slowEvents, step, names, slowPid, State.start, State.content, State.enter,
    State.setFile, put, openTemp, close, Overage, Unmarked, Phase.doomed, Fin.forall_fin_two,
    hbody₀, hbody₁, hsweeps, hout, hne, staleTmpAgeSeconds]

theorem promptEvents_run {s₀ : State (Fin 2) (List Char) (List Char)} {job : Job (List Char)}
    (hphase : s₀.phase 1 = .sweeping job 300 none) (hfile : s₀.files (tmpName 18) = none)
    (hnow : s₀.now = 300) :
    ∃ s, run (names slowPid) (newContent twoRuns) s₀ (.create 1 :: promptEvents) = some s ∧
      s.phase 1 = .written job ∧ s.now = 300 + 10 := by
  simp [run, promptEvents, step, names, slowPid, State.enter, State.setFile, put, openTemp,
    hphase, hfile, hnow]

end LoggerSync

end Athena
