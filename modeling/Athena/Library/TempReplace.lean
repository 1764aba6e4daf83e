import Athena.Library.ReadReplace
import Mathlib.Algebra.Order.Field.Rat

/-!
# Replacing a file through temporary files

Processes replace one file of a directory: each reads it, removes temporary files
that have been left behind, writes its new content part by part under a temporary
name of its own, and renames that onto the file. It may stop anywhere. The removal
looks at a file and takes the name away later, so it may hit a file that a process
still writes; what is written then goes to a file without a name, and the rename
fails. What is under the name of the file goes through whole contents only, and
goes through those that the processes of `ReadReplace` give it.
-/

namespace TempReplace

variable {ι Name V : Type*} [DecidableEq ι] [DecidableEq Name]

/-- The names in the directory, from which age on a temporary file is removed, and what a file
holds when it has been opened for writing. -/
structure Names (ι Name V : Type*) where
  out : Name
  temp : ι → Name
  stale : Name → Bool
  age : ℚ≥0
  blank : V
  temp_ne : ∀ i, temp i ≠ out
  out_kept : stale out = false

/-- What is under a name: which file, its content, and the time of its last write. -/
structure File (V : Type*) where
  inode : ℕ
  content : V
  time : ℚ≥0

structure Job (V : Type*) where
  seen : Option V
  text : V

/-- How far a process has come. A sweep knows the time at which it started, and the name that it
is about to remove. -/
inductive Phase (Name V : Type*)
  | idle
  | running (job : Job V)
  | sweeping (job : Job V) (since : ℚ≥0) (doomed : Option Name)
  | opened (job : Job V) (inode : ℕ)
  | written (job : Job V)
  | ended

def Phase.job : Phase Name V → Option (Job V)
  | .idle | .ended => none
  | .running job | .sweeping job _ _ | .opened job _ | .written job => some job

def Phase.doomed : Phase Name V → Option Name
  | .sweeping _ _ doomed => doomed
  | _ => none

/-- The process has opened its temporary file, and not yet renamed it. -/
def Phase.Writing : Phase Name V → Prop
  | .opened _ _ | .written _ => True
  | _ => False

/-- The clock, the directory, the number of files made so far, who uses a name, and the
processes. -/
structure State (ι Name V : Type*) where
  now : ℚ≥0
  files : Name → Option (File V)
  inodes : ℕ
  owner : Name → Option ι
  phase : ι → Phase Name V

def State.start : State ι Name V := ⟨0, fun _ => none, 0, fun _ => none, fun _ => .idle⟩

def State.content (names : Names ι Name V) (s : State ι Name V) : Option V :=
  (s.files names.out).map File.content

/-- `write` leaves any content, `finish` the whole one. A `crash` is any end before its time. -/
inductive Event (ι Name V : Type*)
  | wait (d : ℚ≥0)
  | read (i : ι)
  | sweep (i : ι)
  | stat (i : ι) (k : Name)
  | unlink (i : ι)
  | create (i : ι)
  | write (i : ι) (content : V)
  | finish (i : ι)
  | replace (i : ι)
  | crash (i : ι)

section Machine

variable (names : Names ι Name V) (body : ι → Option V → Option V)

def State.enter (s : State ι Name V) (i : ι) (phase : Phase Name V) : State ι Name V :=
  { s with phase := Function.update s.phase i phase }

def State.setFile (s : State ι Name V) (k : Name) (file : Option (File V)) : State ι Name V :=
  { s with files := Function.update s.files k file }

omit [DecidableEq Name] in
@[simp] theorem State.enter_phase (s : State ι Name V) (i : ι) (phase : Phase Name V) :
    (s.enter i phase).phase i = phase := Function.update_self ..

omit [DecidableEq Name] in
theorem State.enter_phase_of_ne (s : State ι Name V) {i j : ι} (h : j ≠ i) (phase : Phase Name V) :
    (s.enter i phase).phase j = s.phase j := Function.update_of_ne h ..

omit [DecidableEq ι] in
@[simp] theorem State.setFile_files (s : State ι Name V) (k : Name) (file : Option (File V)) :
    (s.setFile k file).files k = file := Function.update_self ..

omit [DecidableEq ι] in
theorem State.setFile_files_of_ne (s : State ι Name V) {k l : Name} (h : l ≠ k)
    (file : Option (File V)) : (s.setFile k file).files l = s.files l :=
  Function.update_of_ne h ..

/-- The process is over and its name free. -/
def close (s : State ι Name V) (i : ι) : State ι Name V :=
  { s.enter i .ended with owner := Function.update s.owner (names.temp i) none }

@[simp] theorem close_phase (s : State ι Name V) (i : ι) : (close names s i).phase i = .ended :=
  s.enter_phase i .ended

/-- The temporary file is opened for writing: made anew, or emptied where a process that had the
name before has left one. -/
def openTemp (s : State ι Name V) (i : ι) (job : Job V) : State ι Name V :=
  match s.files (names.temp i) with
  | some file =>
    (s.setFile (names.temp i) (some ⟨file.inode, names.blank, s.now⟩)).enter i
      (.opened job file.inode)
  | none =>
    { (s.setFile (names.temp i) (some ⟨s.inodes, names.blank, s.now⟩)).enter i
        (.opened job s.inodes) with
      inodes := s.inodes + 1 }

/-- The open file gets a content. Nobody sees that once the file has lost its name. -/
def put (s : State ι Name V) (i : ι) (inode : ℕ) (content : V) : State ι Name V :=
  match s.files (names.temp i) with
  | some file =>
    if file.inode = inode then s.setFile (names.temp i) (some ⟨inode, content, s.now⟩) else s
  | none => s

def rename (s : State ι Name V) (i : ι) (file : File V) : State ι Name V :=
  (s.setFile (names.temp i) none).setFile names.out (some file)

/-- The sweep removes what is under the name and was last written long before the sweep. -/
def Overage (s : State ι Name V) (since : ℚ≥0) (k : Name) : Prop :=
  names.stale k = true ∧ ∃ file ∈ s.files k, file.time + names.age ≤ since

instance (s : State ι Name V) (since : ℚ≥0) (k : Name) : Decidable (Overage names s since k) :=
  inferInstanceAs (Decidable (_ ∧ _))

/-- An event in the states that allow it. A process starts when its name is free; it fails at
once if it makes nothing of what it reads, and in `replace` if its temporary file is gone. -/
def step (s : State ι Name V) : Event ι Name V → Option (State ι Name V)
  | .wait d => some { s with now := s.now + d }
  | .read i =>
    match s.phase i, s.owner (names.temp i) with
    | .idle, none =>
      match body i (s.content names) with
      | some text =>
        some { s.enter i (.running ⟨s.content names, text⟩) with
          owner := Function.update s.owner (names.temp i) (some i) }
      | none => some (s.enter i .ended)
    | _, _ => none
  | .sweep i =>
    match s.phase i with
    | .running job => some (s.enter i (.sweeping job s.now none))
    | _ => none
  | .stat i k =>
    match s.phase i with
    | .sweeping job since none =>
      some (if Overage names s since k then s.enter i (.sweeping job since (some k)) else s)
    | _ => none
  | .unlink i =>
    match s.phase i with
    | .sweeping job since (some k) => some ((s.setFile k none).enter i (.sweeping job since none))
    | _ => none
  | .create i =>
    match s.phase i with
    | .sweeping job _ none => some (openTemp names s i job)
    | _ => none
  | .write i content =>
    match s.phase i with
    | .opened _ inode => some (put names s i inode content)
    | _ => none
  | .finish i =>
    match s.phase i with
    | .opened job inode => some ((put names s i inode job.text).enter i (.written job))
    | _ => none
  | .replace i =>
    match s.phase i with
    | .written _ =>
      match s.files (names.temp i) with
      | some file => some (close names (rename names s i file) i)
      | none => some (close names s i)
    | _ => none
  | .crash i =>
    match (s.phase i).job with
    | some _ => some (close names s i)
    | none => none

def run (s : State ι Name V) (es : List (Event ι Name V)) : Option (State ι Name V) :=
  es.foldlM (step names body) s

/-- What an event can do, and when. -/
inductive Step (s : State ι Name V) : Event ι Name V → State ι Name V → Prop
  | wait (d : ℚ≥0) : Step s (.wait d) { s with now := s.now + d }
  | read {i : ι} {text : V} (hidle : s.phase i = .idle) (hfree : s.owner (names.temp i) = none)
      (hbody : body i (s.content names) = some text) :
      Step s (.read i) { s.enter i (.running ⟨s.content names, text⟩) with
        owner := Function.update s.owner (names.temp i) (some i) }
  | fail {i : ι} (hidle : s.phase i = .idle) : Step s (.read i) (s.enter i .ended)
  | sweep {i : ι} {job : Job V} (hi : s.phase i = .running job) :
      Step s (.sweep i) (s.enter i (.sweeping job s.now none))
  | spare {i : ι} {k : Name} : Step s (.stat i k) s
  | doom {i : ι} {k : Name} {job : Job V} {since : ℚ≥0} (hi : s.phase i = .sweeping job since none)
      (hold : Overage names s since k) :
      Step s (.stat i k) (s.enter i (.sweeping job since (some k)))
  | unlink {i : ι} {k : Name} {job : Job V} {since : ℚ≥0}
      (hi : s.phase i = .sweeping job since (some k)) :
      Step s (.unlink i) ((s.setFile k none).enter i (.sweeping job since none))
  | create {i : ι} {job : Job V} {since : ℚ≥0} (hi : s.phase i = .sweeping job since none) :
      Step s (.create i) (openTemp names s i job)
  | write {i : ι} {job : Job V} {inode : ℕ} {content : V} (hi : s.phase i = .opened job inode) :
      Step s (.write i content) (put names s i inode content)
  | finish {i : ι} {job : Job V} {inode : ℕ} (hi : s.phase i = .opened job inode) :
      Step s (.finish i) ((put names s i inode job.text).enter i (.written job))
  | replace {i : ι} {job : Job V} {file : File V} (hi : s.phase i = .written job)
      (hfile : s.files (names.temp i) = some file) :
      Step s (.replace i) (close names (rename names s i file) i)
  | lost {i : ι} {job : Job V} (hi : s.phase i = .written job)
      (hfile : s.files (names.temp i) = none) : Step s (.replace i) (close names s i)
  | crash {i : ι} {job : Job V} (hi : (s.phase i).job = some job) :
      Step s (.crash i) (close names s i)

theorem step_inv {s s' : State ι Name V} {e : Event ι Name V}
    (h : step names body s e = some s') : Step names body s e s' := by
  cases e with
  | wait d => cases h; exact .wait d
  | read i =>
    simp only [step] at h
    split at h
    case h_1 hidle hfree =>
      split at h <;> cases h
      case h_1 text hbody => exact .read hidle hfree hbody
      case h_2 => exact .fail hidle
    case h_2 => cases h
  | sweep i =>
    simp only [step] at h
    split at h <;> cases h
    case h_1 job hi => exact .sweep hi
  | stat i k =>
    simp only [step] at h
    split at h
    case h_1 job since hi =>
      split_ifs at h with hold <;> cases h
      · exact .doom hi hold
      · exact .spare
    case h_2 => cases h
  | unlink i =>
    simp only [step] at h
    split at h <;> cases h
    case h_1 job since k hi => exact .unlink hi
  | create i =>
    simp only [step] at h
    split at h <;> cases h
    case h_1 job since hi => exact .create hi
  | write i content =>
    simp only [step] at h
    split at h <;> cases h
    case h_1 job inode hi => exact .write hi
  | finish i =>
    simp only [step] at h
    split at h <;> cases h
    case h_1 job inode hi => exact .finish hi
  | replace i =>
    simp only [step] at h
    split at h
    case h_1 job hi =>
      split at h <;> cases h
      case h_1 file hfile => exact .replace hi hfile
      case h_2 hfile => exact .lost hi hfile
    case h_2 => cases h
  | crash i =>
    simp only [step] at h
    split at h <;> cases h
    case h_1 job hi => exact .crash hi

/-- What an event is to the readers of the file: the start of a process, or a rename. -/
def shown (s : State ι Name V) : Event ι Name V → List (ReadReplace.Event ι)
  | .read i => [.read i]
  | .replace i => if (s.files (names.temp i)).isSome then [.replace i] else []
  | _ => []

/-- What the events of a run are to the readers. -/
def shownAlong : State ι Name V → List (Event ι Name V) → List (ReadReplace.Event ι)
  | _, [] => []
  | s, e :: es => shown names s e ++ ((step names body s e).elim [] fun s' => shownAlong s' es)

end Machine

section Refinement

variable {names : Names ι Name V} {body : ι → Option V → Option V}

/-- What a process makes of the file, as a process of `ReadReplace`. -/
def replacement (body : ι → Option V → Option V) (i : ι) (seen : Option V) : Option (Option V) :=
  (body i seen).map some

/-- The process has read what it has read in `ReadReplace`, and its name is its own. -/
structure Reads (names : Names ι Name V) (body : ι → Option V → Option V)
    (t : ReadReplace.State ι (Option V)) (s : State ι Name V) (i : ι) (job : Job V) : Prop where
  seen : t.seen i = some job.seen
  text : body i job.seen = some job.text
  owner : s.owner (names.temp i) = some i

/-- What is known of a process in a phase. Its temporary file, if it still has a name, is the one
that it opened, and in the end it is whole; and it removes temporary files only. -/
def Fits (names : Names ι Name V) (body : ι → Option V → Option V)
    (t : ReadReplace.State ι (Option V)) (s : State ι Name V) (i : ι) : Phase Name V → Prop
  | .idle | .ended => True
  | .running job => Reads names body t s i job
  | .sweeping job since doomed => Reads names body t s i job ∧ since ≤ s.now ∧
      ∀ k ∈ doomed, names.stale k = true
  | .opened job inode => Reads names body t s i job ∧
      ∀ file ∈ s.files (names.temp i), file.inode = inode
  | .written job => Reads names body t s i job ∧
      ∀ file ∈ s.files (names.temp i), file.content = job.text

/-- The readers see the value of `ReadReplace`, and every process is where it is there. -/
structure Refines (names : Names ι Name V) (body : ι → Option V → Option V)
    (t : ReadReplace.State ι (Option V)) (s : State ι Name V) : Prop where
  value : t.value = s.content names
  fits : ∀ i, Fits names body t s i (s.phase i)

variable {t t' : ReadReplace.State ι (Option V)} {s s' : State ι Name V} {i j : ι}

omit [DecidableEq ι] [DecidableEq Name] in
theorem Refines.start (names : Names ι Name V) (body : ι → Option V → Option V) :
    Refines names body (ReadReplace.State.start none) State.start :=
  ⟨rfl, fun _ => trivial⟩

omit [DecidableEq ι] [DecidableEq Name] in
theorem Fits.reads {phase : Phase Name V} {job : Job V} (h : Fits names body t s i phase)
    (hjob : phase.job = some job) : Reads names body t s i job := by
  cases phase with
  | idle => cases hjob
  | running => cases hjob; exact h
  | sweeping => cases hjob; exact h.1
  | opened => cases hjob; exact h.1
  | written => cases hjob; exact h.1
  | ended => cases hjob

omit [DecidableEq ι] [DecidableEq Name] in
theorem temp_ne_of_owner (hi : s.owner (names.temp i) = some i)
    (hj : s.owner (names.temp j) = some j) (hne : j ≠ i) : names.temp j ≠ names.temp i := by
  intro heq
  rw [heq, hi] at hj
  exact hne (Option.some.inj hj).symm

/-- A step leaves a process alone: what it has read, its name, and its temporary file, which at
most loses its name. -/
structure Spares (names : Names ι Name V) (t t' : ReadReplace.State ι (Option V))
    (s s' : State ι Name V) (j : ι) : Prop where
  now : s.now ≤ s'.now
  seen : t'.seen j = t.seen j
  owner : s'.owner (names.temp j) = s.owner (names.temp j)
  files : ∀ file ∈ s'.files (names.temp j), file ∈ s.files (names.temp j)

omit [DecidableEq ι] [DecidableEq Name] in
theorem Reads.spared {job : Job V} (h : Reads names body t s j job)
    (hspares : Spares names t t' s s' j) : Reads names body t' s' j job :=
  ⟨hspares.seen.trans h.seen, h.text, hspares.owner.trans h.owner⟩

omit [DecidableEq ι] [DecidableEq Name] in
theorem Fits.spared {phase : Phase Name V} (h : Fits names body t s j phase)
    (hspares : phase.job.isSome → Spares names t t' s s' j) :
    Fits names body t' s' j phase := by
  cases phase with
  | idle | ended => trivial
  | running job => exact Reads.spared h (hspares rfl)
  | sweeping job since doomed =>
    exact ⟨h.1.spared (hspares rfl), h.2.1.trans (hspares rfl).now, h.2.2⟩
  | opened job inode =>
    exact ⟨h.1.spared (hspares rfl), fun file hfile => h.2 file ((hspares rfl).files file hfile)⟩
  | written job =>
    exact ⟨h.1.spared (hspares rfl), fun file hfile => h.2 file ((hspares rfl).files file hfile)⟩

omit [DecidableEq ι] [DecidableEq Name] in
/-- A step of one process that spares all others that live. -/
theorem Refines.of_step (h : Refines names body t s) (hvalue : t'.value = s'.content names)
    (hphase : ∀ j ≠ i, s'.phase j = s.phase j) (hi : Fits names body t' s' i (s'.phase i))
    (hspares : ∀ j ≠ i, s.owner (names.temp j) = some j → Spares names t t' s s' j) :
    Refines names body t' s' := by
  refine ⟨hvalue, fun j => ?_⟩
  by_cases hji : j = i
  · exact hji ▸ hi
  · rw [hphase j hji]
    refine (h.fits j).spared fun hjob => ?_
    obtain ⟨job, hjob⟩ := Option.isSome_iff_exists.mp hjob
    exact hspares j hji ((h.fits j).reads hjob).owner

omit [DecidableEq Name] in
theorem Refines.of_enter (h : Refines names body t s) {phase : Phase Name V}
    (hi : Fits names body t s i phase) : Refines names body t (s.enter i phase) := by
  refine h.of_step (i := i) h.value (fun j hji => s.enter_phase_of_ne hji phase) ?_
    fun j _ _ => ⟨le_rfl, rfl, rfl, fun _ => id⟩
  rw [State.enter_phase]
  exact hi.spared fun _ => ⟨le_rfl, rfl, rfl, fun _ => id⟩

omit [DecidableEq ι] in
theorem Refines.of_unlink (h : Refines names body t s) {k : Name} (hk : names.out ≠ k) :
    Refines names body t (s.setFile k none) := by
  refine ⟨?_, fun j => (h.fits j).spared fun _ => ⟨le_rfl, rfl, rfl, fun file hfile => ?_⟩⟩
  · rw [h.value, State.content, State.content, s.setFile_files_of_ne hk]
  · by_cases hjk : names.temp j = k
    · rw [hjk, State.setFile_files] at hfile
      cases hfile
    · rwa [s.setFile_files_of_ne hjk] at hfile

theorem Refines.of_close (h : Refines names body t s) (howner : s.owner (names.temp i) = some i) :
    Refines names body t (close names s i) := by
  refine h.of_step (i := i) h.value (fun j hji => Function.update_of_ne hji _ _) ?_
    fun j hji hj => ⟨le_rfl, rfl, ?_, fun _ => id⟩
  · rw [close_phase]
    trivial
  · exact Function.update_of_ne (temp_ne_of_owner howner hj hji) _ _

omit [DecidableEq ι] in
/-- What a process does to its temporary file nobody else sees. -/
theorem Refines.of_setTemp (h : Refines names body t s) {phase : Phase Name V} {job : Job V}
    (hphase : s.phase i = phase) (hjob : phase.job = some job) {file : File V}
    (hi : Fits names body t (s.setFile (names.temp i) (some file)) i phase) :
    Refines names body t (s.setFile (names.temp i) (some file)) := by
  have howner := ((h.fits i).reads (hphase ▸ hjob)).owner
  refine h.of_step (i := i) ?_ (fun _ _ => rfl) (hphase ▸ hi) fun j hji hj => ⟨le_rfl, rfl, rfl, ?_⟩
  · rw [h.value, State.content, State.content, s.setFile_files_of_ne (names.temp_ne i).symm]
  · rw [s.setFile_files_of_ne (temp_ne_of_owner howner hj hji)]
    exact fun _ => id

omit [DecidableEq ι] in
theorem Reads.setFile {job : Job V} (h : Reads names body t s i job) (k : Name)
    (file : Option (File V)) : Reads names body t (s.setFile k file) i job :=
  ⟨h.seen, h.text, h.owner⟩

theorem Refines.of_openTemp (h : Refines names body t s) {job : Job V} {since : ℚ≥0}
    (hi : s.phase i = .sweeping job since none) :
    Refines names body t (openTemp names s i job) := by
  have hfits : Fits names body t s i (.sweeping job since none) := hi ▸ h.fits i
  have hopened : ∀ inode, Refines names body t
      ((s.setFile (names.temp i) (some ⟨inode, names.blank, s.now⟩)).enter i
        (.opened job inode)) := by
    intro inode
    refine (h.of_setTemp hi rfl ⟨hfits.1.setFile _ _, hfits.2⟩).of_enter
      ⟨hfits.1.setFile _ _, fun file hfile => ?_⟩
    rw [State.setFile_files] at hfile
    exact congrArg File.inode (Option.some.inj hfile).symm
  unfold openTemp
  split
  · exact hopened _
  · exact ⟨(hopened s.inodes).value,
      fun j => ((hopened s.inodes).fits j).spared fun _ => ⟨le_rfl, rfl, rfl, fun _ => id⟩⟩

omit [DecidableEq ι] in
/-- What a process writes goes to its temporary file, or to a file that has lost its name. -/
theorem put_cases {inode : ℕ} (hopen : ∀ file ∈ s.files (names.temp i), file.inode = inode)
    (content : V) :
    s.files (names.temp i) = none ∧ put names s i inode content = s ∨
      put names s i inode content =
        s.setFile (names.temp i) (some ⟨inode, content, s.now⟩) := by
  cases hfile : s.files (names.temp i) with
  | none => exact .inl ⟨rfl, by simp only [put, hfile]⟩
  | some file => exact .inr (by simp only [put, hfile, hopen file hfile, if_true])

omit [DecidableEq ι] in
theorem Refines.of_put (h : Refines names body t s) {job : Job V} {inode : ℕ}
    (hi : s.phase i = .opened job inode) (content : V) :
    Refines names body t (put names s i inode content) := by
  obtain ⟨hreads, hopen⟩ : Fits names body t s i (.opened job inode) := hi ▸ h.fits i
  rcases put_cases hopen content with ⟨-, hput⟩ | hput
  · rw [hput]
    exact h
  · rw [hput]
    refine h.of_setTemp hi rfl ⟨hreads.setFile _ _, fun file hfile => ?_⟩
    rw [State.setFile_files] at hfile
    exact congrArg File.inode (Option.some.inj hfile).symm

theorem Refines.of_finish (h : Refines names body t s) {job : Job V} {inode : ℕ}
    (hi : s.phase i = .opened job inode) :
    Refines names body t ((put names s i inode job.text).enter i (.written job)) := by
  obtain ⟨hreads, hopen⟩ : Fits names body t s i (.opened job inode) := hi ▸ h.fits i
  refine (h.of_put hi job.text).of_enter ?_
  rcases put_cases hopen job.text with ⟨hnone, hput⟩ | hput
  · rw [hput]
    refine ⟨hreads, fun file hfile => ?_⟩
    rw [hnone] at hfile
    cases hfile
  · rw [hput]
    refine ⟨hreads.setFile _ _, fun file hfile => ?_⟩
    rw [State.setFile_files] at hfile
    exact congrArg File.content (Option.some.inj hfile).symm

/-- The new file is what the process makes of what it has read. -/
theorem Refines.of_rename (h : Refines names body t s) {job : Job V}
    (hi : s.phase i = .written job) {file : File V} (hfile : s.files (names.temp i) = some file) :
    Refines names body (ReadReplace.step (replacement body) t (.replace i))
      (close names (rename names s i file) i) := by
  obtain ⟨hreads, hwhole⟩ : Fits names body t s i (.written job) := hi ▸ h.fits i
  have hreplace : replacement body i job.seen = some (some job.text) := by
    rw [replacement, hreads.text, Option.map_some]
  rw [ReadReplace.step_replace hreads.seen hreplace]
  refine h.of_step (i := i) ?_ (fun j hji => Function.update_of_ne hji _ _) ?_
    fun j hji hj => ⟨le_rfl, rfl, ?_, fun file' hfile' => ?_⟩
  · simp only [State.content, close, rename, State.enter, State.setFile, Function.update_self,
      Option.map_some, hwhole file hfile]
  · rw [close_phase]
    trivial
  · exact Function.update_of_ne (temp_ne_of_owner hreads.owner hj hji) _ _
  · simp only [close, rename, State.enter, State.setFile] at hfile'
    rwa [Function.update_of_ne (names.temp_ne j),
      Function.update_of_ne (temp_ne_of_owner hreads.owner hj hji)] at hfile'

theorem Refines.of_read (h : Refines names body t s) (hfree : s.owner (names.temp i) = none)
    {text : V} (hbody : body i (s.content names) = some text) :
    Refines names body (ReadReplace.step (replacement body) t (.read i))
      { s.enter i (.running ⟨s.content names, text⟩) with
        owner := Function.update s.owner (names.temp i) (some i) } := by
  refine h.of_step (i := i) h.value (fun j hji => Function.update_of_ne hji _ _) ?_
    fun j hji hj => ⟨le_rfl, Function.update_of_ne hji _ _, ?_, fun _ => id⟩
  · rw [show State.phase _ i = _ from s.enter_phase i _]
    exact ⟨(Function.update_self ..).trans (congrArg some h.value), hbody,
      Function.update_self ..⟩
  · have hne : names.temp j ≠ names.temp i := by
      intro heq
      rw [heq, hfree] at hj
      cases hj
    exact Function.update_of_ne hne _ _

omit [DecidableEq Name] in
theorem Refines.of_failed_read (h : Refines names body t s) :
    Refines names body (ReadReplace.step (replacement body) t (.read i)) (s.enter i .ended) := by
  refine h.of_step (i := i) h.value (fun j hji => Function.update_of_ne hji _ _) ?_
    fun j hji hj => ⟨le_rfl, Function.update_of_ne hji _ _, rfl, fun _ => id⟩
  rw [State.enter_phase]
  trivial

theorem Refines.step {e : Event ι Name V} (h : Refines names body t s)
    (hstep : step names body s e = some s') :
    Refines names body (ReadReplace.run (replacement body) t (shown names s e)) s' := by
  cases step_inv names body hstep with
  | wait d =>
    exact ⟨h.value, fun i => (h.fits i).spared fun _ => ⟨le_self_add, rfl, rfl, fun _ => id⟩⟩
  | read hidle hfree hbody => exact h.of_read hfree hbody
  | fail hidle => exact h.of_failed_read
  | @sweep i job hi =>
    have hreads : Fits names body t s i (.running job) := hi ▸ h.fits i
    exact h.of_enter ⟨hreads, le_rfl, nofun⟩
  | spare => exact h
  | @doom i k job since hi hold =>
    have hfits : Fits names body t s i (.sweeping job since none) := hi ▸ h.fits i
    refine h.of_enter ⟨hfits.1, hfits.2.1, fun l hl => ?_⟩
    cases hl
    exact hold.1
  | @unlink i k job since hi =>
    have hfits : Fits names body t s i (.sweeping job since (some k)) := hi ▸ h.fits i
    have hout : names.out ≠ k := by
      rintro rfl
      exact Bool.false_ne_true (names.out_kept.symm.trans (hfits.2.2 _ rfl))
    exact (h.of_unlink hout).of_enter ⟨hfits.1.setFile k none, hfits.2.1, nofun⟩
  | create hi => exact h.of_openTemp hi
  | write hi => exact h.of_put hi _
  | finish hi => exact h.of_finish hi
  | @replace i job file hi hfile =>
    rw [shown, hfile]
    exact h.of_rename hi hfile
  | @lost i job hi hfile =>
    rw [shown, hfile]
    exact h.of_close ((h.fits i).reads (by rw [hi]; rfl)).owner
  | @crash i job hi => exact h.of_close ((h.fits i).reads hi).owner

/-- The run rule: a directory refines the machine of `ReadReplace` on what its events are to the
readers. -/
theorem Refines.run {es : List (Event ι Name V)} (h : Refines names body t s)
    (hrun : run names body s es = some s') :
    Refines names body
      (ReadReplace.run (replacement body) t (shownAlong names body s es)) s' := by
  induction es generalizing s t with
  | nil =>
    cases hrun
    exact h
  | cons e es ih =>
    obtain ⟨mid, hmid, hrest⟩ := Option.bind_eq_some_iff.mp hrun
    rw [shownAlong, hmid, Option.elim_some, ReadReplace.run_append]
    exact ih (h.step hmid) hrest

def Unmarked (s : State ι Name V) (k : Name) : Prop := ∀ j, (s.phase j).doomed ≠ some k

/-- The temporary file that a process opened at a time: no sweep takes it before it has grown
old. -/
structure Kept (names : Names ι Name V) (i : ι) (start : ℚ≥0) (s : State ι Name V) : Prop where
  start_le : start ≤ s.now
  safe : s.phase i = .ended ∨ (s.phase i).Writing ∧ (s.now < start + names.age →
    (∃ file ∈ s.files (names.temp i), start ≤ file.time) ∧ Unmarked s (names.temp i))

omit [DecidableEq Name] in
theorem forall_enter {P : Phase Name V → Prop} (h : ∀ j, P (s.phase j)) {phase : Phase Name V}
    (hphase : P phase) (j : ι) : P ((s.enter i phase).phase j) := by
  by_cases hji : j = i
  · rw [hji, State.enter_phase]
    exact hphase
  · rw [s.enter_phase_of_ne hji]
    exact h j

variable {start : ℚ≥0}

omit [DecidableEq Name] in
theorem Kept.of_enter (h : Kept names i start s) (hne : j ≠ i) {phase : Phase Name V}
    (hdoomed : ∀ k ∈ phase.doomed, (s.phase i).Writing → s.now < start + names.age →
      (∃ file ∈ s.files (names.temp i), start ≤ file.time) → k ≠ names.temp i) :
    Kept names i start (s.enter j phase) := by
  refine ⟨h.start_le, ?_⟩
  rw [s.enter_phase_of_ne hne.symm]
  refine h.safe.imp_right fun ⟨hwriting, hsafe⟩ => ⟨hwriting, fun hyoung => ?_⟩
  obtain ⟨hfile, hunmarked⟩ := hsafe hyoung
  refine ⟨hfile, forall_enter (P := fun p => p.doomed ≠ some (names.temp i)) hunmarked
    fun hk => ?_⟩
  exact hdoomed _ hk hwriting hyoung hfile rfl

omit [DecidableEq ι] in
theorem Kept.of_setFile (h : Kept names i start s) {k : Name} (file : Option (File V))
    (hk : (s.phase i).Writing → Unmarked s (names.temp i) → names.temp i ≠ k) :
    Kept names i start (s.setFile k file) := by
  refine ⟨h.start_le, h.safe.imp_right fun ⟨hwriting, hsafe⟩ => ⟨hwriting, fun hyoung => ?_⟩⟩
  obtain ⟨hfile, hunmarked⟩ := hsafe hyoung
  rw [s.setFile_files_of_ne (hk hwriting hunmarked)]
  exact ⟨hfile, hunmarked⟩

theorem Kept.ended (hstart : start ≤ s.now) : Kept names i start (close names s i) :=
  ⟨hstart, .inl (close_phase names s i)⟩

theorem Kept.of_close (h : Kept names i start s) (j : ι) :
    Kept names i start (close names s j) := by
  by_cases hji : j = i
  · exact hji ▸ .ended h.start_le
  · have hend : Kept names i start (s.enter j .ended) := h.of_enter hji nofun
    exact ⟨hend.start_le, hend.safe⟩

omit [DecidableEq ι] in
theorem Kept.of_put (h : Kept names i start s)
    (hne : j ≠ i → (s.phase i).Writing → names.temp i ≠ names.temp j) (inode : ℕ) (content : V) :
    Kept names i start (put names s j inode content) := by
  unfold put
  split
  case h_2 => exact h
  split_ifs
  case neg => exact h
  by_cases hji : j = i
  · subst hji
    refine ⟨h.start_le, h.safe.imp_right fun ⟨hwriting, hsafe⟩ =>
      ⟨hwriting, fun hyoung => ⟨⟨⟨inode, content, s.now⟩, ?_, h.start_le⟩, (hsafe hyoung).2⟩⟩⟩
    rw [State.setFile_files]
    rfl
  · exact h.of_setFile _ fun hwriting _ => hne hji hwriting

omit [DecidableEq ι] in
@[simp] theorem put_phase (s : State ι Name V) (j : ι) (inode : ℕ) (content : V) :
    (put names s j inode content).phase = s.phase := by
  unfold put
  split
  · split_ifs <;> rfl
  · rfl

omit [DecidableEq Name] in
theorem Kept.of_enter_self (h : Kept names i start s) {phase : Phase Name V}
    (hbefore : (s.phase i).Writing) (hafter : phase.Writing) (hdoomed : phase.doomed = none) :
    Kept names i start (s.enter i phase) := by
  refine ⟨h.start_le, ?_⟩
  rcases h.safe with hended | ⟨-, hsafe⟩
  · rw [hended] at hbefore
    exact hbefore.elim
  · rw [s.enter_phase]
    refine .inr ⟨hafter, fun hyoung => ⟨(hsafe hyoung).1, ?_⟩⟩
    exact forall_enter (P := fun p => p.doomed ≠ some (names.temp i)) (hsafe hyoung).2
      (by rw [hdoomed]; nofun)

theorem Kept.of_openTemp (h : Kept names i start s) (hji : j ≠ i)
    (hne : (s.phase i).Writing → names.temp i ≠ names.temp j) (job : Job V) :
    Kept names i start (openTemp names s j job) := by
  have hopened : ∀ file inode, Kept names i start
      ((s.setFile (names.temp j) (some file)).enter j (.opened job inode)) :=
    fun file inode => (h.of_setFile _ fun hw _ => hne hw).of_enter hji nofun
  unfold openTemp
  split
  · exact hopened _ _
  · have hnew := hopened ⟨s.inodes, names.blank, s.now⟩ s.inodes
    exact ⟨hnew.start_le, hnew.safe⟩

theorem Kept.step {e : Event ι Name V} (hrefines : Refines names body t s)
    (h : Kept names i start s) (hstep : step names body s e = some s') :
    Kept names i start s' := by
  -- `i` has opened its file: whoever is in another phase is another process
  have hother : ∀ {j}, (¬ (s.phase j).Writing ∧ s.phase j ≠ .ended) → j ≠ i := by
    rintro j ⟨hwriting, hended⟩ rfl
    rcases h.safe with hi | hi
    · exact hended hi
    · exact hwriting hi.1
  have hname : ∀ {j}, j ≠ i → ∀ {job}, (s.phase j).job = some job → (s.phase i).Writing →
      names.temp i ≠ names.temp j := by
    intro j hji job hjob hwriting
    obtain ⟨job', hjob'⟩ : ∃ job', (s.phase i).job = some job' := by
      cases hi : s.phase i with
      | opened job' => exact ⟨job', rfl⟩
      | written job' => exact ⟨job', rfl⟩
      | idle | running | sweeping | ended => rw [hi] at hwriting; exact hwriting.elim
    exact temp_ne_of_owner ((hrefines.fits j).reads hjob).owner
      ((hrefines.fits i).reads hjob').owner hji.symm
  cases step_inv names body hstep with
  | wait d =>
    refine ⟨h.start_le.trans le_self_add,
      h.safe.imp_right fun ⟨hwriting, hsafe⟩ => ⟨hwriting, fun hyoung => hsafe ?_⟩⟩
    exact le_self_add.trans_lt hyoung
  | @read j text hidle hfree hbody =>
    have hnew : Kept names i start (s.enter j (.running ⟨s.content names, text⟩)) :=
      h.of_enter (hother (by simp [hidle, Phase.Writing])) nofun
    exact ⟨hnew.start_le, hnew.safe⟩
  | @fail j hidle => exact h.of_enter (hother (by simp [hidle, Phase.Writing])) nofun
  | @sweep j job hj => exact h.of_enter (hother (by simp [hj, Phase.Writing])) nofun
  | spare => exact h
  | @doom j k job since hj hold =>
    obtain ⟨-, hsince, -⟩ : Fits names body t s j (.sweeping job since none) :=
      hj ▸ hrefines.fits j
    refine h.of_enter (hother (by simp [hj, Phase.Writing])) ?_
    rintro l hl - hyoung ⟨file, hfile, htime⟩ rfl
    cases hl
    -- the file is too young for the sweep
    obtain ⟨-, file', hfile', hold⟩ := hold
    cases hfile.symm.trans hfile'
    exact ((add_le_add_left htime names.age).trans (hold.trans hsince)).not_gt hyoung
  | @unlink j k job since hj =>
    refine (h.of_setFile none fun hwriting hunmarked hk => ?_).of_enter
      (hother (by simp [hj, Phase.Writing])) nofun
    exact hunmarked j (by rw [hj, hk]; rfl)
  | @create j job since hj =>
    have hji : j ≠ i := hother (by simp [hj, Phase.Writing])
    exact h.of_openTemp hji (hname hji (by rw [hj]; rfl)) job
  | @write j job inode content hj =>
    exact h.of_put (fun hji => hname hji (by rw [hj]; rfl)) inode content
  | @finish j job inode hj =>
    have hput := h.of_put (fun hji => hname hji (by rw [hj]; rfl)) inode job.text
    by_cases hji : j = i
    · subst hji
      exact hput.of_enter_self (by rw [put_phase, hj]; trivial) trivial rfl
    · exact hput.of_enter hji nofun
  | @replace j job file hj hfile =>
    by_cases hji : j = i
    · exact hji ▸ .ended h.start_le
    · have hremoved : Kept names i start (s.setFile (names.temp j) none) :=
        h.of_setFile _ fun hwriting _ => hname hji (by rw [hj]; rfl) hwriting
      exact (hremoved.of_setFile _ fun _ _ => names.temp_ne i).of_close j
  | lost | crash => exact h.of_close _

theorem Kept.run {es : List (Event ι Name V)} (hrefines : Refines names body t s)
    (h : Kept names i start s) (hrun : run names body s es = some s') :
    Kept names i start s' := by
  induction es generalizing s t with
  | nil =>
    cases hrun
    exact h
  | cons e es ih =>
    obtain ⟨mid, hmid, hrest⟩ := Option.bind_eq_some_iff.mp hrun
    exact ih (hrefines.step hmid) (h.step hrefines hmid) hrest

theorem Kept.opened (hstep : TempReplace.step names body s (.create i) = some s')
    (hunmarked : Unmarked s (names.temp i)) : Kept names i s.now s' := by
  cases step_inv names body hstep with
  | @create _ job since hi =>
  have hopened : ∀ file : File V, file.time = s.now → ∀ inode, Kept names i s.now
      ((s.setFile (names.temp i) (some file)).enter i (.opened job inode)) := by
    intro file htime inode
    refine ⟨le_rfl, .inr ⟨?_, fun _ => ⟨⟨file, ?_, htime.ge⟩, ?_⟩⟩⟩
    · rw [State.enter_phase]
      trivial
    · exact s.setFile_files _ _
    · exact forall_enter (P := fun p => p.doomed ≠ some (names.temp i))
        (s := s.setFile (names.temp i) (some file)) hunmarked nofun
  unfold openTemp
  split
  · exact hopened _ rfl _
  · have hnew := hopened ⟨s.inodes, names.blank, s.now⟩ rfl s.inodes
    exact ⟨hnew.start_le, hnew.safe⟩

omit [DecidableEq ι] [DecidableEq Name] in
/-- A process that renames its file before that has grown old finds it whole. -/
theorem Refines.prompt (h : Refines names body t s) {job : Job V}
    (hi : s.phase i = .written job) {start : ℚ≥0} (hkept : Kept names i start s)
    (hyoung : s.now < start + names.age) :
    ∃ file, s.files (names.temp i) = some file ∧ file.content = job.text := by
  have hfits : Fits names body t s i (.written job) := hi ▸ h.fits i
  rcases hkept.safe with hended | ⟨-, hsafe⟩
  · rw [hi] at hended
    cases hended
  · obtain ⟨⟨file, hfile, -⟩, -⟩ := hsafe hyoung
    exact ⟨file, hfile, hfits.2 file hfile⟩

/-- The names that occur are the file's and those of the processes. -/
def Known (names : Names ι Name V) (s : State ι Name V) : Prop :=
  ∀ k, s.files k ≠ none → k = names.out ∨ ∃ i, k = names.temp i

omit [DecidableEq ι] in
theorem Known.setFile (h : Known names s) {k : Name} {file : Option (File V)}
    (hk : file ≠ none → k = names.out ∨ ∃ i, k = names.temp i) :
    Known names (s.setFile k file) := by
  intro l hl
  by_cases hlk : l = k
  · subst hlk
    rw [State.setFile_files] at hl
    exact hk hl
  · rw [s.setFile_files_of_ne hlk] at hl
    exact h l hl

omit [DecidableEq ι] in
theorem Known.put (h : Known names s) (i : ι) (inode : ℕ) (content : V) :
    Known names (put names s i inode content) := by
  unfold TempReplace.put
  split
  · split_ifs
    · exact h.setFile fun _ => .inr ⟨i, rfl⟩
    · exact h
  · exact h

theorem Known.step {e : Event ι Name V} (h : Known names s)
    (hstep : step names body s e = some s') : Known names s' := by
  have htemp : ∀ (i : ι) (file : Option (File V)), Known names (s.setFile (names.temp i) file) :=
    fun i _ => h.setFile fun _ => .inr ⟨i, rfl⟩
  cases step_inv names body hstep with
  | wait | read | fail | sweep | spare | doom | lost | crash => exact h
  | unlink => exact h.setFile (absurd rfl)
  | @create i job =>
    unfold openTemp
    split
    · exact htemp i _
    · exact htemp i _
  | write => exact h.put _ _ _
  | finish => exact h.put _ _ _
  | @replace i job file =>
    exact (htemp i none).setFile fun _ => .inl rfl

theorem Known.run {es : List (Event ι Name V)} (h : Known names s)
    (hrun : run names body s es = some s') : Known names s' := by
  induction es generalizing s with
  | nil =>
    cases hrun
    exact h
  | cons e es ih =>
    obtain ⟨mid, hmid, hrest⟩ := Option.bind_eq_some_iff.mp hrun
    exact ih (h.step hmid) hrest

end Refinement

end TempReplace
