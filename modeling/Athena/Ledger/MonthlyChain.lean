import Athena.Ledger.Months
import Athena.Core.Datetime

/-!
# The archiver command

`monthlyMain` is `monthly_ledger_chain.main` behind its argument parser: the
segment hash of a month, and the JSON document that is written to one or two
read-only files. A document stands for its text, which `json.loads` reads back
as the same value.
-/

namespace Athena

structure ArchivedFile (α : Type) where
  content : α
  mode : ℕ
  deriving DecidableEq, Repr

abbrev ArchiveDisk (α : Type) := String → Option (ArchivedFile α)

/-- The file operations of `_atomic_write_readonly`. -/
inductive ArchiveStep
  | mkdir
  | widen
  | openTmp
  | write
  | sync
  | replace
  | unlink
  | syncDir
  | restrict
  deriving DecidableEq, Repr

/-- The circumstances of a write: the operations that raise, what an interrupted write has
left in the `.tmp` file, and the permission bits of a new file. -/
structure ArchiveEnv (α : Type) where
  fails : ArchiveStep → Bool
  torn : α
  createMode : ℕ

section Write

variable {α : Type}

/-- `target.with_suffix(target.suffix + ".tmp")`. -/
def archiveTmp (target : String) : String := target ++ ".tmp"

/-- The files once an existing target has been made writable. -/
def widenTarget (target : String) (disk : ArchiveDisk α) : ArchiveDisk α :=
  Function.update disk target ((disk target).map fun f => { f with mode := 0o644 })

/-- What a `try` block that raised at the given operation has left in the `.tmp` file. -/
def leftInTmp (env : ArchiveEnv α) (target : String) (body : α) (disk : ArchiveDisk α) :
    ArchiveStep → Option (ArchivedFile α)
  | .openTmp => disk (archiveTmp target)
  | .write => some ⟨env.torn, ((disk (archiveTmp target)).map (·.mode)).getD env.createMode⟩
  | _ => some ⟨body, ((disk (archiveTmp target)).map (·.mode)).getD env.createMode⟩

/-- `_atomic_write_readonly`: the operation that raised, if one did, and the files it leaves. -/
def atomicWriteReadonly (env : ArchiveEnv α) (target : String) (body : α) (disk : ArchiveDisk α) :
    Except ArchiveStep Unit × ArchiveDisk α :=
  let tmp := archiveTmp target
  if env.fails .mkdir then (.error .mkdir, disk)
  else if (disk target).isSome ∧ env.fails .widen then (.error .widen, disk)
  else
    let widened := widenTarget target disk
    match [ArchiveStep.openTmp, .write, .sync, .replace].find? env.fails with
    | some step =>
      if env.fails .unlink then
        (.error .unlink, Function.update widened tmp (leftInTmp env target body widened step))
      else (.error step, Function.update widened tmp none)
    | none =>
      let written := leftInTmp env target body widened .replace
      let replaced := Function.update (Function.update widened target written) tmp none
      match [ArchiveStep.syncDir, .restrict].find? env.fails with
      | some step => (.error step, replaced)
      | none => (.ok (), Function.update replaced target (some ⟨body, 0o444⟩))

/-- A write that returns leaves the body, read-only, and touches only target and `.tmp` file. -/
theorem atomicWriteReadonly_ok {env : ArchiveEnv α} {target : String} {body : α}
    {disk : ArchiveDisk α} (h : (atomicWriteReadonly env target body disk).1 = .ok ()) :
    (atomicWriteReadonly env target body disk).2 target = some ⟨body, 0o444⟩ ∧
      ∀ path, path ≠ target → path ≠ archiveTmp target →
        (atomicWriteReadonly env target body disk).2 path = disk path := by
  unfold atomicWriteReadonly at h ⊢
  by_cases hmkdir : env.fails .mkdir
  · rw [if_pos hmkdir] at h
    cases h
  by_cases hwiden : (disk target).isSome ∧ env.fails .widen
  · rw [if_neg hmkdir, if_pos hwiden] at h
    cases h
  rw [if_neg hmkdir, if_neg hwiden] at h ⊢
  cases htry : [ArchiveStep.openTmp, .write, .sync, .replace].find? env.fails with
  | some step =>
    rw [htry] at h
    dsimp only at h
    split_ifs at h
  | none =>
    rw [htry] at h
    cases hrest : [ArchiveStep.syncDir, .restrict].find? env.fails with
    | some step =>
      rw [hrest] at h
      cases h
    | none =>
      dsimp only
      refine ⟨Function.update_self _ _ _, fun path htarget htmp => ?_⟩
      rw [Function.update_of_ne htarget, Function.update_of_ne htmp, Function.update_of_ne htarget,
        widenTarget, Function.update_of_ne htarget]

def ArchiveEnv.calm (torn : α) : ArchiveEnv α := ⟨fun _ => false, torn, 0o644⟩

theorem atomicWriteReadonly_calm (torn : α) (target : String) (body : α) (disk : ArchiveDisk α) :
    (atomicWriteReadonly (.calm torn) target body disk).1 = .ok () := by
  simp [atomicWriteReadonly, ArchiveEnv.calm]

end Write

/-- The arguments after parsing. `--year` and `--month` are given together: `choices` bounds
the month and nothing bounds the year. -/
structure MonthlyArgs where
  month : Calendar.Month
  prevSegmentHash : Option String
  outLocal : String
  s3Placeholder : Option String

/-- `datetime.now(UTC).isoformat()`, from the fields of the reading. -/
def isoformatUtc (d : Datetime) : String :=
  zeroPad 4 d.date.year ++ "-" ++ zeroPad 2 d.date.month ++ "-" ++ zeroPad 2 d.date.day ++ "T" ++
    zeroPad 2 d.hour ++ ":" ++ zeroPad 2 d.minute ++ ":" ++ zeroPad 2 d.second ++
    (if d.microsecond = ⟨0, by decide⟩ then "" else "." ++ zeroPad 6 d.microsecond) ++ "+00:00"

def PyValue.ofString (s : String) : PyValue := .str (PyStr.ofString s)

/-- The JSON document of a segment, its keys sorted. -/
def segmentDocument (policyVersionSha : String) (result : SegmentHashResult) : PyValue :=
  .dict [(PyStr.ofString "computed_at_utc", .ofString result.computedAtUtc),
    (PyStr.ofString "entry_count", .int result.entryCount),
    (PyStr.ofString "first_id", result.firstId.elim .none .int),
    (PyStr.ofString "last_id", result.lastId.elim .none .int),
    (PyStr.ofString "month", .ofString result.month),
    (PyStr.ofString "policy_version_git_sha", .ofString policyVersionSha),
    (PyStr.ofString "prev_segment_hash", result.prevSegmentHash.elim .none .ofString),
    (PyStr.ofString "segment_hash", .ofString result.segmentHash)]

/-- How a run ends: `LEDGER_SEGMENT_COMPUTE_FAILED`, a file operation that raised, or the
document that was written and printed. -/
inductive MonthlyOutcome
  | computeFailed (error : PyErr)
  | raised (step : ArchiveStep)
  | published (document : PyValue)

def MonthlyOutcome.exitCode : MonthlyOutcome → ℕ
  | .computeFailed _ => 1
  | .raised _ => 1
  | .published _ => 0

/-- The circumstances of a run: the clock, and those of the two writes. -/
structure MonthlyEnv where
  now : Datetime
  outLocal : ArchiveEnv PyValue
  s3Placeholder : ArchiveEnv PyValue

section Command

variable (sha256 : Bytes → Bytes)

/-- `compute_segment_hash` as `main` calls it. -/
def monthlySegment (policyVersionSha : String) (now : Datetime) (args : MonthlyArgs)
    (t : LedgerTable) : Except PyErr SegmentHashResult :=
  computeSegmentHash sha256 t args.month.year args.month.month args.prevSegmentHash policyVersionSha
    (isoformatUtc now)

/-- `monthly_ledger_chain.main`, on what opening and reading the database yields. -/
def monthlyMain (policyVersionSha : String) (env : MonthlyEnv) (args : MonthlyArgs)
    (db : Except PyErr LedgerTable) (disk : ArchiveDisk PyValue) :
    MonthlyOutcome × ArchiveDisk PyValue :=
  match db.bind (monthlySegment sha256 policyVersionSha env.now args) with
  | .error e => (.computeFailed e, disk)
  | .ok result =>
    let body := segmentDocument policyVersionSha result
    match atomicWriteReadonly env.outLocal args.outLocal body disk with
    | (.error step, disk') => (.raised step, disk')
    | (.ok (), disk') =>
      match args.s3Placeholder with
      | none => (.published body, disk')
      | some path =>
        match atomicWriteReadonly env.s3Placeholder path body disk' with
        | (.error step, disk'') => (.raised step, disk'')
        | (.ok (), disk'') => (.published body, disk'')

end Command

variable {sha256 : Bytes → Bytes}

theorem monthlyMain_published {policyVersionSha : String} {env : MonthlyEnv} {args : MonthlyArgs}
    {t : LedgerTable} {disk : ArchiveDisk PyValue} {document : PyValue}
    (h : (monthlyMain sha256 policyVersionSha env args (.ok t) disk).1 = .published document) :
    ∃ result, monthlySegment sha256 policyVersionSha env.now args t = .ok result ∧
      document = segmentDocument policyVersionSha result := by
  unfold monthlyMain at h
  simp only [Except.bind] at h
  cases hresult : monthlySegment sha256 policyVersionSha env.now args t with
  | error e =>
    rw [hresult] at h
    cases h
  | ok result =>
    rw [hresult] at h
    dsimp only at h
    refine ⟨result, rfl, ?_⟩
    generalize atomicWriteReadonly env.outLocal args.outLocal _ disk = out at h
    obtain ⟨_ | _, disk'⟩ := out
    · cases h
    cases hs3 : args.s3Placeholder with
    | none =>
      rw [hs3] at h
      cases h
      rfl
    | some path =>
      rw [hs3] at h
      dsimp only at h
      generalize atomicWriteReadonly env.s3Placeholder path _ disk' = out at h
      obtain ⟨_ | _, disk''⟩ := out
      · cases h
      · cases h
        rfl

theorem monthlyMain_of_ok {policyVersionSha : String} {env : MonthlyEnv} {args : MonthlyArgs}
    {t : LedgerTable} {disk : ArchiveDisk PyValue} {result : SegmentHashResult}
    (hresult : monthlySegment sha256 policyVersionSha env.now args t = .ok result)
    (hlocal : (atomicWriteReadonly env.outLocal args.outLocal
      (segmentDocument policyVersionSha result) disk).1 = .ok ())
    (hs3 : ∀ path ∈ args.s3Placeholder, ∀ disk', (atomicWriteReadonly env.s3Placeholder path
      (segmentDocument policyVersionSha result) disk').1 = .ok ()) :
    (monthlyMain sha256 policyVersionSha env args (.ok t) disk).1 =
      .published (segmentDocument policyVersionSha result) := by
  unfold monthlyMain
  simp only [Except.bind, hresult]
  generalize atomicWriteReadonly env.outLocal args.outLocal _ disk = out at hlocal ⊢
  obtain ⟨_ | _, disk'⟩ := out
  · cases hlocal
  · cases hpath : args.s3Placeholder with
    | none => rfl
    | some path =>
      have hsecond := hs3 path hpath disk'
      dsimp only
      generalize atomicWriteReadonly env.s3Placeholder path _ disk' = out at hsecond ⊢
      obtain ⟨_ | _, disk''⟩ := out
      · cases hsecond
      · rfl

theorem monthlySegment_isOk (policyVersionSha : String) (now : Datetime) (args : MonthlyArgs)
    (t : LedgerTable) (hy : 1 ≤ args.month.year ∧ args.month.year ≤ 9998) :
    ∃ result, monthlySegment sha256 policyVersionSha now args t = .ok result := by
  have hmonth := args.month.bounds
  exact computeSegmentHash_isOk sha256 t hy (by omega) _ _ _

/-- Without failing file operations, the months of the years 1 to 9998 are published. -/
theorem monthlyMain_calm (sha256 : Bytes → Bytes) (policyVersionSha : String) (env : MonthlyEnv)
    (args : MonthlyArgs) (t : LedgerTable) (disk : ArchiveDisk PyValue)
    (henv : env.outLocal = .calm .none) (hs3 : env.s3Placeholder = .calm .none)
    (hy : 1 ≤ args.month.year ∧ args.month.year ≤ 9998) :
    ∃ document, (monthlyMain sha256 policyVersionSha env args (.ok t) disk).1 =
      .published document := by
  obtain ⟨result, hresult⟩ := monthlySegment_isOk policyVersionSha env.now args t hy
  exact ⟨_, monthlyMain_of_ok hresult (henv ▸ atomicWriteReadonly_calm _ _ _ _)
    fun _ _ _ => hs3 ▸ atomicWriteReadonly_calm _ _ _ _⟩

end Athena
