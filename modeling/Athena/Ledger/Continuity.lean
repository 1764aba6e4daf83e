import Athena.Ledger.VerifyMain

/-!
# What the continuity check checks

The continuity block is produced when all three optional arguments are given,
and it repeats the month of the previous segment without looking at it. The
check is therefore one of continuity only for callers who already name
consecutive months.
-/

namespace Athena

/-- `f"{year:04d}-{month:02d}"`. -/
def monthText (m : Calendar.Month) : String := zeroPad 4 m.year ++ "-" ++ zeroPad 2 m.month

/-- The month being verified, when `--year` and `--month` are both given. -/
def VerifyArgs.period (args : VerifyArgs) : Option Calendar.Month :=
  match args.year, args.month with
  | some year, some month => some ⟨year, month.1.toNat, by have := month.2; omega⟩
  | _, _ => none

/-- The member `month` of a JSON object that was read. -/
def HasMonth (file : Except PyErr PyValue) (month : PyValue) : Prop :=
  ∃ items, file = .ok (.dict items) ∧ items.lookup (PyStr.ofString "month") = some month

/-- The result shows that the previous segment, in the given file, is that of the month before. -/
def ContinuityChecked (args : VerifyArgs) (file : Except PyErr PyValue) (r : VerifyResult) : Prop :=
  r.segmentContinuity.isSome ∧ ∃ this, args.period = some this ∧
    HasMonth file (.str (PyStr.ofString (monthText this.previous)))

/-- Both `--year` and `--month` are given, and the file, unless it is rejected, names the month
before. -/
def NamesMonthBefore (args : VerifyArgs) (file : Except PyErr PyValue) : Prop :=
  ∃ this, args.period = some this ∧
    (PrevSegmentReadable file → HasMonth file (.str (PyStr.ofString (monthText this.previous))))

variable {sha256 : Bytes → Bytes} {pyRepr : PyValue → String}

theorem VerifyArgs.period_isSome_iff (args : VerifyArgs) :
    args.period.isSome ↔ args.year.isSome ∧ args.month.isSome := by
  unfold period
  cases args.year <;> cases args.month <;> simp

theorem segmentContinuity_isSome {policyVersionSha now : String}
    {files : String → Except PyErr PyValue} {args : VerifyArgs} {t : LedgerTable}
    {block : Option SegmentContinuity}
    (h : segmentContinuity sha256 pyRepr policyVersionSha now files args t = .ok block) :
    block.isSome ↔ args.prevSegmentJson.isSome ∧ args.period.isSome := by
  rw [args.period_isSome_iff]
  unfold segmentContinuity at h
  cases hpath : args.prevSegmentJson with
  | none =>
    rw [hpath] at h
    cases h
    simp
  | some path =>
    cases hyear : args.year with
    | none =>
      rw [hpath, hyear] at h
      cases h
      simp
    | some year =>
      cases hmonth : args.month with
      | none =>
        rw [hpath, hyear, hmonth] at h
        cases h
        simp
      | some month =>
        simp only [hpath, hyear, hmonth, bind, Except.bind] at h
        cases hprev : loadPrevSegment pyRepr (files path) with
        | error e =>
          rw [hprev] at h
          cases h
        | ok prev =>
          rw [hprev] at h
          dsimp only at h
          split at h
          · cases h
          · cases h
            simp

/-- Once the chain check returns, the block is the outcome of the continuity check. -/
theorem verifyMain_segmentContinuity {policyVersionSha now : String}
    {files : String → Except PyErr PyValue} {args : VerifyArgs} {t : LedgerTable}
    {block : Option SegmentContinuity} {mismatches : List Mismatch}
    (hchain : verifyChain sha256 t = .ok mismatches)
    (hblock : segmentContinuity sha256 pyRepr policyVersionSha now files args t = .ok block) :
    (verifyMain sha256 pyRepr policyVersionSha now files args (.ok t)).segmentContinuity =
      block := by
  unfold verifyMain
  simp only [hchain, hblock]

/-- The continuity check checks continuity for these callers only. For a caller who gives
`--prev-segment-json`, exit 0 means that the segment of the month before was given exactly
when the chain does not verify anyway, or `--year` and `--month` are both given and the
file is rejected or names the month before. -/
theorem continuity_checked_iff {policyVersionSha now : String}
    {files : String → Except PyErr PyValue} {args : VerifyArgs} {db : Except PyErr LedgerTable} :
    (∀ path, args.prevSegmentJson = some path →
      (verifyMain sha256 pyRepr policyVersionSha now files args db).exitCode = 0 →
      ContinuityChecked args (files path)
        (verifyMain sha256 pyRepr policyVersionSha now files args db)) ↔
    ∀ path t, args.prevSegmentJson = some path → db = .ok t → verifyChain sha256 t = .ok [] →
      NamesMonthBefore args (files path) := by
  constructor
  · rintro h path t hpath rfl hchain
    by_cases hreadable : args.ContinuityReadable files
    · obtain ⟨-, this, hthis, hmonth⟩ :=
        h path hpath (verifyMain_exitCode_eq_zero_iff.mpr ⟨hchain, hreadable⟩)
      exact ⟨this, hthis, fun _ => hmonth⟩
    · unfold VerifyArgs.ContinuityReadable at hreadable
      push Not at hreadable
      obtain ⟨path', hpath', hyear, hmonth, hunreadable⟩ := hreadable
      obtain ⟨this, hthis⟩ :=
        Option.isSome_iff_exists.mp (args.period_isSome_iff.mpr ⟨hyear, hmonth⟩)
      rw [hpath] at hpath'
      cases hpath'
      exact ⟨this, hthis, fun hr => absurd hr hunreadable⟩
  · intro h path hpath hexit
    cases db with
    | error e => simp [verifyMain, VerifyResult.failed, VerifyResult.exitCode] at hexit
    | ok t =>
      obtain ⟨hchain, hreadable⟩ := verifyMain_exitCode_eq_zero_iff.mp hexit
      obtain ⟨this, hthis, hmonth⟩ := h path t hpath rfl hchain
      have hperiod : args.period.isSome := by simp [hthis]
      obtain ⟨hyear, hmonth'⟩ := args.period_isSome_iff.mp hperiod
      obtain ⟨block, hblock⟩ :=
        (@segmentContinuity_isOk_iff sha256 pyRepr policyVersionSha now files args t).mpr hreadable
      refine ⟨?_, this, hthis, hmonth (hreadable path hpath hyear hmonth')⟩
      rw [verifyMain_segmentContinuity hchain hblock, segmentContinuity_isSome hblock]
      exact ⟨by simp [hpath], hperiod⟩

/-- The previous segment given without `--year` and `--month`. -/
def skippedArgs : VerifyArgs := ⟨"decisions.duckdb", some "segment_hash.json", none, none⟩

/-- The check is skipped silently: exit 0, and no block. -/
theorem continuity_check_skipped :
    ¬ ∀ (sha256 : Bytes → Bytes) (pyRepr : PyValue → String) (policyVersionSha now : String)
        (files : String → Except PyErr PyValue) (args : VerifyArgs)
        (db : Except PyErr LedgerTable) (path : String), args.prevSegmentJson = some path →
        (verifyMain sha256 pyRepr policyVersionSha now files args db).exitCode = 0 →
        ContinuityChecked args (files path)
          (verifyMain sha256 pyRepr policyVersionSha now files args db) := by
  intro hclaim
  obtain ⟨-, this, hthis, -⟩ := hclaim tagDigest (fun _ => "") "abcdef1" ""
    (fun _ => .error .fileNotFoundError) skippedArgs
    (.ok (seededWorld tagDigest sampleClient 0).table) "segment_hash.json" rfl
    (verifyMain_exitCode_eq_zero_iff.mpr
      ⟨(seededWorld_run tagDigest sampleClient 0).verifyChain_eq_nil, nofun⟩)
  cases hthis

end Athena
