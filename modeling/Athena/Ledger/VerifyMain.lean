import Athena.Ledger.Months

/-!
# The verifier command

`verifyMain` is `verify_ledger.main` behind its argument parser: opening and
reading the database, the chain check, the optional continuity block, and the
one handler around all of it. Database and previous-segment file are given by
what reading them yields, a value or an exception.
-/

namespace Athena

def PyStr.text (s : PyStr) : String := String.ofList (s.map fun c => Char.ofNat c.val)

/-- `type(value).__name__`. -/
def PyValue.typeName : PyValue → String
  | .none => "NoneType"
  | .bool _ => "bool"
  | .int _ => "int"
  | .float _ => "float"
  | .str _ => "str"
  | .list _ => "list"
  | .dict _ | .keyed _ _ => "dict"
  | .object _ => "object"

/-- `^[0-9a-f]{64}$`, which also lets one final newline through. -/
def isSegmentHash (s : PyStr) : Bool :=
  let chars := s.text.toList
  64 ≤ chars.length && (chars.take 64).all isHexLower && atEnd (chars.drop 64)

/-- The two members that `main` reads from the loaded object. -/
structure PrevSegment where
  segmentHash : PyStr
  month : PyValue

inductive Verdict
  | ok
  | chainBroken
  | verifyFailed
  deriving DecidableEq, Repr

/-- The arguments after parsing: `_year_arg` and `choices` bound year and month. -/
structure VerifyArgs where
  db : String
  prevSegmentJson : Option String
  year : Option {y : Int // 2020 ≤ y ∧ y ≤ 2100}
  month : Option {m : Int // 1 ≤ m ∧ m ≤ 12}

structure SegmentContinuity where
  prevMonth : PyValue
  prevSegmentHash : PyStr
  thisSegmentHash : String
  thisMonth : String

/-- The printed result; `error` is the exception whose text is printed. -/
structure VerifyResult where
  db : String
  verdict : Verdict
  mismatches : List Mismatch
  segmentContinuity : Option SegmentContinuity
  error : Option PyErr

/-- The exception handler of `main`. -/
def VerifyResult.failed (r : VerifyResult) (e : PyErr) : VerifyResult :=
  { r with verdict := .verifyFailed, error := some e }

def VerifyResult.exitCode (r : VerifyResult) : ℕ := if r.verdict = .ok then 0 else 1

section Command

variable (sha256 : Bytes → Bytes) (pyRepr : PyValue → String)

/-- `_load_prev_segment`, on what `json.loads(path.read_text())` yields. -/
def loadPrevSegment (file : Except PyErr PyValue) : Except PyErr PrevSegment := do
  match ← file with
  | .dict items =>
    match items.lookup (PyStr.ofString "segment_hash"), items.lookup (PyStr.ofString "month") with
    | none, none =>
      throw (.valueError "prev-segment JSON missing keys: ['month', 'segment_hash']")
    | none, some _ => throw (.valueError "prev-segment JSON missing keys: ['segment_hash']")
    | some _, none => throw (.valueError "prev-segment JSON missing keys: ['month']")
    | some seg, some month =>
      match seg with
      | .str s =>
        if isSegmentHash s then return ⟨s, month⟩
        else throw (.valueError
          ("prev-segment `segment_hash` must be 64-char hex, got " ++ pyRepr seg))
      | _ => throw (.valueError
          ("prev-segment `segment_hash` must be 64-char hex, got " ++ pyRepr seg))
  | body => throw (.valueError ("prev-segment JSON must be an object, got " ++ body.typeName))

/-- The block under `if args.prev_segment_json is not None and ...`. -/
def segmentContinuity (policyVersionSha now : String) (files : String → Except PyErr PyValue)
    (args : VerifyArgs) (t : LedgerTable) : Except PyErr (Option SegmentContinuity) :=
  match args.prevSegmentJson, args.year, args.month with
  | some path, some year, some month => do
    let prev ← loadPrevSegment pyRepr (files path)
    let seg ←
      computeSegmentHash sha256 t year month (some prev.segmentHash.text) policyVersionSha now
    return some
      { prevMonth := prev.month
        prevSegmentHash := prev.segmentHash
        thisSegmentHash := seg.segmentHash
        thisMonth := seg.month }
  | _, _, _ => return none

/-- `verify_ledger.main`. -/
def verifyMain (policyVersionSha now : String) (files : String → Except PyErr PyValue)
    (args : VerifyArgs) (db : Except PyErr LedgerTable) : VerifyResult :=
  let result : VerifyResult := ⟨args.db, .ok, [], none, none⟩
  match db with
  | .error e => result.failed e
  | .ok t =>
    match verifyChain sha256 t with
    | .error e => result.failed e
    | .ok mismatches =>
      let checked : VerifyResult :=
        { result with
          mismatches := mismatches
          verdict := if mismatches ≠ [] then .chainBroken else .ok }
      match segmentContinuity sha256 pyRepr policyVersionSha now files args t with
      | .error e => checked.failed e
      | .ok block => { checked with segmentContinuity := block }

end Command

/-- A file that `_load_prev_segment` accepts. -/
def PrevSegmentReadable (file : Except PyErr PyValue) : Prop :=
  ∃ items s month, file = .ok (.dict items) ∧
    items.lookup (PyStr.ofString "segment_hash") = some (.str s) ∧ isSegmentHash s ∧
      items.lookup (PyStr.ofString "month") = some month

/-- If the continuity check is asked for, its file can be loaded. -/
def VerifyArgs.ContinuityReadable (files : String → Except PyErr PyValue) (args : VerifyArgs) :
    Prop :=
  ∀ path, args.prevSegmentJson = some path → args.year.isSome → args.month.isSome →
    PrevSegmentReadable (files path)

variable {sha256 : Bytes → Bytes} {pyRepr : PyValue → String}

theorem loadPrevSegment_ok_iff {file : Except PyErr PyValue} {prev : PrevSegment} :
    loadPrevSegment pyRepr file = .ok prev ↔ ∃ items, file = .ok (.dict items) ∧
      items.lookup (PyStr.ofString "segment_hash") = some (.str prev.segmentHash) ∧
      isSegmentHash prev.segmentHash ∧ items.lookup (PyStr.ofString "month") = some prev.month := by
  constructor
  · intro h
    unfold loadPrevSegment at h
    cases file with
    | error e => cases h
    | ok body =>
      cases body with
      | dict items =>
        simp only [bind, Except.bind] at h
        cases hseg : items.lookup (PyStr.ofString "segment_hash") with
        | none => cases hmonth : items.lookup (PyStr.ofString "month") <;> simp [hseg, hmonth] at h
        | some seg =>
          cases hmonth : items.lookup (PyStr.ofString "month") with
          | none => simp [hseg, hmonth] at h
          | some month =>
            simp only [hseg, hmonth] at h
            cases seg with
            | str s =>
              simp only at h
              split_ifs at h with hs
              cases h
              exact ⟨items, rfl, hseg, hs, hmonth⟩
            | _ => cases h
      | _ => cases h
  · rintro ⟨items, rfl, hseg, hs, hmonth⟩
    simp only [loadPrevSegment, bind, Except.bind, hseg, hmonth, if_pos hs]
    rfl

theorem loadPrevSegment_isOk_iff {file : Except PyErr PyValue} :
    (∃ prev, loadPrevSegment pyRepr file = .ok prev) ↔ PrevSegmentReadable file := by
  constructor
  · rintro ⟨prev, h⟩
    obtain ⟨items, hfile, hseg, hs, hmonth⟩ := loadPrevSegment_ok_iff.mp h
    exact ⟨items, prev.segmentHash, prev.month, hfile, hseg, hs, hmonth⟩
  · rintro ⟨items, s, month, hfile, hseg, hs, hmonth⟩
    exact ⟨⟨s, month⟩, loadPrevSegment_ok_iff.mpr ⟨items, hfile, hseg, hs, hmonth⟩⟩

theorem segmentContinuity_isOk_iff {policyVersionSha now : String}
    {files : String → Except PyErr PyValue} {args : VerifyArgs} {t : LedgerTable} :
    (∃ block, segmentContinuity sha256 pyRepr policyVersionSha now files args t = .ok block) ↔
      args.ContinuityReadable files := by
  unfold segmentContinuity VerifyArgs.ContinuityReadable
  cases hpath : args.prevSegmentJson with
  | none => simp [pure, Except.pure]
  | some path =>
    cases hyear : args.year with
    | none => simp [pure, Except.pure]
    | some year =>
      cases hmonth : args.month with
      | none => simp [pure, Except.pure]
      | some month =>
        simp only [Option.some.injEq, Option.isSome_some, forall_const, forall_eq']
        rw [← @loadPrevSegment_isOk_iff pyRepr]
        have hyears : 1 ≤ (year : Int) ∧ (year : Int) ≤ 9998 := by omega
        obtain ⟨ids, hids⟩ := monthIds_isOk t hyears month.2
        cases hprev : loadPrevSegment pyRepr (files path) with
        | error e => simp [bind, Except.bind]
        | ok prev => simp [bind, Except.bind, pure, Except.pure, computeSegmentHash, hids]

theorem verifyMain_exitCode_eq_zero_iff {policyVersionSha now : String}
    {files : String → Except PyErr PyValue} {args : VerifyArgs} {t : LedgerTable} :
    (verifyMain sha256 pyRepr policyVersionSha now files args (.ok t)).exitCode = 0 ↔
      verifyChain sha256 t = .ok [] ∧ args.ContinuityReadable files := by
  rw [← @segmentContinuity_isOk_iff sha256 pyRepr policyVersionSha now files args t]
  unfold verifyMain
  cases hv : verifyChain sha256 t with
  | error e => simp [hv, VerifyResult.failed, VerifyResult.exitCode]
  | ok ms =>
    cases hc : segmentContinuity sha256 pyRepr policyVersionSha now files args t with
    | error e => simp [hv, hc, VerifyResult.failed, VerifyResult.exitCode]
    | ok block =>
      by_cases hms : ms = [] <;> simp [hv, hc, hms, VerifyResult.exitCode]

theorem verifyMain_chainBroken_iff {policyVersionSha now : String}
    {files : String → Except PyErr PyValue} {args : VerifyArgs} {t : LedgerTable} :
    ((verifyMain sha256 pyRepr policyVersionSha now files args (.ok t)).verdict = .chainBroken ∧
      (verifyMain sha256 pyRepr policyVersionSha now files args (.ok t)).mismatches ≠ [] ∧
      (verifyMain sha256 pyRepr policyVersionSha now files args (.ok t)).exitCode = 1) ↔
      (∃ ms, verifyChain sha256 t = .ok ms ∧ ms ≠ []) ∧ args.ContinuityReadable files := by
  rw [← @segmentContinuity_isOk_iff sha256 pyRepr policyVersionSha now files args t]
  unfold verifyMain
  cases hv : verifyChain sha256 t with
  | error e => simp [hv, VerifyResult.failed]
  | ok ms =>
    cases hc : segmentContinuity sha256 pyRepr policyVersionSha now files args t with
    | error e => simp [hv, hc, VerifyResult.failed]
    | ok block => by_cases hms : ms = [] <;> simp [hv, hc, hms, VerifyResult.exitCode]

end Athena
