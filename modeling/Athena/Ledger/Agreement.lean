import Athena.Ledger.Continuity
import Athena.Ledger.Publishing

/-!
# Archiver and verifier

Both commands compute the segment hash of a month from the ledger, the
predecessor and a policy SHA. The archiver records its SHA in the document; the
verifier does not read it there but uses that of its own build.
-/

namespace Athena

@[simp] theorem PyStr.text_ofString (s : String) : (PyStr.ofString s).text = s := by
  have hchar : ∀ c : Char, Char.ofNat (Fin.ofNat 0x110000 c.toNat).val = c := by
    intro c
    have hlt : c.toNat < 0x110000 := by
      rcases c.valid with h | h
      · exact lt_trans h (by decide)
      · exact h.2
    rw [Fin.val_ofNat, Nat.mod_eq_of_lt hlt, Char.ofNat_toNat]
  rw [PyStr.text, PyStr.ofString, List.map_map, Function.comp_def]
  simp only [hchar, List.map_id', String.ofList_toList]

theorem IsHex64.isSegmentHash {h : String} (hh : IsHex64 h) : isSegmentHash (PyStr.ofString h) := by
  unfold Athena.isSegmentHash
  rw [PyStr.text_ofString]
  have htake : h.toList.take 64 = h.toList := List.take_of_length_le hh.1.le
  have hdrop : h.toList.drop 64 = [] := List.drop_of_length_le hh.1.le
  simp only [htake, hdrop, hh.1, le_refl, decide_true, Bool.true_and, Bool.and_eq_true,
    List.all_eq_true]
  exact ⟨hh.2, rfl⟩

theorem isHexLower_hexDigit {n : ℕ} (hn : n < 16) : isHexLower (hexDigit n) := by
  interval_cases n <;> decide

theorem isHex64_hexdigest {digest : Bytes} (h : digest.length = 32) :
    IsHex64 (hexdigest digest) := by
  refine ⟨by rw [length_hexdigest, h], fun c hc => ?_⟩
  obtain ⟨n, hn, rfl⟩ := mem_hexdigest hc
  exact isHexLower_hexDigit hn

theorem VerifyArgs.period_eq_some {args : VerifyArgs} {m : Calendar.Month}
    (h : args.period = some m) : ∃ year month, args.year = some year ∧ args.month = some month ∧
      year.1 = m.year ∧ month.1 = (m.month : Int) := by
  unfold period at h
  cases hyear : args.year with
  | none =>
    rw [hyear] at h
    cases h
  | some year =>
    cases hmonth : args.month with
    | none =>
      rw [hyear, hmonth] at h
      cases h
    | some month =>
      rw [hyear, hmonth] at h
      cases h
      have := month.2
      exact ⟨year, month, rfl, rfl, rfl, by simp only; omega⟩

/-- A previous-segment file whose `segment_hash` is `h`. -/
def PrevSegmentFile (file : Except PyErr PyValue) (h : String) : Prop :=
  ∃ items month, file = .ok (.dict items) ∧
    items.lookup (PyStr.ofString "segment_hash") = some (.str (PyStr.ofString h)) ∧
      items.lookup (PyStr.ofString "month") = some month

variable {sha256 : Bytes → Bytes} {pyRepr : PyValue → String}

/-- The block the verifier computes for a month, from a file with the given hash. -/
theorem segmentContinuity_eq (sha256 : Bytes → Bytes) (pyRepr : PyValue → String)
    (policyVersionSha now : String) {files : String → Except PyErr PyValue} {args : VerifyArgs}
    {t : LedgerTable} {m : Calendar.Month} {path h : String} {ids : List Int}
    (hpath : args.prevSegmentJson = some path) (hperiod : args.period = some m)
    (hh : IsHex64 h) (hfile : PrevSegmentFile (files path) h)
    (hids : t.monthIds m.year m.month = .ok ids) :
    ∃ block, segmentContinuity sha256 pyRepr policyVersionSha now files args t = .ok (some block) ∧
      block.thisSegmentHash =
        hexdigest (sha256 (segmentBody sha256 (some h) ids policyVersionSha)) := by
  obtain ⟨items, month', hitems, hseg, hmember⟩ := hfile
  obtain ⟨year, month, hyear, hmonth, hy, hm⟩ := VerifyArgs.period_eq_some hperiod
  have hload : loadPrevSegment pyRepr (files path) = .ok ⟨PyStr.ofString h, month'⟩ :=
    loadPrevSegment_ok_iff.mpr ⟨items, hitems, hseg, hh.isSegmentHash, hmember⟩
  unfold segmentContinuity
  simp only [hpath, hyear, hmonth, hload, bind, Except.bind, pure, Except.pure, computeSegmentHash,
    PyStr.text_ofString, hy, hm, hids]
  exact ⟨_, rfl, rfl⟩

/-- The run reports the hash of the given segment. -/
def ReportsHash (r : VerifyResult) (hash : String) : Prop :=
  ∃ block, r.segmentContinuity = some block ∧ block.thisSegmentHash = hash

theorem segmentDocument_accepted (policyVersionSha : String) {result : SegmentHashResult}
    {m : Calendar.Month} (hhash : IsHex64 result.segmentHash)
    (hmonth : result.month = monthText m) :
    PrevSegmentReadable (.ok (segmentDocument policyVersionSha result)) ∧
      HasMonth (.ok (segmentDocument policyVersionSha result))
        (.str (PyStr.ofString (monthText m))) := by
  have hseg : ∀ items, segmentDocument policyVersionSha result = .dict items →
      items.lookup (PyStr.ofString "segment_hash") =
        some (.str (PyStr.ofString result.segmentHash)) := by
    intro items hitems
    cases hitems
    rfl
  have hmember : ∀ items, segmentDocument policyVersionSha result = .dict items →
      items.lookup (PyStr.ofString "month") = some (.str (PyStr.ofString (monthText m))) := by
    intro items hitems
    rw [← hmonth]
    cases hitems
    rfl
  exact ⟨⟨_, _, _, rfl, hseg _ rfl, hhash.isSegmentHash, hmember _ rfl⟩, _, rfl, hmember _ rfl⟩

theorem segmentBody_policySha_inj {prev : Option String} {ids : List Int} {a b : String}
    (h : segmentBody sha256 prev ids a = segmentBody sha256 prev ids b) : a = b := by
  simp only [segmentBody, Framing.join_cons_cons, Framing.join_singleton] at h
  have houter := (List.cons.inj (List.append_cancel_left h)).2
  exact encodeUtf8_inj.mp (List.cons.inj (List.append_cancel_left houter)).2

theorem reportsHash_iff (sha256 : Bytes → Bytes) (pyRepr : PyValue → String)
    (policyVersionSha now : String) {files : String → Except PyErr PyValue} {args : VerifyArgs}
    {t : LedgerTable} {m : Calendar.Month} {path h hash : String} {ids : List Int}
    (hpath : args.prevSegmentJson = some path) (hperiod : args.period = some m) (hh : IsHex64 h)
    (hfile : PrevSegmentFile (files path) h) (hids : t.monthIds m.year m.month = .ok ids) :
    ReportsHash (verifyMain sha256 pyRepr policyVersionSha now files args (.ok t)) hash ↔
      (∃ mismatches, verifyChain sha256 t = .ok mismatches) ∧
        hash = hexdigest (sha256 (segmentBody sha256 (some h) ids policyVersionSha)) := by
  obtain ⟨block, hblock, hhash⟩ :=
    segmentContinuity_eq sha256 pyRepr policyVersionSha now hpath hperiod hh hfile hids
  constructor
  · rintro ⟨block', hblock', rfl⟩
    cases hchain : verifyChain sha256 t with
    | error e => simp [verifyMain, hchain, VerifyResult.failed] at hblock'
    | ok mismatches =>
      rw [verifyMain_segmentContinuity hchain hblock] at hblock'
      cases hblock'
      exact ⟨⟨mismatches, rfl⟩, hhash⟩
  · rintro ⟨⟨mismatches, hchain⟩, rfl⟩
    exact ⟨block, verifyMain_segmentContinuity hchain hblock, hhash⟩

theorem published_segment {t : LedgerTable} {policyVersionSha : String} {env : MonthlyEnv}
    {args : MonthlyArgs} {disk : ArchiveDisk PyValue} {document : PyValue}
    (hpub : (monthlyMain sha256 policyVersionSha env args (.ok t) disk).1 = .published document) :
    ∃ result ids, document = segmentDocument policyVersionSha result ∧
      t.monthIds args.month.year args.month.month = .ok ids ∧
      result.segmentHash =
        hexdigest (sha256 (segmentBody sha256 args.prevSegmentHash ids policyVersionSha)) ∧
      result.month = monthText args.month := by
  obtain ⟨result, hresult, hdocument⟩ := monthlyMain_published hpub
  cases hids : t.monthIds args.month.year args.month.month with
  | error e =>
    rw [monthlySegment, computeSegmentHash, hids] at hresult
    cases hresult
  | ok ids =>
    rw [monthlySegment, computeSegmentHash, hids] at hresult
    refine ⟨result, ids, hdocument, rfl, ?_⟩
    cases hresult
    exact ⟨rfl, rfl⟩

/-- Archiver and verifier agree on a segment exactly when their builds have the same policy
SHA, and the chain check, which comes first, does not raise. The archived document itself is
always accepted for the month after. -/
theorem archiver_verifier_agree {t : LedgerTable} {archiverSha verifierSha now h path : String}
    {env : MonthlyEnv} {args : MonthlyArgs} {disk : ArchiveDisk PyValue} {document : PyValue}
    {vargs : VerifyArgs} {files : String → Except PyErr PyValue}
    (hdigest : ∀ b, (sha256 b).length = 32)
    (hpub : (monthlyMain sha256 archiverSha env args (.ok t) disk).1 = .published document)
    (hprev : args.prevSegmentHash = some h) (hh : IsHex64 h)
    (hpath : vargs.prevSegmentJson = some path) (hperiod : vargs.period = some args.month)
    (hfile : PrevSegmentFile (files path) h) :
    ∃ result ids, document = segmentDocument archiverSha result ∧
      t.monthIds args.month.year args.month.month = .ok ids ∧
      (∀ next : VerifyArgs, next.period = some args.month.next →
        PrevSegmentReadable (.ok document) ∧ NamesMonthBefore next (.ok document)) ∧
      (archiverSha = verifierSha → (∃ mismatches, verifyChain sha256 t = .ok mismatches) →
        ReportsHash (verifyMain sha256 pyRepr verifierSha now files vargs (.ok t))
          result.segmentHash) ∧
      (CollisionFree sha256 {segmentBody sha256 (some h) ids archiverSha,
          segmentBody sha256 (some h) ids verifierSha} →
        ReportsHash (verifyMain sha256 pyRepr verifierSha now files vargs (.ok t))
          result.segmentHash →
        archiverSha = verifierSha ∧ ∃ mismatches, verifyChain sha256 t = .ok mismatches) := by
  obtain ⟨result, ids, rfl, hids, hsegment, hmonth⟩ := published_segment hpub
  rw [hprev] at hsegment
  have hhex : IsHex64 result.segmentHash := hsegment ▸ isHex64_hexdigest (hdigest _)
  obtain ⟨hreadable, hmember⟩ := segmentDocument_accepted archiverSha hhex hmonth
  refine ⟨result, ids, rfl, hids, fun next hnext => ⟨hreadable, _, hnext, fun _ => ?_⟩, ?_⟩
  · rw [args.month.previous_next]
    exact hmember
  · rw [reportsHash_iff sha256 pyRepr verifierSha now hpath hperiod hh hfile hids, hsegment]
    constructor
    · intro hsame hchain
      exact ⟨hchain, by rw [hsame]⟩
    · rintro hcf ⟨hchain, hhash⟩
      have hbody := hcf (Or.inl rfl) (Or.inr rfl) (hexdigest_injective hhash)
      exact ⟨segmentBody_policySha_inj hbody, hchain⟩

/-- A digest of the right length that keeps the last byte. -/
def lastByteDigest (b : Bytes) : Bytes := List.replicate 32 (b.getLast?.getD 0)

def zeroHash : String := String.ofList (List.replicate 64 '0')

/-- The segment of May 2027, as far as the verifier reads it. -/
def mayFiles : String → Except PyErr PyValue := fun _ =>
  .ok (.dict [(PyStr.ofString "segment_hash", .ofString zeroHash),
    (PyStr.ofString "month", .ofString "2027-05")])

def juneVerifyArgs : VerifyArgs :=
  ⟨"decisions.duckdb", some "may.json", some ⟨2027, by decide⟩, some ⟨6, by decide⟩⟩

def juneChainArgs : MonthlyArgs := { juneArgs with prevSegmentHash := some zeroHash }

theorem zeroHash_isHex64 : IsHex64 zeroHash := by
  have hchars : zeroHash.toList = List.replicate 64 '0' := String.toList_ofList
  unfold IsHex64
  rw [hchars, List.length_replicate]
  refine ⟨rfl, fun c hc => ?_⟩
  rw [List.eq_of_mem_replicate hc]
  decide

theorem mayFiles_prevSegmentFile : PrevSegmentFile (mayFiles "may.json") zeroHash :=
  ⟨_, _, rfl, rfl, rfl⟩

theorem lastByteDigest_length (b : Bytes) : (lastByteDigest b).length = 32 :=
  List.length_replicate

theorem getLast?_segmentBody (prev : Option String) (ids : List Int) (policySha : String) :
    (segmentBody sha256 prev ids policySha).getLast? = (0 :: encodeUtf8 policySha).getLast? := by
  simp [segmentBody, List.getLast?_append, List.getLast?_cons]

/-- June with its two rows, archived and verified by the same build. -/
theorem archiver_verifier_agree_same_build :
    ∃ result, SegmentHashResult.entryCount result = 2 ∧
      ReportsHash (verifyMain lastByteDigest (fun _ => "") "abcdef1" "" mayFiles juneVerifyArgs
        (.ok (World.empty.run lastByteDigest juneCalls).table)) result.segmentHash := by
  have hrun : Run lastByteDigest juneCalls (World.empty.run lastByteDigest juneCalls) :=
    Run.start.extend (by decide +kernel)
  obtain ⟨document, hpub⟩ := monthlyMain_calm lastByteDigest "abcdef1" (juneEnv overTime)
    juneChainArgs (World.empty.run lastByteDigest juneCalls).table (fun _ => none) rfl rfl
    (by decide)
  obtain ⟨first, hfirst, hdocument⟩ := monthlyMain_published hpub
  obtain ⟨result, -, hresult, -, -, hagree, -⟩ := archiver_verifier_agree lastByteDigest_length
    hpub rfl zeroHash_isHex64 (show juneVerifyArgs.prevSegmentJson = some "may.json" from rfl) rfl
    mayFiles_prevSegmentFile
  have hentries : result.entryCount = first.entryCount :=
    segmentDocument_entryCount (hresult.symm.trans hdocument)
  refine ⟨result, hentries.trans ((computeSegmentHash_entryCount_eq hfirst).trans ?_),
    hagree rfl ⟨[], hrun.verifyChain_eq_nil⟩⟩
  decide +kernel

theorem segmentDocument_segmentHash {policySha : String} {r r' : SegmentHashResult}
    (h : segmentDocument policySha r = segmentDocument policySha r') :
    r.segmentHash = r'.segmentHash := by
  unfold segmentDocument PyValue.ofString at h
  simp only [PyValue.dict.injEq, List.cons.injEq, Prod.mk.injEq, PyValue.str.injEq, true_and,
    and_true] at h
  have htext := congrArg PyStr.text h.2.2.2.2.2.2
  rwa [PyStr.text_ofString, PyStr.text_ofString] at htext

/-- A later build reports another hash for the archived segment. -/
theorem later_build_disagrees :
    ¬ ∀ (sha256 : Bytes → Bytes) (pyRepr : PyValue → String) (t : LedgerTable)
        (archiverSha verifierSha now h path : String) (env : MonthlyEnv) (args : MonthlyArgs)
        (disk : ArchiveDisk PyValue) (document : PyValue) (vargs : VerifyArgs)
        (files : String → Except PyErr PyValue), (∀ b, (sha256 b).length = 32) →
        (monthlyMain sha256 archiverSha env args (.ok t) disk).1 = .published document →
        args.prevSegmentHash = some h → IsHex64 h → vargs.prevSegmentJson = some path →
        vargs.period = some args.month → PrevSegmentFile (files path) h →
        ∃ result, document = segmentDocument archiverSha result ∧
          ReportsHash (verifyMain sha256 pyRepr verifierSha now files vargs (.ok t))
            result.segmentHash := by
  intro hclaim
  obtain ⟨document, hpub⟩ := monthlyMain_calm lastByteDigest "abcdef1" (juneEnv overTime)
    juneChainArgs LedgerTable.empty (fun _ => none) rfl rfl (by decide)
  obtain ⟨first, ids, hfirst, hids, hsegment, -⟩ := published_segment hpub
  obtain ⟨result, hdocument, hreports⟩ := hclaim lastByteDigest (fun _ => "") LedgerTable.empty
    "abcdef1" "abcdef2" "" zeroHash "may.json" (juneEnv overTime) juneChainArgs (fun _ => none)
    document juneVerifyArgs mayFiles lastByteDigest_length hpub rfl zeroHash_isHex64
    rfl rfl mayFiles_prevSegmentFile
  have hlater := ((reportsHash_iff lastByteDigest (fun _ => "") "abcdef2" ""
    (show juneVerifyArgs.prevSegmentJson = some "may.json" from rfl) rfl zeroHash_isHex64
    mayFiles_prevSegmentFile hids).mp hreports).2
  rw [segmentDocument_segmentHash (hdocument.symm.trans hfirst), hsegment] at hlater
  have hlast := List.replicate_right_injective (by decide) (hexdigest_injective hlater)
  rw [getLast?_segmentBody, getLast?_segmentBody] at hlast
  exact absurd hlast (by decide)

end Athena
