import Athena.Ledger.Agreement
import Athena.Ledger.JsonLayout

/-!
# The bytes of an archived segment

`archiverMain` is `monthly_ledger_chain.main` on files of bytes: the segment
document is printed with `indent=2`, encoded and written. Seen through
`json.loads(path.read_text(encoding="utf-8"))`, its runs are those of
`monthlyMain`, and `_load_prev_segment` gets back what was computed.
-/

namespace Athena

open JsonLoads CanonicalJson

section Reading

variable (parseFloat : List Char → FloatText) (undecodable : Bytes → String)

/-- `bytes` read as text with universal newlines; `undecodable` is the message of the
`UnicodeDecodeError`. -/
def readText (bytes : Bytes) : Except PyErr String :=
  match String.fromUTF8? bytes.toByteArray with
  | none => .error (.valueError (undecodable bytes))
  | some text => .ok (String.ofList (universalNewlines text.toList))

def readBytes (bytes : Bytes) : Except PyErr PyValue :=
  (readText undecodable bytes).bind (loads parseFloat)

/-- `json.loads(path.read_text(encoding="utf-8"))`. -/
def readJson (disk : ArchiveDisk Bytes) (path : String) : Except PyErr PyValue :=
  match disk path with
  | none => .error .fileNotFoundError
  | some file => readBytes parseFloat undecodable file.content

end Reading

/-- `json.dumps(document, sort_keys=True, indent=2)` in UTF-8. -/
def documentBytes (document : PyValue) : Bytes :=
  encodeUtf8 (String.ofList (Layout.indented.textOf 0 document))

structure ArchiverEnv where
  now : Datetime
  outLocal : ArchiveEnv Bytes
  s3Placeholder : ArchiveEnv Bytes

section Command

variable (sha256 : Bytes → Bytes)

/-- `monthly_ledger_chain.main` on files of bytes. -/
def archiverMain (policyVersionSha : String) (env : ArchiverEnv) (args : MonthlyArgs)
    (db : Except PyErr LedgerTable) (disk : ArchiveDisk Bytes) :
    MonthlyOutcome × ArchiveDisk Bytes :=
  match db.bind (monthlySegment sha256 policyVersionSha env.now args) with
  | .error e => (.computeFailed e, disk)
  | .ok result =>
    let document := segmentDocument policyVersionSha result
    let body := documentBytes document
    match atomicWriteReadonly env.outLocal args.outLocal body disk with
    | (.error step, disk') => (.raised step, disk')
    | (.ok (), disk') =>
      match args.s3Placeholder with
      | none => (.published document, disk')
      | some path =>
        match atomicWriteReadonly env.s3Placeholder path body disk' with
        | (.error step, disk'') => (.raised step, disk'')
        | (.ok (), disk'') => (.published document, disk'')

end Command

section View

variable {α β : Type}

/-- The files through a view of their contents. -/
def ArchivedFile.map (f : α → β) (file : ArchivedFile α) : ArchivedFile β :=
  ⟨f file.content, file.mode⟩

def ArchiveDisk.map (f : α → β) (disk : ArchiveDisk α) : ArchiveDisk β :=
  fun path => (disk path).map (ArchivedFile.map f)

def ArchiveEnv.map (f : α → β) (env : ArchiveEnv α) : ArchiveEnv β :=
  ⟨env.fails, f env.torn, env.createMode⟩

theorem ArchiveDisk.map_update (f : α → β) (disk : ArchiveDisk α) (path : String)
    (file : Option (ArchivedFile α)) : ArchiveDisk.map f (Function.update disk path file) =
      Function.update (disk.map f) path (file.map (ArchivedFile.map f)) := by
  funext p
  by_cases hp : p = path
  · subst hp
    simp only [ArchiveDisk.map, Function.update_self]
  · simp only [ArchiveDisk.map, Function.update_of_ne hp]

theorem ArchiveDisk.map_widenTarget (f : α → β) (target : String) (disk : ArchiveDisk α) :
    ArchiveDisk.map f (widenTarget target disk) = widenTarget target (disk.map f) := by
  rw [widenTarget, ArchiveDisk.map_update, widenTarget]
  congr 1
  cases hfile : disk target with
  | none => simp only [ArchiveDisk.map, hfile, Option.map_none]
  | some file =>
    simp only [ArchiveDisk.map, hfile, Option.map_some]
    rfl

theorem leftInTmp_map (f : α → β) (env : ArchiveEnv α) (target : String) (body : α)
    (disk : ArchiveDisk α) (step : ArchiveStep) :
    (leftInTmp env target body disk step).map (ArchivedFile.map f) =
      leftInTmp (env.map f) target (f body) (disk.map f) step := by
  have hmode : ((disk (archiveTmp target)).map (·.mode)).getD env.createMode =
      ((disk.map f (archiveTmp target)).map (·.mode)).getD env.createMode := by
    cases hfile : disk (archiveTmp target) with
    | none => simp only [ArchiveDisk.map, hfile, Option.map_none]
    | some file =>
      simp only [ArchiveDisk.map, hfile, Option.map_some]
      rfl
  cases step with
  | openTmp => rfl
  | _ =>
    simp only [leftInTmp, hmode, Option.map_some]
    rfl

theorem atomicWriteReadonly_map (f : α → β) (env : ArchiveEnv α) (target : String) (body : α)
    (disk : ArchiveDisk α) :
    atomicWriteReadonly (env.map f) target (f body) (disk.map f) =
      ((atomicWriteReadonly env target body disk).1,
        ArchiveDisk.map f (atomicWriteReadonly env target body disk).2) := by
  have hsome : (disk.map f target).isSome = (disk target).isSome := Option.isSome_map
  have hfails : (env.map f).fails = env.fails := rfl
  unfold atomicWriteReadonly
  rw [hsome, hfails]
  by_cases hmkdir : env.fails .mkdir
  · rw [if_pos hmkdir, if_pos hmkdir]
  by_cases hwiden : (disk target).isSome ∧ env.fails .widen
  · rw [if_neg hmkdir, if_neg hmkdir, if_pos hwiden, if_pos hwiden]
  rw [if_neg hmkdir, if_neg hmkdir, if_neg hwiden, if_neg hwiden]
  cases [ArchiveStep.openTmp, .write, .sync, .replace].find? env.fails with
  | some step =>
    dsimp only
    by_cases hunlink : env.fails .unlink
    · rw [if_pos hunlink, if_pos hunlink]
      simp only [ArchiveDisk.map_update, leftInTmp_map, ArchiveDisk.map_widenTarget]
    · rw [if_neg hunlink, if_neg hunlink]
      simp only [ArchiveDisk.map_update, ArchiveDisk.map_widenTarget, Option.map_none]
  | none =>
    dsimp only
    cases [ArchiveStep.syncDir, .restrict].find? env.fails with
    | some step =>
      simp only [ArchiveDisk.map_update, leftInTmp_map, ArchiveDisk.map_widenTarget,
        Option.map_none]
    | none =>
      simp only [ArchiveDisk.map_update, leftInTmp_map, ArchiveDisk.map_widenTarget,
        Option.map_none, Option.map_some]
      rfl

end View

section Document

variable {codec : FloatCodec} {undecodable : Bytes → String}

theorem isText_ofString (s : String) : IsText (PyStr.ofString s) := by
  intro c hc
  obtain ⟨d, -, rfl⟩ := List.mem_map.mp hc
  have hvalid : d.toNat < 0xd800 ∨ 0xdfff < d.toNat ∧ d.toNat < 0x110000 := d.valid
  have hlt : d.toNat < 0x110000 := by omega
  simp only [IsScalar, Fin.val_ofNat, Nat.mod_eq_of_lt hlt]
  omega

/-- The names of the members of a segment document, in the order of the keys. -/
def segmentKeys : List PyStr :=
  ["computed_at_utc", "entry_count", "first_id", "last_id", "month", "policy_version_git_sha",
    "prev_segment_hash", "segment_hash"].map PyStr.ofString

theorem segmentKeys_sorted : segmentKeys.Pairwise (· ≤ ·) := by decide

theorem segmentKeys_nodup : segmentKeys.Nodup := by decide

/-- A member of a segment document: text, a number, or null. -/
def IsPlain (v : PyValue) : Prop := v = .none ∨ (∃ n, v = .int n) ∨ ∃ s, v = .ofString s

theorem IsPlain.isData {v : PyValue} (h : IsPlain v) : IsData codec v := by
  rcases h with rfl | ⟨n, rfl⟩ | ⟨s, rfl⟩
  · trivial
  · trivial
  · exact .of_isText (isText_ofString s)

theorem IsPlain.sortKeys_eq {v : PyValue} (h : IsPlain v) : sortKeys v = v := by
  rcases h with rfl | ⟨n, rfl⟩ | ⟨s, rfl⟩ <;> rfl

theorem segmentDocument_members (policyVersionSha : String) (result : SegmentHashResult) :
    ∃ items, segmentDocument policyVersionSha result = .dict items ∧
      items.map Prod.fst = segmentKeys ∧ ∀ kv ∈ items, IsText kv.1 ∧ IsPlain kv.2 := by
  have hint : ∀ n, IsPlain (.int n) := fun n => .inr (.inl ⟨n, rfl⟩)
  have htext : ∀ s, IsPlain (.ofString s) := fun s => .inr (.inr ⟨s, rfl⟩)
  have hid : ∀ id : Option Int, IsPlain (id.elim .none .int) := by
    rintro (_ | n)
    · exact .inl rfl
    · exact hint n
  have hprev : ∀ s : Option String, IsPlain (s.elim .none .ofString) := by
    rintro (_ | s)
    · exact .inl rfl
    · exact htext s
  refine ⟨_, rfl, rfl, ?_⟩
  simp only [List.forall_mem_cons, isText_ofString, hint, htext, hid, hprev, true_and]
  simp

theorem isData_segmentDocument (policyVersionSha : String) (result : SegmentHashResult) :
    IsData codec (segmentDocument policyVersionSha result) := by
  obtain ⟨items, hdocument, hkeys, hplain⟩ := segmentDocument_members policyVersionSha result
  rw [hdocument]
  exact ⟨hkeys ▸ segmentKeys_nodup, allDataItems_iff.mpr fun kv hkv =>
    ⟨.of_isText (hplain kv hkv).1, (hplain kv hkv).2.isData⟩⟩

theorem sortKeys_segmentDocument (policyVersionSha : String) (result : SegmentHashResult) :
    sortKeys (segmentDocument policyVersionSha result) =
      segmentDocument policyVersionSha result := by
  obtain ⟨items, hdocument, hkeys, hplain⟩ := segmentDocument_members policyVersionSha result
  have hsame : items.map (fun kv => (kv.1, sortKeys kv.2)) = items := by
    rw [List.map_congr_left fun kv hkv =>
      congrArg (Prod.mk kv.1) (hplain kv hkv).2.sortKeys_eq]
    exact List.map_id items
  rw [hdocument, sortKeys, sortKeysItems_eq, hsame, sortMembers, List.Pairwise.insertionSort_eq]
  have hsorted := segmentKeys_sorted
  rw [← hkeys] at hsorted
  exact List.pairwise_map.mp hsorted

theorem readText_encodeUtf8 {text : List Char} (h : Printed text) :
    readText undecodable (encodeUtf8 (String.ofList text)) = .ok (String.ofList text) := by
  have hreturn : carriageReturn ∉ text := by
    intro hmem
    rcases h _ hmem with hprint | hline
    · exact absurd hprint (by decide)
    · exact absurd hline (by decide)
  have hlines := universalNewlines_append hreturn []
  rw [List.append_nil] at hlines
  simp only [readText, fromUTF8_encodeUtf8, String.toList_ofList, hlines, universalNewlines,
    List.append_nil]

theorem readBytes_documentBytes {document : PyValue} (h : IsData codec document) :
    readBytes codec.parse undecodable (documentBytes document) = .ok (sortKeys document) := by
  have hread : ReadsBack codec .indented 0 document := readsBack document h 0
  rw [readBytes, documentBytes, readText_encodeUtf8 hread.printed]
  exact loads_textOf h

theorem exists_front {text : List Char} (h : Printed text) {front : Bytes}
    (hfront : front <+: encodeUtf8 (String.ofList text)) :
    ∃ u, u <+: text ∧ front = encodeUtf8 (String.ofList u) := by
  have hascii : ∀ u : List Char, u <+: text → IsAscii (String.ofList u) := by
    intro u hu c hc
    rw [String.toList_ofList] at hc
    rcases h c (hu.subset hc) with hprint | rfl
    · exact lt_trans hprint.2 (by decide)
    · decide
  have htext := encodeUtf8_of_isAscii (hascii text (List.prefix_refl text))
  rw [String.toList_ofList] at htext
  rw [htext] at hfront
  obtain ⟨u, hu, rfl⟩ := List.prefix_map_iff.mp hfront
  refine ⟨u, hu, ?_⟩
  rw [encodeUtf8_of_isAscii (hascii u hu), String.toList_ofList]

theorem not_readBytes_front {items : List (PyStr × PyValue)} (h : IsData codec (.dict items))
    {front : Bytes} (hfront : front <+: documentBytes (.dict items))
    (hne : front ≠ documentBytes (.dict items)) (v : PyValue) :
    readBytes codec.parse undecodable front ≠ .ok v := by
  have hread : ReadsBack codec .indented 0 (.dict items) := readsBack _ h 0
  obtain ⟨u, hu, rfl⟩ := exists_front hread.printed hfront
  have hprinted : Printed u := fun c hc => hread.printed c (hu.subset hc)
  have hopen : ∃ w, Layout.indented.textOf 0 (.dict items) = openBrace :: w := by
    have hitems := allDataItems_iff.mp h.2
    have hmembers : ∀ kv ∈ items, ReadsBack codec .indented 1 kv.2 := fun kv hkv =>
      readsBack kv.2 (hitems kv hkv).2 1
    exact ⟨_, Layout.textOf_eq (Layout.dumps_dict fun kv hkv => (hmembers kv hkv).dumps_eq)⟩
  obtain ⟨w, hw⟩ := hopen
  have hscan := hread.recovers [] fun c hc => by cases hc
  rw [List.append_nil] at hscan
  rw [readBytes, readText_encodeUtf8 hprinted]
  refine not_loads_of_proper hw (.inr (.inr rfl)) hscan hu ?_ v
  rintro rfl
  exact hne rfl

end Document

section Runs

variable {sha256 : Bytes → Bytes} {pyRepr : PyValue → String} {codec : FloatCodec}
  {undecodable : Bytes → String}

/-- The value of the bytes of a file; null where nothing can be read. -/
def viewBytes (codec : FloatCodec) (undecodable : Bytes → String) (bytes : Bytes) : PyValue :=
  (readBytes codec.parse undecodable bytes).toOption.getD .none

theorem readBytes_segment (policyVersionSha : String) (result : SegmentHashResult) :
    readBytes codec.parse undecodable (documentBytes (segmentDocument policyVersionSha result)) =
      .ok (segmentDocument policyVersionSha result) := by
  rw [readBytes_documentBytes (isData_segmentDocument policyVersionSha result),
    sortKeys_segmentDocument]

theorem viewBytes_segment (policyVersionSha : String) (result : SegmentHashResult) :
    viewBytes codec undecodable (documentBytes (segmentDocument policyVersionSha result)) =
      segmentDocument policyVersionSha result := by
  rw [viewBytes, readBytes_segment]
  rfl

/-- Through the view, the command on bytes is the command on documents. -/
theorem archiverMain_view (codec : FloatCodec) (undecodable : Bytes → String)
    (policyVersionSha : String) (env : ArchiverEnv) (args : MonthlyArgs)
    (db : Except PyErr LedgerTable) (disk : ArchiveDisk Bytes) :
    monthlyMain sha256 policyVersionSha
        ⟨env.now, env.outLocal.map (viewBytes codec undecodable),
          env.s3Placeholder.map (viewBytes codec undecodable)⟩ args db
        (disk.map (viewBytes codec undecodable)) =
      ((archiverMain sha256 policyVersionSha env args db disk).1,
        ArchiveDisk.map (viewBytes codec undecodable)
          (archiverMain sha256 policyVersionSha env args db disk).2) := by
  unfold monthlyMain archiverMain
  cases db.bind (monthlySegment sha256 policyVersionSha env.now args) with
  | error e => rfl
  | ok result =>
    have hwrite := fun (e : ArchiveEnv Bytes) (target : String) (d : ArchiveDisk Bytes) =>
      atomicWriteReadonly_map (viewBytes codec undecodable) e target
        (documentBytes (segmentDocument policyVersionSha result)) d
    simp only [viewBytes_segment] at hwrite
    dsimp only
    rw [hwrite]
    generalize atomicWriteReadonly env.outLocal args.outLocal _ disk = out
    obtain ⟨_ | _, disk'⟩ := out
    · rfl
    cases args.s3Placeholder with
    | none => rfl
    | some path =>
      dsimp only
      rw [hwrite]
      generalize atomicWriteReadonly env.s3Placeholder path _ disk' = out
      obtain ⟨_ | _, disk''⟩ := out <;> rfl

theorem archiverMain_archived {policyVersionSha : String} {env : ArchiverEnv} {args : MonthlyArgs}
    {db : Except PyErr LedgerTable} {disk disk' : ArchiveDisk Bytes} {document : PyValue}
    (h : archiverMain sha256 policyVersionSha env args db disk = (.published document, disk'))
    (hne : ∀ path, args.s3Placeholder = some path → archiveTmp path ≠ args.outLocal) :
    ∃ result, db.bind (monthlySegment sha256 policyVersionSha env.now args) = .ok result ∧
      document = segmentDocument policyVersionSha result ∧
      ∀ path, path = args.outLocal ∨ args.s3Placeholder = some path →
        disk' path = some ⟨documentBytes document, 0o444⟩ := by
  unfold archiverMain at h
  cases hresult : db.bind (monthlySegment sha256 policyVersionSha env.now args) with
  | error e =>
    rw [hresult] at h
    cases h
  | ok result =>
    rw [hresult] at h
    dsimp only at h
    have hlocal := @atomicWriteReadonly_ok _ env.outLocal args.outLocal
      (documentBytes (segmentDocument policyVersionSha result)) disk
    generalize atomicWriteReadonly env.outLocal args.outLocal _ disk = out at h hlocal
    obtain ⟨_ | _, disk₁⟩ := out
    · cases h
    obtain ⟨hfirst, -⟩ := hlocal rfl
    cases hs3 : args.s3Placeholder with
    | none =>
      rw [hs3] at h
      cases h
      refine ⟨result, rfl, rfl, ?_⟩
      rintro path (rfl | hpath)
      · exact hfirst
      · cases hpath
    | some copy =>
      rw [hs3] at h
      dsimp only at h
      have hcopy := @atomicWriteReadonly_ok _ env.s3Placeholder copy
        (documentBytes (segmentDocument policyVersionSha result)) disk₁
      generalize atomicWriteReadonly env.s3Placeholder copy _ disk₁ = out at h hcopy
      obtain ⟨_ | _, disk₂⟩ := out
      · cases h
      obtain ⟨hsecond, hframe⟩ := hcopy rfl
      cases h
      refine ⟨result, rfl, rfl, ?_⟩
      rintro path (rfl | hpath)
      · by_cases hsame : args.outLocal = copy
        · rw [hsame]
          exact hsecond
        · exact (hframe _ hsame (hne copy hs3).symm).trans hfirst
      · cases hpath
        exact hsecond

theorem monthlySegment_isHex64 (hdigest : ∀ b, (sha256 b).length = 32) {policyVersionSha : String}
    {now : Datetime} {args : MonthlyArgs} {t : LedgerTable} {result : SegmentHashResult}
    (h : monthlySegment sha256 policyVersionSha now args t = .ok result) :
    IsHex64 result.segmentHash ∧ result.month = monthText args.month := by
  cases hids : t.monthIds args.month.year args.month.month with
  | error e =>
    rw [monthlySegment, computeSegmentHash, hids] at h
    cases h
  | ok ids =>
    rw [monthlySegment, computeSegmentHash, hids] at h
    cases h
    exact ⟨isHex64_hexdigest (hdigest _), rfl⟩

theorem loadPrevSegment_segment {policyVersionSha : String} {result : SegmentHashResult}
    (hhash : IsHex64 result.segmentHash) :
    loadPrevSegment pyRepr (.ok (segmentDocument policyVersionSha result)) =
      .ok ⟨PyStr.ofString result.segmentHash, .ofString result.month⟩ := by
  have hlookup : ∀ items, segmentDocument policyVersionSha result = .dict items →
      items.lookup (PyStr.ofString "segment_hash") = some (.ofString result.segmentHash) ∧
        items.lookup (PyStr.ofString "month") = some (.ofString result.month) := by
    intro items hitems
    cases hitems
    exact ⟨rfl, rfl⟩
  obtain ⟨hseg, hmonth⟩ := hlookup _ rfl
  exact loadPrevSegment_ok_iff.mpr ⟨_, rfl, hseg, hhash.isSegmentHash, hmonth⟩

/-- The archiver on bytes is the archiver on documents seen through `json.loads`, and the
verifier's reader gets back from every file of a published run what was computed. -/
theorem archive_file_round_trip (codec : FloatCodec) (undecodable : Bytes → String)
    (pyRepr : PyValue → String) (hdigest : ∀ b, (sha256 b).length = 32)
    (policyVersionSha : String) (env : ArchiverEnv) (args : MonthlyArgs) (t : LedgerTable)
    (disk : ArchiveDisk Bytes)
    (hne : ∀ path, args.s3Placeholder = some path → archiveTmp path ≠ args.outLocal) :
    monthlyMain sha256 policyVersionSha
        ⟨env.now, env.outLocal.map (viewBytes codec undecodable),
          env.s3Placeholder.map (viewBytes codec undecodable)⟩ args (.ok t)
        (disk.map (viewBytes codec undecodable)) =
      ((archiverMain sha256 policyVersionSha env args (.ok t) disk).1,
        ArchiveDisk.map (viewBytes codec undecodable)
          (archiverMain sha256 policyVersionSha env args (.ok t) disk).2) ∧
    ∀ document disk',
      archiverMain sha256 policyVersionSha env args (.ok t) disk = (.published document, disk') →
      ∃ result, monthlySegment sha256 policyVersionSha env.now args t = .ok result ∧
        document = segmentDocument policyVersionSha result ∧
        ∀ path, path = args.outLocal ∨ args.s3Placeholder = some path →
          readJson codec.parse undecodable disk' path = .ok document ∧
          loadPrevSegment pyRepr (readJson codec.parse undecodable disk' path) =
            .ok ⟨PyStr.ofString result.segmentHash, .ofString (monthText args.month)⟩ := by
  refine ⟨archiverMain_view codec undecodable policyVersionSha env args (.ok t) disk, ?_⟩
  intro document disk' hrun
  obtain ⟨result, hresult, rfl, hfiles⟩ := archiverMain_archived hrun hne
  obtain ⟨hhash, hmonth⟩ := monthlySegment_isHex64 hdigest hresult
  refine ⟨result, hresult, rfl, fun path hpath => ?_⟩
  have hread : readJson codec.parse undecodable disk' path =
      .ok (segmentDocument policyVersionSha result) := by
    simp only [readJson, hfiles path hpath]
    exact readBytes_segment policyVersionSha result
  rw [hread, ← hmonth]
  exact ⟨rfl, loadPrevSegment_segment hhash⟩

def placedArgs : MonthlyArgs := { juneChainArgs with s3Placeholder := some "placeholder.json" }

/-- The archive of June 2027 with its two rows, both files written over torn ones of an earlier
run. -/
theorem archive_file_round_trip_june :
    ∃ document disk', archiverMain lastByteDigest "abcdef1"
        ⟨(juneEnv overTime).now, .calm [], .calm []⟩ placedArgs
        (.ok (World.empty.run lastByteDigest juneCalls).table)
        (fun _ => some ⟨[0x7b], 0o444⟩) = (.published document, disk') ∧
      readJson sampleCodec.parse (fun _ => "") disk' placedArgs.outLocal = .ok document ∧
      readJson sampleCodec.parse (fun _ => "") disk' "placeholder.json" = .ok document := by
  have hne : ∀ path, placedArgs.s3Placeholder = some path →
      archiveTmp path ≠ placedArgs.outLocal := by
    intro path hpath
    cases hpath
    decide
  obtain ⟨hview, hfiles⟩ := archive_file_round_trip sampleCodec (fun _ => "")
    (fun _ => "") lastByteDigest_length "abcdef1" ⟨(juneEnv overTime).now, .calm [], .calm []⟩
    placedArgs (World.empty.run lastByteDigest juneCalls).table
    (fun _ => some ⟨[0x7b], 0o444⟩) hne
  obtain ⟨result, hresult⟩ := @monthlySegment_isOk lastByteDigest "abcdef1" (juneEnv overTime).now
    placedArgs (World.empty.run lastByteDigest juneCalls).table (by decide)
  have hpublished := (congrArg Prod.fst hview).symm.trans
    (monthlyMain_of_ok hresult (atomicWriteReadonly_calm _ _ _ _)
      fun _ _ _ => atomicWriteReadonly_calm _ _ _ _)
  generalize archiverMain lastByteDigest "abcdef1" _ placedArgs _ _ = run at hfiles hpublished ⊢
  obtain ⟨_, disk'⟩ := run
  cases hpublished
  obtain ⟨_, -, -, hread⟩ := hfiles _ disk' rfl
  exact ⟨_, disk', rfl, (hread _ (.inl rfl)).1, (hread _ (.inr rfl)).1⟩

/-- A front of an archived document, such as an interrupted write leaves, is never taken for a
segment: every check against it fails. -/
theorem torn_segment_rejected (codec : FloatCodec) (undecodable : Bytes → String)
    {archiverSha : String} {result : SegmentHashResult} {front : Bytes} {disk : ArchiveDisk Bytes}
    {path : String} {mode : ℕ}
    (hfront : front <+: documentBytes (segmentDocument archiverSha result))
    (hne : front ≠ documentBytes (segmentDocument archiverSha result))
    (hdisk : disk path = some ⟨front, mode⟩) {vargs : VerifyArgs}
    (hpath : vargs.prevSegmentJson = some path) (hyear : vargs.year.isSome)
    (hmonth : vargs.month.isSome) (policyVersionSha now : String) (db : Except PyErr LedgerTable) :
    (verifyMain sha256 pyRepr policyVersionSha now (readJson codec.parse undecodable disk) vargs
      db).verdict = .verifyFailed ∧
    (verifyMain sha256 pyRepr policyVersionSha now (readJson codec.parse undecodable disk) vargs
      db).exitCode = 1 := by
  obtain ⟨items, hdocument, -⟩ := segmentDocument_members archiverSha result
  have hdata : IsData codec (.dict items) := hdocument ▸ isData_segmentDocument archiverSha result
  rw [hdocument] at hfront hne
  have hunreadable : ¬ vargs.ContinuityReadable (readJson codec.parse undecodable disk) := by
    intro hreadable
    obtain ⟨members, _, _, hfile, -⟩ := hreadable path hpath hyear hmonth
    simp only [readJson, hdisk] at hfile
    exact not_readBytes_front hdata hfront hne _ hfile
  have hfailed : ∀ r : VerifyResult, ∀ e,
      (r.failed e).verdict = .verifyFailed ∧ (r.failed e).exitCode = 1 := fun _ _ => ⟨rfl, rfl⟩
  unfold verifyMain
  cases db with
  | error e => exact hfailed _ e
  | ok t =>
    cases hchain : verifyChain sha256 t with
    | error e => simp only [hchain, hfailed, and_self]
    | ok mismatches =>
      rw [← @segmentContinuity_isOk_iff sha256 pyRepr policyVersionSha now _ vargs t] at hunreadable
      cases hblock : segmentContinuity sha256 pyRepr policyVersionSha now
          (readJson codec.parse undecodable disk) vargs t with
      | error e => simp only [hchain, hblock, hfailed, and_self]
      | ok block => exact absurd ⟨block, hblock⟩ hunreadable

theorem documentBytes_ne_nil (policyVersionSha : String) (result : SegmentHashResult) :
    documentBytes (segmentDocument policyVersionSha result) ≠ [] := by
  have hread : ReadsBack sampleCodec .indented 0 (segmentDocument policyVersionSha result) :=
    readsBack _ (isData_segmentDocument policyVersionSha result) 0
  obtain ⟨c, w, htext, -⟩ := hread.begins
  rw [documentBytes, htext, Ne, encodeUtf8_eq_nil, ← String.toList_eq_nil_iff,
    String.toList_ofList]
  exact List.cons_ne_nil c w

/-- The segment of May 2027, over a ledger with no row in that month. -/
def maySegment : SegmentHashResult := ⟨"2027-05", zeroHash, none, 0, none, none, ""⟩

/-- The file of May lacks its last byte, the closing brace. -/
theorem torn_segment_rejected_unclosed :
    (verifyMain lastByteDigest (fun _ => "") "abcdef1" ""
      (readJson sampleCodec.parse (fun _ => "") fun _ =>
        some ⟨(documentBytes (segmentDocument "abcdef1" maySegment)).dropLast, 0o644⟩)
      juneVerifyArgs (.ok LedgerTable.empty)).verdict = .verifyFailed := by
  have hne : (documentBytes (segmentDocument "abcdef1" maySegment)).dropLast ≠
      documentBytes (segmentDocument "abcdef1" maySegment) := fun heq => by
    have hlength := congrArg List.length heq
    have hpos := List.length_pos_of_ne_nil (documentBytes_ne_nil "abcdef1" maySegment)
    rw [List.length_dropLast] at hlength
    omega
  exact (torn_segment_rejected sampleCodec (fun _ => "") (List.dropLast_prefix _) hne rfl
    (show juneVerifyArgs.prevSegmentJson = some "may.json" from rfl) rfl rfl "abcdef1" ""
    (.ok LedgerTable.empty)).1

end Runs

end Athena
