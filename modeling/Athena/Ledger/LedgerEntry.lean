import Athena.Core.Dto
import Athena.Ledger.Integrity

/-!
# Reading the ledger back through its DTO

`LedgerEntry` is not on the writing path. A row read back column by column is
valid for it because every producer of a column keeps to the model, except that
the version module has a fallback which the pattern of `BaseDTO` does not admit.
-/

namespace Athena

variable {sha256 : Bytes → Bytes}

/-- The keyword arguments of `LedgerEntry`, with values of the annotated types. -/
structure LedgerEntryInput where
  timestamp : TimestampValue
  moduleVersion : String
  policyVersionGitSha : String
  id : Option Int
  userId : Int
  eventType : String
  payloadJson : String
  prevHash : Option String
  thisHash : String
  paramHash : String
  createdAtUtc : Option TimestampValue
  deriving DecidableEq, Repr

/-- `Field(min_length=64, max_length=64)`. -/
def isHashLength (s : String) : Bool := s.toList.length = 64

namespace LedgerEntryInput

def checks (x : LedgerEntryInput) : List (String × Bool) :=
  [("timestamp", (requireUtc x.timestamp).toBool),
    ("module_version", isModuleVersion x.moduleVersion),
    ("policy_version_git_sha", isPolicySha x.policyVersionGitSha),
    ("user_id", 0 ≤ x.userId),
    ("event_type", x.eventType ∈ ledgerEventTypeV1),
    ("prev_hash", x.prevHash.all isHashLength),
    ("this_hash", isHashLength x.thisHash),
    ("param_hash", isHashLength x.paramHash)]

def invalidFields (x : LedgerEntryInput) : List String := rejectedFields x.checks

end LedgerEntryInput

/-- A row as a SELECT returns it; TIMESTAMPTZ columns come back aware. -/
def Row.readBack (r : Row) : LedgerEntryInput :=
  { timestamp := .aware r.timestamp
    moduleVersion := r.moduleVersion
    policyVersionGitSha := r.policyVersionGitSha
    id := some r.id
    userId := r.userId
    eventType := r.eventType
    payloadJson := r.payloadJson
    prevHash := r.prevHash
    thisHash := r.thisHash
    paramHash := r.paramHash
    createdAtUtc := some (.aware r.createdAtUtc) }

/-- A call with an annotated event type and with the default `user_id`, `module_version` and
`param_hash`, in a process with any value of `POLICY_VERSION_SHA`. -/
structure Call.Default (call : Call) : Prop where
  userId : call.client.userId = 1
  moduleVersion : call.client.moduleVersion = ledgerClientModuleVersion
  policySha : IsPolicyVersionSha call.client.policyVersionSha
  eventType : call.eventType ∈ ledgerEventTypeV1
  paramHash : call.paramHash = emptyParamHash

theorem ledgerClientModuleVersion_valid : isModuleVersion ledgerClientModuleVersion := by decide

theorem emptyParamHash_length : isHashLength emptyParamHash := by decide

theorem Row.Sealed.isHashLength (hdigest : ∀ b, (sha256 b).length = 32) {r : Row}
    (h : r.Sealed sha256) : isHashLength r.thisHash := by
  obtain ⟨b, -, hb⟩ := computeEntryHash_ok_iff.mp h
  rw [Athena.isHashLength, ← hb, length_hexdigest, hdigest]
  rfl

theorem RowChain.isHashLength (hdigest : ∀ b, (sha256 b).length = 32) {rows : List Row}
    (h : RowChain sha256 none rows) {r : Row} (hr : r ∈ rows) :
    r.prevHash.all Athena.isHashLength ∧ Athena.isHashLength r.thisHash := by
  refine ⟨?_, (h.valid_of_mem hr).isHashLength hdigest⟩
  rcases h.prev_of_mem hr with hprev | ⟨f, -, hf, hprev⟩
  · rw [hprev]
    rfl
  · rw [hprev, Option.all_some]
    exact hf.isHashLength hdigest

theorem Row.WrittenBy.invalidFields {call : Call} {r : Row} (h : r.WrittenBy call)
    (hdefault : call.Default) (hprev : r.prevHash.all isHashLength)
    (hthis : isHashLength r.thisHash) :
    r.readBack.invalidFields =
      if call.client.policyVersionSha = "unknown-dev" then ["policy_version_git_sha"] else [] := by
  have hmodule : isModuleVersion r.moduleVersion = true := by
    rw [h.moduleVersion, hdefault.moduleVersion]
    exact ledgerClientModuleVersion_valid
  have huser : 0 ≤ r.userId := by
    rw [h.userId, hdefault.userId]
    exact zero_le_one
  have hevent : r.eventType ∈ ledgerEventTypeV1 := by
    rw [h.eventType]
    exact hdefault.eventType
  have hparam : isHashLength r.paramHash = true := by
    rw [h.paramHash, hdefault.paramHash]
    exact emptyParamHash_length
  have hsha : isPolicySha r.policyVersionGitSha =
      !decide (call.client.policyVersionSha = "unknown-dev") := by
    rw [h.policySha, Bool.eq_iff_iff, isPolicySha_iff hdefault.policySha]
    simp
  have hchecks : r.readBack.checks = [("timestamp", true), ("module_version", true),
      ("policy_version_git_sha", !decide (call.client.policyVersionSha = "unknown-dev")),
      ("user_id", true), ("event_type", true), ("prev_hash", true), ("this_hash", true),
      ("param_hash", true)] := by
    simp only [LedgerEntryInput.checks, List.cons.injEq, Prod.mk.injEq, true_and, and_true]
    exact ⟨rfl, hmodule, hsha, decide_eq_true huser, decide_eq_true hevent, hprev, hthis, hparam⟩
  rw [LedgerEntryInput.invalidFields, hchecks, rejectedFields]
  by_cases hfallback : call.client.policyVersionSha = "unknown-dev" <;> simp [hfallback]

/-- A row of a run with default calls is accepted by `LedgerEntry` unless the process that
wrote it ran under the fallback SHA, and then that column is the only one rejected. -/
theorem ledger_entry_reads_back {calls : List Call} {w : World} (hrun : Run sha256 calls w)
    (hdigest : ∀ b, (sha256 b).length = 32) (hcalls : ∀ call ∈ calls, call.Default) :
    ∀ r ∈ w.table.rows, ∃ call ∈ calls, r.WrittenBy call ∧ r.readBack.invalidFields =
      if call.client.policyVersionSha = "unknown-dev" then ["policy_version_git_sha"] else [] := by
  intro r hr
  obtain ⟨call, hcall, hwritten⟩ := hrun.intact.written r hr
  obtain ⟨hprev, hthis⟩ := RowChain.isHashLength hdigest hrun.intact.chained hr
  exact ⟨call, hcall, hwritten, hwritten.invalidFields (hcalls call hcall) hprev hthis⟩

/-- A constant digest of the length of SHA-256. -/
def blankDigest (_ : Bytes) : Bytes := List.replicate 32 0

theorem construct_default {c : LedgerClient} {env : CallEnv} (hid : c.userId = 1)
    (hmodule : c.moduleVersion = ledgerClientModuleVersion)
    (hsha : IsPolicyVersionSha c.policyVersionSha) : (Call.construct c env).Default :=
  ⟨hid, hmodule, hsha, List.mem_cons_self, rfl⟩

theorem ledger_entry_reads_back_seeded :
    ∃ r ∈ (seededWorld blankDigest sampleClient 0).table.rows, r.readBack.invalidFields = [] := by
  obtain ⟨text, htext⟩ := LedgerClient.genesisPayload_isOk sampleClient.policyVersionSha
  obtain ⟨r, -, -, -, -, hrows, -⟩ := seededWorld_rows blankDigest sampleClient_valid htext 0
  have hr : r ∈ (seededWorld blankDigest sampleClient 0).table.rows := by simp [hrows]
  have hdefault : (Call.construct sampleClient ⟨0, 0, none, false⟩).Default :=
    construct_default rfl rfl (.inl ⟨"abcdef1", by decide⟩)
  obtain ⟨call, hcall, -, hfields⟩ := ledger_entry_reads_back
    (seededWorld_run blankDigest sampleClient 0) (fun _ => List.length_replicate)
    (fun call hcall => List.mem_singleton.mp hcall ▸ hdefault) r hr
  rw [List.mem_singleton.mp hcall] at hfields
  exact ⟨r, hr, hfields.trans (if_neg (by decide))⟩

/-- The client of a build whose commit string is a bare tag. -/
def taggedClient : LedgerClient := ⟨1, ledgerClientModuleVersion, extractPolicySha "v1.0.0"⟩

theorem tagged_build_row_rejected :
    Run blankDigest [.construct taggedClient ⟨0, 0, none, false⟩]
        (seededWorld blankDigest taggedClient 0) ∧
      (Call.construct taggedClient ⟨0, 0, none, false⟩).Default ∧
      (seededWorld blankDigest taggedClient 0).table.rows ≠ [] ∧
      ∀ r ∈ (seededWorld blankDigest taggedClient 0).table.rows,
        r.readBack.invalidFields = ["policy_version_git_sha"] := by
  have hsha : taggedClient.policyVersionSha = "unknown-dev" := by decide
  have hrun := seededWorld_run blankDigest taggedClient 0
  have hdefault : (Call.construct taggedClient ⟨0, 0, none, false⟩).Default :=
    construct_default rfl rfl (.inl ⟨"v1.0.0", rfl⟩)
  obtain ⟨text, htext⟩ := LedgerClient.genesisPayload_isOk taggedClient.policyVersionSha
  obtain ⟨r, -, -, -, -, hrows, -⟩ := seededWorld_rows blankDigest (by decide) htext 0
  refine ⟨hrun, hdefault, by simp [hrows], fun x hx => ?_⟩
  obtain ⟨call, hcall, hwritten⟩ := hrun.intact.written x hx
  rw [List.mem_singleton.mp hcall] at hwritten
  obtain ⟨hprev, hthis⟩ := RowChain.isHashLength (fun _ => List.length_replicate)
    hrun.intact.chained hx
  rw [hwritten.invalidFields hdefault hprev hthis]
  exact if_pos hsha

end Athena
