import Athena.Ledger.Progress
import Athena.Ledger.VerifyChain

/-!
# Integrity of the ledgers that runs leave behind
-/

namespace Athena

variable {sha256 : Bytes → Bytes}

/-- In a run that has constructed a client, the rows are read back in the order they
were inserted, and they are a chain. -/
theorem Run.byId_eq {calls : List Call} {w : World} (hrun : Run sha256 calls w) :
    w.table.byId = w.table.rows :=
  LedgerTable.byId_eq_rows hrun.intact.sorted

theorem Run.verifyChain_eq_nil {calls : List Call} {w : World} (hrun : Run sha256 calls w) :
    verifyChain sha256 w.table = .ok [] :=
  verifyChain_eq_nil_iff.mpr (hrun.byId_eq ▸ hrun.intact.chained)

/-- The row without predecessor is the one the genesis seeding wrote. -/
theorem Run.eventType_of_prevHash_none {calls : List Call} {w : World} (hrun : Run sha256 calls w)
    {r : Row} (hr : r ∈ w.table.rows) (hprev : r.prevHash = none) : r.eventType = "genesis" := by
  obtain ⟨call, -, hcall⟩ := hrun.intact.written r hr
  obtain ⟨c, env, rfl⟩ := hcall.genesis.mp hprev
  exact hcall.eventType

/-- Every reached ledger is a chain on a single genesis row, with strictly increasing
ids, rows sealed over their own columns, and a clean verification. -/
theorem run_ledger_intact {calls : List Call} {w : World} (hrun : Run sha256 calls w)
    (hclients : w.clients ≠ []) :
    (∃ genesis rest, w.table.byId = genesis :: rest ∧ genesis.id = 1 ∧ genesis.prevHash = none ∧
      genesis.eventType = "genesis" ∧ ∀ r ∈ rest, 1 < r.id ∧ r.prevHash ≠ none) ∧
    (w.table.byId.Pairwise fun a b => a.id < b.id) ∧
    (w.table.byId.IsChain fun a b => b.prevHash = some a.thisHash) ∧
    (∀ r ∈ w.table.byId, computeEntryHash sha256 r.hashed = .ok r.thisHash) ∧
    verifyChain sha256 w.table = .ok [] := by
  have hintact := hrun.intact
  have hchain : RowChain sha256 none w.table.byId := hrun.byId_eq ▸ hintact.chained
  refine ⟨?_, w.table.byId_strict, hchain.isChain, fun r hr => hchain.valid_of_mem hr,
    hrun.verifyChain_eq_nil⟩
  cases hrows : w.table.byId with
  | nil => exact absurd (LedgerTable.byId_eq_nil_iff.mp hrows) (hintact.seeded hclients)
  | cons genesis rest =>
    have hmem : ∀ r ∈ genesis :: rest, r ∈ w.table.rows := fun r hr =>
      LedgerTable.mem_byId.mp (hrows ▸ hr)
    have hgenesis : genesis ∈ w.table.rows := hmem genesis (by simp)
    have hprev : genesis.prevHash = none := (hrows ▸ hchain).1
    have hid : genesis.id = 1 := ((w.table.admitted _ hgenesis).prevHash_eq_none_iff).mp hprev
    refine ⟨genesis, rest, rfl, hid, hprev, hrun.eventType_of_prevHash_none hgenesis hprev, ?_⟩
    intro r hr
    have hlt : genesis.id < r.id := (List.pairwise_cons.mp (hrows ▸ w.table.byId_strict)).1 r hr
    have hadm := w.table.admitted r (hmem r (by simp [hr]))
    refine ⟨by omega, fun hnone => ?_⟩
    have := hadm.prevHash_eq_none_iff.mp hnone
    omega

/-- The ledger that one construction leaves behind at the given clock reading. -/
def seededWorld (sha256 : Bytes → Bytes) (c : LedgerClient) (now : Int) : World :=
  World.empty.step sha256 (.construct c ⟨now, now, none, false⟩)

theorem seededWorld_run (sha256 : Bytes → Bytes) (c : LedgerClient) (now : Int) :
    Run sha256 [.construct c ⟨now, now, none, false⟩] (seededWorld sha256 c now) :=
  .call _ .start trivial

theorem seededWorld_rows (sha256 : Bytes → Bytes) {c : LedgerClient} (hc : c.Valid)
    {payloadJson : String}
    (hpayload : canonicalJson (genesisPayload c.policyVersionSha) = .ok payloadJson) (now : Int) :
    ∃ r : Row, r.id = 1 ∧ r.createdAtUtc = now ∧
      r.hashed = ⟨none, payloadJson, c.policyVersionSha, "genesis", c.userId⟩ ∧ r.Sealed sha256 ∧
      (seededWorld sha256 c now).table.rows = [r] ∧ (seededWorld sha256 c now).clients = [c] := by
  obtain ⟨r, hid, hat, hhashed, hsealed, hrows, -, hclients⟩ :=
    World.step_construct_fresh sha256 World.empty c ⟨now, now, none, false⟩ rfl hc rfl rfl hpayload
  exact ⟨r, hid, hat, hhashed, hsealed, hrows, hclients⟩

theorem seededWorld_ready (sha256 : Bytes → Bytes) {c : LedgerClient} (hc : c.Valid) (now : Int) :
    c ∈ (seededWorld sha256 c now).clients ∧
      (seededWorld sha256 c now).ledger.sequence + 1 < 2 ^ 63 := by
  obtain ⟨text, htext⟩ := LedgerClient.genesisPayload_isOk c.policyVersionSha
  obtain ⟨-, -, -, -, -, -, hseq, hclients⟩ :=
    World.step_construct_fresh sha256 World.empty c ⟨now, now, none, false⟩ rfl hc rfl rfl htext
  rw [seededWorld, hclients, hseq]
  exact ⟨List.mem_cons_self, by decide⟩

def sampleClient : LedgerClient := ⟨1, ledgerClientModuleVersion, "abcdef1"⟩

theorem sampleClient_valid : sampleClient.Valid := by decide

/-- Each of the calls is allowed where it is made. -/
def World.AllowsAll (sha256 : Bytes → Bytes) : World → List Call → Prop
  | _, [] => True
  | w, call :: calls => w.Allows call ∧ World.AllowsAll sha256 (w.step sha256 call) calls

instance World.decidableAllowsAll (sha256 : Bytes → Bytes) :
    (w : World) → (calls : List Call) → Decidable (w.AllowsAll sha256 calls)
  | _, [] => .isTrue trivial
  | w, call :: calls =>
    have := World.decidableAllowsAll sha256 (w.step sha256 call) calls
    inferInstanceAs (Decidable (_ ∧ _))

theorem Run.extend {calls : List Call} {w : World} (hrun : Run sha256 calls w) {more : List Call}
    (h : w.AllowsAll sha256 more) :
    Run sha256 (calls ++ more) (more.foldl (World.step sha256) w) := by
  induction more generalizing calls w with
  | nil => rwa [List.append_nil]
  | cons call more ih =>
    rw [List.append_cons]
    exact ih (hrun.call call h.1) h.2

/-- A client of a later build, for another user. -/
def otherClient : LedgerClient := ⟨2, ledgerClientModuleVersion, "0123abc-dirty"⟩

/-- An append, one whose INSERT fails behind `nextval`, and an append by a later build. -/
def sampleCalls : List Call :=
  [.construct sampleClient ⟨0, 0, none, false⟩,
    .append sampleClient ⟨1, 1, none, false⟩ "schema_segment_transition" .none emptyParamHash,
    .append sampleClient ⟨2, 2, some .insert, true⟩ "schema_segment_transition" .none
      emptyParamHash,
    .construct otherClient ⟨3, 3, none, false⟩,
    .append otherClient ⟨4, 4, none, false⟩ "schema_segment_transition" (.int 7) emptyParamHash]

def sampleWorld (sha256 : Bytes → Bytes) : World :=
  sampleCalls.foldl (World.step sha256) World.empty

theorem sampleWorld_spec : World.empty.AllowsAll (fun _ => [0]) sampleCalls ∧
    (sampleWorld fun _ => [0]).clients.length = 2 ∧
    (sampleWorld fun _ => [0]).table.rows.map Row.id = [1, 2, 4] := by
  decide +kernel

theorem run_ledger_intact_sample :
    (sampleWorld fun _ => [0]).table.rows.map Row.id = [1, 2, 4] ∧
      verifyChain (fun _ => [0]) (sampleWorld fun _ => [0]).table = .ok [] := by
  obtain ⟨hallows, hclients, hids⟩ := sampleWorld_spec
  have hrun : Run (fun _ => [0]) sampleCalls (sampleWorld fun _ => [0]) := Run.start.extend hallows
  refine ⟨hids, (run_ledger_intact hrun fun hnil => ?_).2.2.2.2⟩
  rw [hnil] at hclients
  cases hclients

/-- The byte strings that verifying the table hands to SHA-256. -/
def hashedBytes (t : LedgerTable) : Set Bytes := {b | ∃ r ∈ t.rows, r.hashed.body = .ok b}

/-- The columns `event_type`, `policy_version_git_sha`, `user_id`, `payload_json`,
`prev_hash` and `this_hash`. -/
def Row.sealedColumns (r : Row) : EntryFields × String := (r.hashed, r.thisHash)

/-- A predecessor column in a chain is NULL or the non-empty seal of another row. -/
theorem RowChain.prevSet {rows : List Row} (h : RowChain sha256 none rows)
    (hdigest : ∀ b, sha256 b ≠ []) {r : Row} (hr : r ∈ rows) : r.hashed.PrevSet := by
  intro hempty
  rcases h.prev_of_mem hr with hprev | ⟨f, -, hf, hprev⟩
  · simp [Row.hashed, hprev] at hempty
  · have : f.thisHash = "" := by simpa [Row.hashed, hprev] using hempty
    exact ne_empty_of_computeEntryHash hdigest hf this

theorem RowChain.prevHash_nulFree {rows : List Row} (h : RowChain sha256 none rows) {r : Row}
    (hr : r ∈ rows) : NulFree (r.prevHash.getD "") := by
  rcases h.prev_of_mem hr with hprev | ⟨f, -, hf, hprev⟩
  · rw [hprev]
    decide
  · obtain ⟨b, -, hb⟩ := computeEntryHash_ok_iff.mp hf
    rw [hprev, Option.getD_some, ← hb]
    exact hexdigest_nulFree _

/-- The rows of a run are NUL-free once event types and policy SHAs are: the payload
comes from `canonicalJson` and the predecessor from `hexdigest`. -/
theorem Run.hashed_nulFree {calls : List Call} {w : World} (hrun : Run sha256 calls w)
    (hnul : ∀ call ∈ calls, call.NulFree) {r : Row} (hr : r ∈ w.table.rows) : r.hashed.NulFree := by
  obtain ⟨call, hcall, hwritten⟩ := hrun.intact.written r hr
  obtain ⟨hevent, hsha⟩ := hnul call hcall
  exact ⟨RowChain.prevHash_nulFree hrun.intact.chained hr, canonicalJson_nulFree hwritten.payload,
    by rw [Row.hashed, hwritten.policySha]; exact hsha,
    by rw [Row.hashed, hwritten.eventType]; exact hevent⟩

/-- The chain tip commits to the whole ledger. A table that verifies and ends in the
`this_hash` a run's ledger ends in has the same number of rows and the same hashed
columns in each of them. -/
theorem tip_determines_ledger {calls : List Call} {w : World} (hrun : Run sha256 calls w)
    (hnul : ∀ call ∈ calls, call.NulFree) (t : LedgerTable) (hdigest : ∀ b, sha256 b ≠ [])
    (hcf : CollisionFree sha256 (hashedBytes w.table ∪ hashedBytes t))
    (hw : verifyChain sha256 w.table = .ok []) (ht : verifyChain sha256 t = .ok [])
    (htip : w.table.byId.getLast?.map Row.thisHash = t.byId.getLast?.map Row.thisHash) :
    w.table.byId.map Row.sealedColumns = t.byId.map Row.sealedColumns := by
  have hchain := verifyChain_eq_nil_iff.mp hw
  have hchain' := verifyChain_eq_nil_iff.mp ht
  refine HashChain.contents_eq_of_tip_eq ?_ ?_ hchain hchain' ?_
  · intro e f h
    exact congrArg (fun c => c.1.prevHash) h
  · intro e he f hf hthis
    have hem := LedgerTable.mem_byId.mp he
    have hfm := LedgerTable.mem_byId.mp hf
    have hse : computeEntryHash sha256 e.hashed = .ok e.thisHash := hchain.valid_of_mem he
    have hsf : computeEntryHash sha256 f.hashed = .ok e.thisHash := hthis ▸ hchain'.valid_of_mem hf
    obtain ⟨b, heb, hfb⟩ := body_eq_of_computeEntryHash_eq hcf hse hsf
      (fun b hb => Or.inl ⟨e, hem, hb⟩) (fun b hb => Or.inr ⟨f, hfm, hb⟩)
    have hfields : e.hashed = f.hashed := EntryFields.eq_of_body_eq (hrun.hashed_nulFree hnul hem)
      (RowChain.prevSet hchain hdigest he) (RowChain.prevSet hchain' hdigest hf) heb hfb
    exact Prod.ext hfields hthis
  · rw [HashChain.tip_eq_getLast?, HashChain.tip_eq_getLast?, htip]

theorem collisionFree_hashedBytes {t t' : LedgerTable}
    (h : ∀ r ∈ t.rows ++ t'.rows, ∀ r' ∈ t.rows ++ t'.rows,
      r.hashed.body.map sha256 = r'.hashed.body.map sha256 → r.hashed.body = r'.hashed.body) :
    CollisionFree sha256 (hashedBytes t ∪ hashedBytes t') := by
  have hrow : ∀ b ∈ hashedBytes t ∪ hashedBytes t', ∃ r ∈ t.rows ++ t'.rows,
      r.hashed.body = .ok b := by
    rintro b (⟨r, hr, hb⟩ | ⟨r, hr, hb⟩)
    · exact ⟨r, List.mem_append_left _ hr, hb⟩
    · exact ⟨r, List.mem_append_right _ hr, hb⟩
  intro b hb b' hb' heq
  obtain ⟨r, hr, hbody⟩ := hrow b hb
  obtain ⟨r', hr', hbody'⟩ := hrow b' hb'
  have hsame := h r hr r' hr' (by rw [hbody, hbody']; exact congrArg Except.ok heq)
  rw [hbody, hbody'] at hsame
  exact Except.ok.inj hsame

/-- A digest of one byte. -/
def lengthDigest (b : Bytes) : Bytes := [UInt8.ofNat b.length]

/-- The calls among `sampleCalls` that succeed, made later. -/
def laterCalls : List Call :=
  [.construct sampleClient ⟨5, 5, none, false⟩,
    .append sampleClient ⟨6, 6, none, false⟩ "schema_segment_transition" .none emptyParamHash,
    .construct otherClient ⟨7, 7, none, false⟩,
    .append otherClient ⟨8, 8, none, false⟩ "schema_segment_transition" (.int 7) emptyParamHash]

def laterWorld (sha256 : Bytes → Bytes) : World :=
  laterCalls.foldl (World.step sha256) World.empty

theorem laterWorld_spec : World.empty.AllowsAll lengthDigest sampleCalls ∧
    World.empty.AllowsAll lengthDigest laterCalls ∧
    (sampleWorld lengthDigest).table.rows.map Row.id = [1, 2, 4] ∧
    (laterWorld lengthDigest).table.rows.map Row.id = [1, 2, 3] := by
  decide +kernel

/-- Ledgers with the same events at other times and under other ids end in the same hash. -/
theorem tip_determines_ledger_later :
    (sampleWorld lengthDigest).table.rows.map Row.id = [1, 2, 4] ∧
    (laterWorld lengthDigest).table.rows.map Row.id = [1, 2, 3] ∧
    (sampleWorld lengthDigest).table.byId.map Row.sealedColumns =
      (laterWorld lengthDigest).table.byId.map Row.sealedColumns := by
  obtain ⟨hallows, hallows', hids, hids'⟩ := laterWorld_spec
  have hrun : Run lengthDigest sampleCalls (sampleWorld lengthDigest) := Run.start.extend hallows
  have hrun' : Run lengthDigest laterCalls (laterWorld lengthDigest) := Run.start.extend hallows'
  refine ⟨hids, hids', ?_⟩
  refine tip_determines_ledger hrun (by decide +kernel) _ (fun _ => List.cons_ne_nil _ _)
    (collisionFree_hashedBytes ?_) hrun.verifyChain_eq_nil hrun'.verifyChain_eq_nil ?_
  · decide +kernel
  · decide +kernel

/-- A digest without collisions. -/
def framedDigest (b : Bytes) : Bytes := 0 :: b

/-- A construction, and an append whose event type contains a NUL. -/
def shiftedCalls : List Call :=
  [.construct sampleClient ⟨0, 0, none, false⟩,
    .append sampleClient ⟨1, 1, none, false⟩ "note\x00genesis" .none emptyParamHash]

/-- The columns of the appended row, moved on by one NUL. -/
def Row.shift (r : Row) : Row :=
  { r with
    payloadJson := "null\x00abcdef1"
    policyVersionGitSha := "note"
    eventType := "genesis" }

theorem body_shift {r : Row} {tip : String} (htip : IsAscii tip)
    (hr : r.hashed = ⟨some tip, "null", "abcdef1", "note\x00genesis", 1⟩) :
    r.shift.hashed.body = r.hashed.body := by
  have hprev : r.prevHash = some tip := congrArg EntryFields.prevHash hr
  have huser : r.userId = 1 := congrArg EntryFields.userId hr
  have hshift : r.shift.hashed = ⟨some tip, "null\x00abcdef1", "note", "genesis", 1⟩ := by
    simp [Row.hashed, Row.shift, hprev, huser]
  have hjoin : Framing.join 0 r.shift.hashed.parts = Framing.join 0 r.hashed.parts := by
    rw [hshift, hr]
    simp only [EntryFields.parts, Option.getD_some, Framing.join_cons_cons]
    exact congrArg (fun rest => encodeUtf8 tip ++ 0 :: rest) (by decide +kernel)
  have hleft : r.shift.hashed.Encodable := by
    rw [hshift]
    exact ⟨htip, (by decide : IsAscii "note")⟩
  have hright : r.hashed.Encodable := by
    rw [hr]
    exact ⟨htip, (by decide : IsAscii "abcdef1")⟩
  rw [EntryFields.body_eq, EntryFields.body_eq, if_pos hleft, if_pos hright, hjoin]

/-- With a NUL in an event type, another table verifies and ends in the same hash. -/
theorem tip_shared_by_shifted_columns :
    ∃ (w : World) (t : LedgerTable), Run framedDigest shiftedCalls w ∧
      (∀ b, framedDigest b ≠ []) ∧
      CollisionFree framedDigest (hashedBytes w.table ∪ hashedBytes t) ∧
      verifyChain framedDigest w.table = .ok [] ∧ verifyChain framedDigest t = .ok [] ∧
      w.table.byId.getLast?.map Row.thisHash = t.byId.getLast?.map Row.thisHash ∧
      w.table.byId.map Row.sealedColumns ≠ t.byId.map Row.sealedColumns := by
  obtain ⟨text, htext⟩ := LedgerClient.genesisPayload_isOk sampleClient.policyVersionSha
  obtain ⟨g, hid, -, hg, hgseal, hrows, hseq, hclients⟩ := World.step_construct_fresh framedDigest
    World.empty sampleClient ⟨0, 0, none, false⟩ rfl sampleClient_valid rfl rfl htext
  have hrun := seededWorld_run framedDigest sampleClient 0
  have htip : LedgerClient.selectTip (seededWorld framedDigest sampleClient 0).ledger =
      some g.thisHash := by
    rw [selectTip_eq_tip hrun.intact.sorted]
    exact congrArg (HashChain.tip Row.thisHash none) hrows
  have hascii : IsAscii g.thisHash := isAscii_of_computeEntryHash hgseal
  obtain ⟨r, hrid, hr, hrseal, hrows', -⟩ := World.step_append_ok framedDigest sampleClient
    ⟨1, 1, none, false⟩ "note\x00genesis" emptyParamHash rfl sampleClient_valid htip hascii
    (rfl : canonicalJson .none = .ok "null") hrun.intact.bounded (by rw [seededWorld, hseq]; decide)
  have hrun' := hrun.call (.append sampleClient ⟨1, 1, none, false⟩ "note\x00genesis" .none
    emptyParamHash) (seededWorld_ready framedDigest sampleClient_valid 0).1
  let w := (seededWorld framedDigest sampleClient 0).step framedDigest
    (.append sampleClient ⟨1, 1, none, false⟩ "note\x00genesis" .none emptyParamHash)
  have hw : w.table.rows = [g, r] := hrows'.trans (congrArg (· ++ [r]) hrows)
  have hlt : g.id < r.id := by
    have hsequence : (seededWorld framedDigest sampleClient 0).ledger.sequence = 1 := hseq
    omega
  -- the same bytes are hashed for the shifted columns
  have hshift : r.shift.Sealed framedDigest := by
    obtain ⟨b, hb, hdigest⟩ := computeEntryHash_ok_iff.mp hrseal
    exact computeEntryHash_ok_iff.mpr ⟨b, (body_shift hascii hr).trans hb, hdigest⟩
  let t : LedgerTable :=
    { rows := [g, r.shift]
      primaryKey := List.nodup_cons.mpr ⟨by simp [Row.shift, hlt.ne], List.nodup_singleton _⟩
      admitted := List.forall_mem_cons.mpr ⟨w.table.admitted g (by simp [hw]),
        List.forall_mem_singleton.mpr (w.table.admitted r (by simp [hw]))⟩ }
  have ht : t.byId = [g, r.shift] :=
    LedgerTable.byId_eq_rows (List.pairwise_pair.mpr hlt)
  have hchain : RowChain framedDigest none t.byId := by
    have hprev : r.prevHash = some g.thisHash := congrArg EntryFields.prevHash hr
    rw [ht]
    exact ⟨congrArg EntryFields.prevHash hg, hgseal, hprev, hshift, trivial⟩
  have hbyId : w.table.byId = [g, r] := hrun'.byId_eq.trans hw
  refine ⟨w, t, hrun', fun b => List.cons_ne_nil 0 b, fun _ _ _ _ h => (List.cons.inj h).2,
    hrun'.verifyChain_eq_nil, verifyChain_eq_nil_iff.mpr hchain, ?_, ?_⟩
  · rw [hbyId, ht]
    rfl
  · rw [hbyId, ht]
    intro heq
    have hevent : r.eventType = "genesis" :=
      congrArg (fun c => c.1.eventType) (List.cons.inj (List.cons.inj heq).2).1
    rw [show r.eventType = "note\x00genesis" from congrArg EntryFields.eventType hr] at hevent
    exact absurd hevent (by decide)

end Athena
