import Athena.Ledger.ChainInvariant

/-!
# Calls that succeed

The converse of `Effect`: what a call needs in order to return, and the ledger
it then leaves. Runs are assembled from these steps.
-/

namespace Athena

variable {sha256 : Bytes → Bytes}

theorem Ledger.insertRow_ok (l : Ledger) (env : CallEnv) {row : Int → Row}
    (henv : env.fails ≠ some .insert) (hadm : (row (l.sequence + 1)).Admitted)
    (hfresh : (row (l.sequence + 1)).id ∉ l.table.rows.map Row.id) :
    ∃ t : LedgerTable, t.rows = l.table.rows ++ [row (l.sequence + 1)] ∧
      l.insertRow env row = (.ok (), ⟨t, l.sequence + 1⟩) := by
  obtain ⟨t, ht, hrows⟩ := LedgerTable.insert?_isSome hadm hfresh
  refine ⟨t, hrows, ?_⟩
  unfold Ledger.insertRow
  rw [if_neg henv, ht]

/-- An INSERT that fails after `nextval` leaves a gap in the ids. -/
theorem Ledger.insertRow_drawn {l : Ledger} {env : CallEnv} {row : Int → Row}
    (henv : env.fails = some .insert) (hdrawn : env.drawn = true) :
    l.insertRow env row = (.error .duckdbError, ⟨l.table, l.sequence + 1⟩) := by
  unfold Ledger.insertRow
  rw [if_pos henv]
  simp [hdrawn]

namespace LedgerClient

theorem write_eq {c : LedgerClient} {env : CallEnv} {prevHash : Option String} {eventType : String}
    {payload : PyValue} {paramHash : String} {l : Ledger} {payloadJson thisHash : String}
    (hpayload : canonicalJson payload = .ok payloadJson)
    (hthis : computeEntryHash sha256 ⟨prevHash, payloadJson, c.policyVersionSha, eventType,
      c.userId⟩ = .ok thisHash) :
    c.write sha256 env prevHash eventType payload paramHash l =
      l.insertRow env (c.rowOf env ⟨prevHash, payloadJson, c.policyVersionSha, eventType, c.userId⟩
        thisHash paramHash) := by
  unfold write
  rw [hpayload]
  dsimp only
  rw [hthis]

@[simp] theorem rowOf_hashed (c : LedgerClient) (env : CallEnv) (f : EntryFields)
    (thisHash paramHash : String) (id : Int) :
    (c.rowOf env f thisHash paramHash id).hashed = f := rfl

@[simp] theorem rowOf_id (c : LedgerClient) (env : CallEnv) (f : EntryFields)
    (thisHash paramHash : String) (id : Int) : (c.rowOf env f thisHash paramHash id).id = id := rfl

theorem rowOf_sealed {c : LedgerClient} {env : CallEnv} {f : EntryFields}
    {thisHash paramHash : String} {id : Int} (h : computeEntryHash sha256 f = .ok thisHash) :
    (c.rowOf env f thisHash paramHash id).Sealed sha256 := h

theorem genesisPayload_isOk (sha : String) :
    ∃ text, canonicalJson (genesisPayload sha) = .ok text :=
  ⟨_, rfl⟩

end LedgerClient

/-- What a client needs for its rows to be hashable and for their `user_id` to fit. -/
def LedgerClient.Valid (c : LedgerClient) : Prop :=
  IsAscii c.policyVersionSha ∧ -2 ^ 31 ≤ c.userId ∧ c.userId < 2 ^ 31

instance (c : LedgerClient) : Decidable c.Valid := inferInstanceAs (Decidable (_ ∧ _))

namespace World

@[simp] theorem ledger_mk_some (l : Ledger) (clients : List LedgerClient) :
    (World.mk (some l) clients).ledger = l := rfl

@[simp] theorem table_mk_some (l : Ledger) (clients : List LedgerClient) :
    (World.mk (some l) clients).table = l.table := rfl

theorem step_construct_of_ok {w : World} {c : LedgerClient} {env : CallEnv} {l : Ledger}
    (henv : env.fails = none) (h : c.ensureGenesis sha256 env w.ledger = (.ok (), l)) :
    w.step sha256 (.construct c env) = ⟨some l, c :: w.clients⟩ := by
  have hinit : c.init sha256 env w.db = (.ok (), some l) := by
    unfold LedgerClient.init
    rw [if_neg (by simp [henv])]
    change
      ((c.ensureGenesis sha256 env w.ledger).1, some (c.ensureGenesis sha256 env w.ledger).2) = _
    rw [h]
  simp [step, hinit]

theorem step_append_of_eq {w : World} {c : LedgerClient} {env : CallEnv} {eventType : String}
    {payload : PyValue} {paramHash : String} {l : Ledger} {result : Except PyErr Int}
    (h : c.append sha256 env eventType payload paramHash w.ledger = (result, l)) :
    w.step sha256 (.append c env eventType payload paramHash) = ⟨some l, w.clients⟩ := by
  simp only [step, h]

theorem step_construct_seeded (sha256 : Bytes → Bytes) {w : World} (c : LedgerClient)
    (env : CallEnv) (henv : env.fails = none) (hseed : ∃ r ∈ w.table.rows, r.id = 1) :
    (w.step sha256 (.construct c env)).ledger = w.ledger ∧
      (w.step sha256 (.construct c env)).clients = c :: w.clients := by
  have hany : (w.ledger.table.rows.any fun r => r.id = 1) = true := by
    obtain ⟨r, hr, hid⟩ := hseed
    exact List.any_eq_true.mpr ⟨r, hr, by simp [hid]⟩
  have hensure : c.ensureGenesis sha256 env w.ledger = (.ok (), w.ledger) := by
    unfold LedgerClient.ensureGenesis
    rw [if_neg (by simp [henv]), if_pos hany]
  rw [step_construct_of_ok henv hensure]
  exact ⟨rfl, rfl⟩

theorem step_construct_fresh (sha256 : Bytes → Bytes) (w : World) (c : LedgerClient)
    (env : CallEnv) {payloadJson : String} (henv : env.fails = none) (hvalid : c.Valid)
    (hrows : w.table.rows = []) (hseq : w.ledger.sequence = 0)
    (hpayload : canonicalJson (genesisPayload c.policyVersionSha) = .ok payloadJson) :
    ∃ r : Row, r.id = 1 ∧ r.createdAtUtc = env.createdAtUtc ∧
      r.hashed = ⟨none, payloadJson, c.policyVersionSha, "genesis", c.userId⟩ ∧ r.Sealed sha256 ∧
      (w.step sha256 (.construct c env)).table.rows = [r] ∧
      (w.step sha256 (.construct c env)).ledger.sequence = 1 ∧
      (w.step sha256 (.construct c env)).clients = c :: w.clients := by
  have hnil : w.ledger.table.rows = [] := hrows
  obtain ⟨thisHash, hthis⟩ := (@computeEntryHash_isOk_iff sha256
    ⟨none, payloadJson, c.policyVersionSha, "genesis", c.userId⟩).mpr
      ⟨isAscii_empty, hvalid.1⟩
  have hadm : (c.rowOf env ⟨none, payloadJson, c.policyVersionSha, "genesis", c.userId⟩ thisHash
      emptyParamHash (w.ledger.sequence + 1)).Admitted := by
    refine ⟨⟨?_, ?_⟩, hvalid.2, Or.inl ⟨?_, rfl⟩⟩ <;> simp [LedgerClient.rowOf, hseq]
  obtain ⟨t, ht, hinsert⟩ := Ledger.insertRow_ok w.ledger env (by simp [henv]) hadm
    (by simp [hnil])
  have hensure : c.ensureGenesis sha256 env w.ledger = (.ok (), ⟨t, w.ledger.sequence + 1⟩) := by
    unfold LedgerClient.ensureGenesis
    rw [if_neg (by simp [henv]), if_neg (by simp [hnil]), LedgerClient.write_eq hpayload hthis,
      hinsert]
  rw [step_construct_of_ok henv hensure]
  refine ⟨c.rowOf env ⟨none, payloadJson, c.policyVersionSha, "genesis", c.userId⟩ thisHash
    emptyParamHash (w.ledger.sequence + 1), ?_, rfl, LedgerClient.rowOf_hashed _ _ _ _ _ _,
    LedgerClient.rowOf_sealed hthis, ?_, ?_, ?_⟩
  · rw [LedgerClient.rowOf_id, hseq, zero_add]
  · rw [table_mk_some, ht, hnil, List.nil_append]
  · rw [ledger_mk_some, hseq, zero_add]
  · rfl

/-- An append whose INSERT fails after drawing moves the sequence on and changes no row. -/
theorem step_append_drawn (sha256 : Bytes → Bytes) {w : World} (c : LedgerClient) (env : CallEnv)
    (eventType paramHash : String) {tip : String} (henv : env.fails = some .insert)
    (hdrawn : env.drawn = true) (hsha : IsAscii c.policyVersionSha)
    (htip : LedgerClient.selectTip w.ledger = some tip) (hascii : IsAscii tip) :
    (w.step sha256 (.append c env eventType .none paramHash)).ledger =
      ⟨w.table, w.ledger.sequence + 1⟩ := by
  obtain ⟨thisHash, hthis⟩ := (@computeEntryHash_isOk_iff sha256
    ⟨some tip, "null", c.policyVersionSha, eventType, c.userId⟩).mpr ⟨hascii, hsha⟩
  have happend : c.append sha256 env eventType .none paramHash w.ledger =
      (.error .duckdbError, ⟨w.table, w.ledger.sequence + 1⟩) := by
    unfold LedgerClient.append
    rw [if_neg (by simp [henv]), htip]
    dsimp only
    rw [LedgerClient.write_eq rfl hthis, Ledger.insertRow_drawn henv hdrawn]
    rfl
  rw [step_append_of_eq happend, ledger_mk_some]

/-- An append whose statements run adds a sealed row on the tip and returns its id. -/
theorem append_returns (sha256 : Bytes → Bytes) {w : World} (c : LedgerClient) (env : CallEnv)
    (eventType paramHash : String) {tip : String} {payload : PyValue} {payloadJson : String}
    (henv : env.fails = none)
    (hvalid : c.Valid) (htip : LedgerClient.selectTip w.ledger = some tip) (hascii : IsAscii tip)
    (hpayload : canonicalJson payload = .ok payloadJson)
    (hbound : ∀ r ∈ w.table.rows, r.id ≤ w.ledger.sequence)
    (hseq : 1 ≤ w.ledger.sequence ∧ w.ledger.sequence + 1 < 2 ^ 63) :
    ∃ (r : Row) (t : LedgerTable),
      c.append sha256 env eventType payload paramHash w.ledger = (.ok r.id, ⟨t, r.id⟩) ∧
      t.rows = w.table.rows ++ [r] ∧ r.id = w.ledger.sequence + 1 ∧
      r.hashed = ⟨some tip, payloadJson, c.policyVersionSha, eventType, c.userId⟩ ∧
      r.Sealed sha256 := by
  obtain ⟨thisHash, hthis⟩ := (@computeEntryHash_isOk_iff sha256
    ⟨some tip, payloadJson, c.policyVersionSha, eventType, c.userId⟩).mpr ⟨hascii, hvalid.1⟩
  have hadm : (c.rowOf env ⟨some tip, payloadJson, c.policyVersionSha, eventType, c.userId⟩ thisHash
      paramHash (w.ledger.sequence + 1)).Admitted := by
    refine ⟨⟨?_, ?_⟩, hvalid.2, Or.inr ⟨?_, by simp [LedgerClient.rowOf]⟩⟩ <;>
      simp only [LedgerClient.rowOf] <;> omega
  have hfresh : w.ledger.sequence + 1 ∉ w.ledger.table.rows.map Row.id := by
    intro hmem
    obtain ⟨x, hx, hid⟩ := List.mem_map.mp hmem
    have := hbound x hx
    omega
  obtain ⟨t, ht, hinsert⟩ := Ledger.insertRow_ok w.ledger env (by simp [henv]) hadm
    hfresh
  refine ⟨_, t, ?_, ht, LedgerClient.rowOf_id _ _ _ _ _ _, LedgerClient.rowOf_hashed _ _ _ _ _ _,
    LedgerClient.rowOf_sealed hthis⟩
  unfold LedgerClient.append
  rw [if_neg (by simp [henv]), htip]
  dsimp only
  rw [LedgerClient.write_eq hpayload hthis, hinsert]
  simp [henv]

theorem step_append_ok (sha256 : Bytes → Bytes) {w : World} (c : LedgerClient) (env : CallEnv)
    (eventType paramHash : String) {tip : String} {payload : PyValue} {payloadJson : String}
    (henv : env.fails = none)
    (hvalid : c.Valid) (htip : LedgerClient.selectTip w.ledger = some tip) (hascii : IsAscii tip)
    (hpayload : canonicalJson payload = .ok payloadJson)
    (hbound : ∀ r ∈ w.table.rows, r.id ≤ w.ledger.sequence)
    (hseq : 1 ≤ w.ledger.sequence ∧ w.ledger.sequence + 1 < 2 ^ 63) :
    ∃ r : Row, r.id = w.ledger.sequence + 1 ∧
      r.hashed = ⟨some tip, payloadJson, c.policyVersionSha, eventType, c.userId⟩ ∧
      r.Sealed sha256 ∧
      (w.step sha256 (.append c env eventType payload paramHash)).table.rows =
        w.table.rows ++ [r] ∧
      (w.step sha256 (.append c env eventType payload paramHash)).ledger.sequence = r.id := by
  obtain ⟨r, t, happend, hrows, hid, hhashed, hsealed⟩ := append_returns sha256 c env eventType
    paramHash henv hvalid htip hascii hpayload hbound hseq
  refine ⟨r, hid, hhashed, hsealed, ?_, ?_⟩
  · rw [step_append_of_eq happend, table_mk_some]
    exact hrows
  · rw [step_append_of_eq happend, ledger_mk_some]

end World

/-- In a run, a client whose rows can be hashed and stored appends one with every call. -/
theorem Run.append_returns {calls : List Call} {w : World} (hrun : Run sha256 calls w)
    {c : LedgerClient} (hc : c ∈ w.clients) (hvalid : c.Valid)
    (hroom : w.ledger.sequence + 1 < 2 ^ 63) (env : CallEnv) (henv : env.fails = none)
    (eventType paramHash : String) {payload : PyValue} {payloadJson : String}
    (hpayload : canonicalJson payload = .ok payloadJson) :
    ∃ (r : Row) (t : LedgerTable),
      c.append sha256 env eventType payload paramHash w.ledger = (.ok r.id, ⟨t, r.id⟩) ∧
      t.rows = w.table.rows ++ [r] := by
  have hintact := hrun.intact
  have hne : w.table.rows ≠ [] := hintact.seeded (List.ne_nil_of_mem hc)
  obtain ⟨rows, last, hrows⟩ := (List.eq_nil_or_concat' w.table.rows).resolve_left hne
  have hlast : last ∈ w.table.rows := by simp [hrows]
  have htip : LedgerClient.selectTip w.ledger = some last.thisHash := by
    rw [selectTip_eq_tip hintact.sorted]
    change HashChain.tip Row.thisHash none w.table.rows = _
    rw [hrows, HashChain.tip_append_singleton]
  have hascii : IsAscii last.thisHash :=
    isAscii_of_computeEntryHash (hintact.chained.valid_of_mem hlast)
  have hseq : 1 ≤ w.ledger.sequence :=
    (w.table.admitted last hlast).one_le_id.trans (hintact.bounded last hlast)
  obtain ⟨r, t, happend, hnew, -⟩ := World.append_returns sha256 c env eventType paramHash henv
    hvalid htip hascii hpayload hintact.bounded ⟨hseq, hroom⟩
  exact ⟨r, t, happend, hnew⟩

end Athena
