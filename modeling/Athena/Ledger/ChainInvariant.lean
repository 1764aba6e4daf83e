import Athena.Ledger.Client
import Athena.Library.HashChain

/-!
# The chain invariant of every run

`Effect` says once what a call can do to the ledger: nothing, seed the genesis
row, or add one row on the tip. The invariant `Intact` follows from it and
holds after every call of every run, whatever fails in between.
-/

namespace Athena

variable {sha256 : Bytes → Bytes}

def Row.Sealed (sha256 : Bytes → Bytes) (r : Row) : Prop :=
  computeEntryHash sha256 r.hashed = .ok r.thisHash

/-- The rows continue a hash chain from `last`. -/
abbrev RowChain (sha256 : Bytes → Bytes) : Option String → List Row → Prop :=
  HashChain.Chained Row.prevHash Row.thisHash (Row.Sealed sha256)

/-- The columns of a row that a call hands to its INSERT. -/
structure Row.WrittenBy (call : Call) (r : Row) : Prop where
  userId : r.userId = call.client.userId
  moduleVersion : r.moduleVersion = call.client.moduleVersion
  policySha : r.policyVersionGitSha = call.client.policyVersionSha
  eventType : r.eventType = call.eventType
  payload : canonicalJson call.payload = .ok r.payloadJson
  paramHash : r.paramHash = call.paramHash
  genesis : r.prevHash = none ↔ ∃ c env, call = .construct c env

theorem Ledger.insertRow_cases (l : Ledger) (env : CallEnv) (row : Int → Row) :
    ((l.insertRow env row).1 = .ok () ∧ (row (l.sequence + 1)).Admitted ∧
      (l.insertRow env row).2.table.rows = l.table.rows ++ [row (l.sequence + 1)] ∧
      (l.insertRow env row).2.sequence = l.sequence + 1) ∨
    ((∃ e, (l.insertRow env row).1 = .error e) ∧ (l.insertRow env row).2.table = l.table ∧
      l.sequence ≤ (l.insertRow env row).2.sequence) := by
  unfold Ledger.insertRow
  split
  · rename_i table htable
    split_ifs at htable
    obtain ⟨hrows, hadm⟩ := LedgerTable.insert?_eq_some htable
    exact Or.inl ⟨rfl, hadm, hrows, rfl⟩
  · refine Or.inr ⟨⟨_, rfl⟩, ?_⟩
    split_ifs <;> simp

namespace LedgerClient

/-- The write step either adds one sealed row with the next sequence value, or
raises and leaves the rows as they are. -/
theorem write_cases (sha256 : Bytes → Bytes) (c : LedgerClient) (env : CallEnv)
    (prevHash : Option String) (eventType : String) (payload : PyValue) (paramHash : String)
    (l : Ledger) :
    ((c.write sha256 env prevHash eventType payload paramHash l).1 = .ok () ∧
      ∃ r : Row, r.id = l.sequence + 1 ∧ r.Admitted ∧ r.Sealed sha256 ∧ r.prevHash = prevHash ∧
        r.userId = c.userId ∧ r.moduleVersion = c.moduleVersion ∧
        r.policyVersionGitSha = c.policyVersionSha ∧ r.eventType = eventType ∧
        canonicalJson payload = .ok r.payloadJson ∧ r.paramHash = paramHash ∧
        (c.write sha256 env prevHash eventType payload paramHash l).2.table.rows =
          l.table.rows ++ [r] ∧
        (c.write sha256 env prevHash eventType payload paramHash l).2.sequence = r.id) ∨
    ((∃ e, (c.write sha256 env prevHash eventType payload paramHash l).1 = .error e) ∧
      (c.write sha256 env prevHash eventType payload paramHash l).2.table = l.table ∧
      l.sequence ≤ (c.write sha256 env prevHash eventType payload paramHash l).2.sequence) := by
  unfold write
  cases hpayload : canonicalJson payload with
  | error e => exact Or.inr ⟨⟨e, rfl⟩, rfl, le_rfl⟩
  | ok payloadJson =>
    dsimp only
    split
    · rename_i e _
      exact Or.inr ⟨⟨e, rfl⟩, rfl, le_rfl⟩
    · rename_i thisHash hthis
      rcases Ledger.insertRow_cases l env
        (c.rowOf env ⟨prevHash, payloadJson, c.policyVersionSha, eventType, c.userId⟩ thisHash
          paramHash) with ⟨hok, hadm, hrows, hseq⟩ | h
      · exact Or.inl ⟨hok, _, rfl, hadm, hthis, rfl, rfl, rfl, rfl, rfl, rfl, rfl, hrows, hseq⟩
      · exact Or.inr h

end LedgerClient

/-- Everything a call can do to the ledger. -/
inductive Effect (sha256 : Bytes → Bytes) (call : Call) (l l' : Ledger) : Prop
  | idle (rows : l'.table.rows = l.table.rows) (sequence : l.sequence ≤ l'.sequence)
  | genesis (r : Row) (fresh : ∀ x ∈ l.table.rows, x.id ≠ 1) (prev : r.prevHash = none)
      (id_eq : r.id = l.sequence + 1) (admitted : r.Admitted) (sealed : r.Sealed sha256)
      (written : r.WrittenBy call) (rows : l'.table.rows = l.table.rows ++ [r])
      (sequence : l'.sequence = r.id)
  | entry (r : Row) (tip : String) (tip_eq : LedgerClient.selectTip l = some tip)
      (prev : r.prevHash = some tip) (id_eq : r.id = l.sequence + 1) (admitted : r.Admitted)
      (sealed : r.Sealed sha256) (written : r.WrittenBy call)
      (rows : l'.table.rows = l.table.rows ++ [r]) (sequence : l'.sequence = r.id)

namespace LedgerClient

/-- `_ensure_genesis` leaves an id 1 row behind when it returns, and no new row when it raises. -/
theorem ensureGenesis_effect (sha256 : Bytes → Bytes) (c : LedgerClient) (env : CallEnv)
    (l : Ledger) :
    Effect sha256 (.construct c env) l (c.ensureGenesis sha256 env l).2 ∧
      ((c.ensureGenesis sha256 env l).1 = .ok () →
        (c.ensureGenesis sha256 env l).2.table.rows ≠ []) := by
  unfold ensureGenesis
  split_ifs with hselect hany
  · exact ⟨.idle rfl le_rfl, nofun⟩
  · refine ⟨.idle rfl le_rfl, fun _ hnil => ?_⟩
    have hrows : l.table.rows = [] := hnil
    simp [hrows] at hany
  · have hfresh : ∀ x ∈ l.table.rows, x.id ≠ 1 := by simpa using hany
    rcases write_cases sha256 c env none "genesis"
        (genesisPayload c.policyVersionSha) emptyParamHash l with
      ⟨hok, r, hid, hadm, hsealed, hprev, huser, hmod, hsha, hevent, hpayload, hparam, hrows,
        hseq⟩ |
      ⟨⟨e, he⟩, htable, hseq⟩
    · refine ⟨.genesis r hfresh hprev hid hadm hsealed ?_ hrows hseq, fun _ => by simp [hrows]⟩
      exact ⟨huser, hmod, hsha, hevent, hpayload, hparam, by simp [hprev]⟩
    · exact ⟨.idle (by rw [htable]) hseq, fun h => by simp [he] at h⟩

theorem append_effect (sha256 : Bytes → Bytes) (c : LedgerClient) (env : CallEnv)
    (eventType : String) (payload : PyValue) (paramHash : String) (l : Ledger) :
    Effect sha256 (.append c env eventType payload paramHash) l
      (c.append sha256 env eventType payload paramHash l).2 := by
  unfold append
  by_cases hselect : env.fails = some .select
  · rw [if_pos hselect]
    exact .idle rfl le_rfl
  rw [if_neg hselect]
  cases htip : selectTip l with
  | none => exact .idle rfl le_rfl
  | some tip =>
    dsimp only
    have hcases := write_cases sha256 c env (some tip) eventType payload paramHash l
    generalize c.write sha256 env (some tip) eventType payload paramHash l = out at hcases
    obtain ⟨result, l'⟩ := out
    rcases hcases with
      ⟨hok, r, hid, hadm, hsealed, hprev, huser, hmod, hsha, hevent, hpayload, hparam, hrows,
        hseq⟩ |
      ⟨⟨e, he⟩, htable, hseq⟩
    · have heffect : Effect sha256 (.append c env eventType payload paramHash) l l' :=
        .entry r tip htip hprev hid hadm hsealed
          ⟨huser, hmod, hsha, hevent, hpayload, hparam, by simp [hprev]⟩ hrows hseq
      simp only at hok
      subst hok
      dsimp only
      split_ifs <;> exact heffect
    · simp only at he
      subst he
      exact .idle (by rw [htable]) hseq

end LedgerClient

namespace World

theorem step_effect (sha256 : Bytes → Bytes) (w : World) (call : Call) :
    Effect sha256 call w.ledger (w.step sha256 call).ledger := by
  cases call with
  | append c env eventType payload paramHash =>
    exact LedgerClient.append_effect sha256 c env eventType payload paramHash w.ledger
  | construct c env =>
    have heffect := (LedgerClient.ensureGenesis_effect sha256 c env w.ledger).1
    simp only [step, LedgerClient.init]
    split_ifs with hddl
    · exact .idle rfl le_rfl
    · exact heffect

/-- Only a construction that returned adds a client, and it leaves the ledger non-empty. -/
theorem step_clients (sha256 : Bytes → Bytes) (w : World) (call : Call) :
    (w.step sha256 call).clients = w.clients ∨ (w.step sha256 call).table.rows ≠ [] := by
  cases call with
  | append c env eventType payload paramHash => exact Or.inl rfl
  | construct c env =>
    have hrows := (LedgerClient.ensureGenesis_effect sha256 c env w.ledger).2
    simp only [step, LedgerClient.init]
    split_ifs with hddl
    · exact Or.inl rfl
    · cases hout : (c.ensureGenesis sha256 env w.ledger).1 with
      | ok u => exact Or.inr (hrows hout)
      | error e =>
        have hout : (c.ensureGenesis sha256 env (createPreTradeLedger w.db)).1 = .error e := hout
        exact Or.inl (by rw [hout])

end World

/-- The invariant of the ledger after the given calls. -/
structure Intact (sha256 : Bytes → Bytes) (calls : List Call) (w : World) : Prop where
  sorted : w.table.rows.Pairwise fun a b => a.id < b.id
  bounded : ∀ r ∈ w.table.rows, r.id ≤ w.ledger.sequence
  chained : RowChain sha256 none w.table.rows
  written : ∀ r ∈ w.table.rows, ∃ call ∈ calls, r.WrittenBy call
  seeded : w.clients ≠ [] → w.table.rows ≠ []

theorem sorted_snoc {rows : List Row} {r : Row} {bound : Int}
    (hs : rows.Pairwise fun a b => a.id < b.id) (hb : ∀ x ∈ rows, x.id ≤ bound)
    (hr : bound < r.id) : (rows ++ [r]).Pairwise fun a b => a.id < b.id := by
  rw [List.pairwise_append]
  refine ⟨hs, List.pairwise_singleton _ _, ?_⟩
  intro a ha b hbm
  rw [List.mem_singleton.mp hbm]
  exact lt_of_le_of_lt (hb a ha) hr

theorem selectTip_eq_tip {l : Ledger} (hs : l.table.rows.Pairwise fun a b => a.id < b.id) :
    LedgerClient.selectTip l = HashChain.tip Row.thisHash none l.table.rows := by
  rw [LedgerClient.selectTip, LedgerTable.byId_eq_rows hs, HashChain.tip_eq_getLast?]

/-- A chained row list without an id 1 row is empty: its first row has no predecessor. -/
theorem eq_nil_of_no_genesis {t : LedgerTable} (hc : RowChain sha256 none t.rows)
    (h : ∀ r ∈ t.rows, r.id ≠ 1) : t.rows = [] := by
  cases hrows : t.rows with
  | nil => rfl
  | cons r rest =>
    rw [hrows] at hc
    have hmem : r ∈ t.rows := by simp [hrows]
    exact absurd ((t.admitted r hmem).prevHash_eq_none_iff.mp hc.1) (h r hmem)

theorem Intact.empty : Intact sha256 [] World.empty :=
  ⟨by simp [World.table, World.ledger, World.empty, Ledger.empty],
    by simp [World.table, World.ledger, World.empty, Ledger.empty], trivial,
    by simp [World.table, World.ledger, World.empty, Ledger.empty], by simp [World.empty]⟩

theorem Intact.step {calls : List Call} {w : World} (h : Intact sha256 calls w) (call : Call) :
    Intact sha256 (calls ++ [call]) (w.step sha256 call) := by
  have hwritten : ∀ r ∈ w.table.rows, ∃ c ∈ calls ++ [call], r.WrittenBy c := by
    intro r hr
    obtain ⟨c, hc, hrc⟩ := h.written r hr
    exact ⟨c, List.mem_append_left _ hc, hrc⟩
  have hsnoc : ∀ r : Row, r.WrittenBy call → (w.step sha256 call).table.rows = w.table.rows ++ [r] →
      ∀ x ∈ (w.step sha256 call).table.rows, ∃ c ∈ calls ++ [call], x.WrittenBy c := by
    intro r hr hrows x hx
    rw [hrows] at hx
    rcases List.mem_append.mp hx with hx | hx
    · exact hwritten x hx
    · exact ⟨call, by simp, List.mem_singleton.mp hx ▸ hr⟩
  have hbound : ∀ r : Row, r.id = w.ledger.sequence + 1 →
      (w.step sha256 call).table.rows = w.table.rows ++ [r] →
      (w.step sha256 call).ledger.sequence = r.id →
      ∀ x ∈ (w.step sha256 call).table.rows, x.id ≤ (w.step sha256 call).ledger.sequence := by
    intro r hid hrows hseq x hx
    rw [hrows] at hx
    rw [hseq]
    rcases List.mem_append.mp hx with hx | hx
    · have := h.bounded x hx
      omega
    · rw [List.mem_singleton.mp hx]
  cases w.step_effect sha256 call with
  | idle rows sequence =>
    have htable : (w.step sha256 call).table.rows = w.table.rows := rows
    refine ⟨htable ▸ h.sorted, ?_, htable ▸ h.chained, htable ▸ hwritten, ?_⟩
    · intro r hr
      exact (h.bounded r (htable ▸ hr)).trans sequence
    · intro hclients
      rcases w.step_clients sha256 call with hsame | hne
      · exact htable ▸ h.seeded (hsame ▸ hclients)
      · exact hne
  | genesis r fresh prev id_eq admitted hsealed written rows sequence =>
    have hnil : w.table.rows = [] := eq_nil_of_no_genesis h.chained fresh
    have htable : (w.step sha256 call).table.rows = w.table.rows ++ [r] := rows
    refine ⟨?_, hbound r id_eq htable sequence, ?_, hsnoc r written htable,
      fun _ => by simp [htable]⟩
    · simp [htable, hnil]
    · rw [htable, hnil]
      exact ⟨prev, hsealed, trivial⟩
  | entry r tip tip_eq prev id_eq admitted hsealed written rows sequence =>
    have htable : (w.step sha256 call).table.rows = w.table.rows ++ [r] := rows
    refine ⟨?_, hbound r id_eq htable sequence, ?_, hsnoc r written htable,
      fun _ => by simp [htable]⟩
    · rw [htable]
      exact sorted_snoc h.sorted h.bounded (by omega)
    · rw [htable]
      refine HashChain.chained_snoc.mpr ⟨h.chained, ?_, hsealed⟩
      have htip : HashChain.tip Row.thisHash none w.table.rows = some tip :=
        (selectTip_eq_tip h.sorted).symm.trans tip_eq
      rw [prev, htip]

theorem Run.intact {calls : List Call} {w : World} (h : Run sha256 calls w) :
    Intact sha256 calls w := by
  induction h with
  | start => exact Intact.empty
  | call call _ _ ih => exact ih.step call

end Athena
