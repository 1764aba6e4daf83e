import Athena.Ledger.Integrity

/-!
# What the verifier accepts

A table that verifies is a hash chain, but it need not be one the client wrote:
the verifier looks neither at the event type nor at the payload. The run that
leaves a given chain behind is built row by row, with failing INSERTs for the
gaps between the ids. `PyValue.WellFormed` is what a payload has as a Python
value: distinct keys, numbers as keys in the order of `sorted`, and integers
within the limit of `int.__repr__`.
-/

namespace Athena

variable {sha256 : Bytes → Bytes}

namespace PyKey

def IsNumber : PyKey → Prop
  | .bool _ | .int _ | .float _ => True
  | .none | .str _ | .other => False

def number : PyKey → Option (WithBot (WithTop ℚ))
  | .bool b => some (((if b then 1 else 0 : ℚ) : WithTop ℚ) : WithBot (WithTop ℚ))
  | .int n => some (((n : ℚ) : WithTop ℚ) : WithBot (WithTop ℚ))
  | .float x => x.value
  | .none | .str _ | .other => Option.none

def NotAbove (a b : PyKey) : Prop := ∀ x ∈ a.number, ∀ y ∈ b.number, x ≤ y

def Differs (a b : PyKey) : Prop := ∀ x ∈ a.number, ∀ y ∈ b.number, x ≠ y

end PyKey

def maxStrDigits : ℕ := 4300

/-- An integer that `int.__repr__` prints. -/
def IntPrintable (n : Int) : Prop := n.natAbs < 10 ^ maxStrDigits

/-- The keys of a dict, not all of them strings: comparable if there is only one or all are
numbers, in the order in which `sorted` leaves them, and distinct. -/
structure KeysWellFormed (comparable : Bool) (keys : List PyKey) : Prop where
  other : ∃ k ∈ keys, ∀ s, k ≠ .str s
  comparable_iff : comparable = true ↔ keys.length = 1 ∨ ∀ k ∈ keys, k.IsNumber
  sorted : keys.IsChain PyKey.NotAbove
  distinct : keys.Pairwise PyKey.Differs
  printable : ∀ n, .int n ∈ keys → IntPrintable n

mutual

/-- A payload that is a Python value and whose integers can be printed. -/
def PyValue.WellFormed : PyValue → Prop
  | .none | .bool _ | .float _ | .str _ | .object _ => True
  | .int n => IntPrintable n
  | .list xs => AllWellFormed xs
  | .dict items => (items.map Prod.fst).Nodup ∧ ItemsWellFormed items
  | .keyed comparable items =>
    KeysWellFormed comparable (items.map Prod.fst) ∧ KeyedWellFormed items

def AllWellFormed : List PyValue → Prop
  | [] => True
  | x :: xs => x.WellFormed ∧ AllWellFormed xs

def ItemsWellFormed : List (PyStr × PyValue) → Prop
  | [] => True
  | (_, v) :: items => v.WellFormed ∧ ItemsWellFormed items

def KeyedWellFormed : List (PyKey × PyValue) → Prop
  | [] => True
  | (_, v) :: items => v.WellFormed ∧ KeyedWellFormed items

end

theorem genesisPayload_wellFormed (sha : String) : (genesisPayload sha).WellFormed := by
  refine ⟨?_, trivial, trivial, trivial⟩
  simp only [List.map_cons, List.map_nil]
  decide

def PayloadsWellFormed (calls : List Call) : Prop := ∀ call ∈ calls, call.payload.WellFormed

theorem payloadsWellFormed_append {calls : List Call} {call : Call}
    (h : PayloadsWellFormed calls) (hcall : call.payload.WellFormed) :
    PayloadsWellFormed (calls ++ [call]) :=
  List.forall_mem_append.mpr ⟨h, List.forall_mem_singleton.mpr hcall⟩

/-- The id and the hashed columns of a row. -/
def Row.written (r : Row) : Int × EntryFields × String := (r.id, r.sealedColumns)

theorem Row.written_eq_iff {r s : Row} :
    r.written = s.written ↔ r.id = s.id ∧ r.hashed = s.hashed ∧ r.thisHash = s.thisHash := by
  simp [written, sealedColumns]

/-- The first row is one that seeding writes, and every later payload is canonical JSON. -/
def ClientShaped : List Row → Prop
  | [] => True
  | genesis :: rest => genesis.eventType = "genesis" ∧
      canonicalJson (genesisPayload genesis.policyVersionGitSha) = .ok genesis.payloadJson ∧
      ∀ r ∈ rest, ∃ payload : PyValue, payload.WellFormed ∧
        canonicalJson payload = .ok r.payloadJson

/-- Failing INSERTs move the sequence on by any amount. -/
theorem Run.exists_skip {calls : List Call} {w : World} (hrun : Run sha256 calls w)
    (hcalls : PayloadsWellFormed calls) {c : LedgerClient} (hc : c ∈ w.clients)
    (hsha : IsAscii c.policyVersionSha) {tip : String}
    (htip : LedgerClient.selectTip w.ledger = some tip) (hascii : IsAscii tip) (n : ℕ) :
    ∃ calls' w', Run sha256 calls' w' ∧ PayloadsWellFormed calls' ∧ w'.table = w.table ∧
      w'.clients = w.clients ∧ w'.ledger.sequence = w.ledger.sequence + n := by
  induction n with
  | zero => exact ⟨calls, w, hrun, hcalls, rfl, rfl, by simp⟩
  | succ n ih =>
    obtain ⟨calls', w', hrun', hcalls', htable, hclients, hseq⟩ := ih
    have htip' : LedgerClient.selectTip w'.ledger = some tip := by
      rw [← htip, LedgerClient.selectTip, LedgerClient.selectTip]
      exact congrArg (fun t : LedgerTable => t.byId.getLast?.map Row.thisHash) htable
    let env : CallEnv := ⟨0, 0, some .insert, true⟩
    have hledger :=
      World.step_append_drawn sha256 c env "genesis" emptyParamHash rfl rfl hsha htip' hascii
    have hallows : w'.Allows (.append c env "genesis" .none emptyParamHash) := by
      change c ∈ w'.clients
      exact hclients ▸ hc
    refine ⟨_, _, hrun'.call (.append c env "genesis" .none emptyParamHash) hallows,
      payloadsWellFormed_append hcalls' trivial, ?_, hclients, ?_⟩
    · rw [World.table, hledger]
      exact htable
    · rw [hledger, hseq]
      push_cast
      omega

theorem getLast?_thisHash_eq {rows rows' : List Row}
    (h : rows.map Row.written = rows'.map Row.written) :
    rows.getLast?.map Row.thisHash = rows'.getLast?.map Row.thisHash := by
  have hlast := congrArg (fun l => l.getLast?.map fun c => c.2.2) h
  simp only [List.getLast?_map, Option.map_map] at hlast
  exact hlast

/-- One more row: the client of the row is constructed, the gap before its id is
skipped, and the row is appended. -/
theorem Run.exists_append {calls : List Call} {w : World} (hrun : Run sha256 calls w)
    (hcalls : PayloadsWellFormed calls) {rows : List Row} {r last : Row}
    (hrows : w.table.rows.map Row.written = rows.map Row.written)
    (hlast : rows.getLast? = some last) (hseq : w.ledger.sequence = last.id)
    (hseed : ∃ x ∈ w.table.rows, x.id = 1) (hid : last.id < r.id) (hadm : r.Admitted)
    (hprev : r.prevHash = some last.thisHash) (hseal : r.Sealed sha256)
    (hlastSeal : last.Sealed sha256) {payload : PyValue} (hwell : payload.WellFormed)
    (hpayload : canonicalJson payload = .ok r.payloadJson) :
    ∃ calls' w', Run sha256 calls' w' ∧ PayloadsWellFormed calls' ∧
      w'.table.rows.map Row.written = (rows ++ [r]).map Row.written ∧
      w'.ledger.sequence = r.id := by
  let c : LedgerClient := ⟨r.userId, ledgerClientModuleVersion, r.policyVersionGitSha⟩
  have hencodable : r.hashed.Encodable := computeEntryHash_isOk_iff.mp ⟨_, hseal⟩
  have hvalid : c.Valid := ⟨hencodable.2, hadm.2.1⟩
  have hascii : IsAscii last.thisHash := isAscii_of_computeEntryHash hlastSeal
  obtain ⟨hledger₁, hclients₁⟩ := World.step_construct_seeded sha256 c
    ⟨0, 0, none, false⟩ rfl hseed
  have hrun₁ := hrun.call (.construct c ⟨0, 0, none, false⟩) trivial
  have htip : LedgerClient.selectTip w.ledger = some last.thisHash := by
    rw [selectTip_eq_tip hrun.intact.sorted, HashChain.tip_eq_getLast?]
    exact (getLast?_thisHash_eq hrows).trans (by rw [hlast]; rfl)
  have hcalls₁ := payloadsWellFormed_append hcalls
    (show (Call.construct c ⟨0, 0, none, false⟩).payload.WellFormed from
      genesisPayload_wellFormed _)
  obtain ⟨calls₂, w₂, hrun₂, hcalls₂, htable₂, hclients₂, hseq₂⟩ := hrun₁.exists_skip hcalls₁
    (by rw [hclients₁]; exact List.mem_cons_self) hvalid.1 (hledger₁ ▸ htip) hascii
    (r.id - last.id - 1).toNat
  have hseq₂' : w₂.ledger.sequence = r.id - 1 := by
    rw [hseq₂, hledger₁, hseq]
    omega
  have htable : w₂.table = w.table := htable₂.trans (congrArg Ledger.table hledger₁)
  have htip₂ : LedgerClient.selectTip w₂.ledger = some last.thisHash := by
    rw [← htip]
    exact congrArg (fun t : LedgerTable => t.byId.getLast?.map Row.thisHash) htable
  have hone : 1 < r.id := by
    have := hadm.one_le_id
    have hne : r.id ≠ 1 := fun h => by simp [hadm.prevHash_eq_none_iff.mpr h] at hprev
    omega
  have hbigint : 1 ≤ w₂.ledger.sequence ∧ w₂.ledger.sequence + 1 < 2 ^ 63 := by
    have := hadm.1.2
    omega
  obtain ⟨r', hid', hhashed', hseal', hrows', hseq'⟩ := World.step_append_ok sha256 c
    ⟨0, 0, none, false⟩ r.eventType emptyParamHash rfl hvalid htip₂ hascii hpayload
    hrun₂.intact.bounded hbigint
  have hr' : r'.written = r.written := by
    have hfields : r'.hashed = r.hashed := by
      rw [hhashed', ← hprev]
      rfl
    refine Row.written_eq_iff.mpr ⟨by omega, hfields, ?_⟩
    have hseal'' : computeEntryHash sha256 r'.hashed = .ok r.thisHash := hfields ▸ hseal
    exact Except.ok.inj (Eq.trans (Eq.symm hseal') hseal'')
  refine ⟨_, _, hrun₂.call (.append c ⟨0, 0, none, false⟩ r.eventType payload emptyParamHash) ?_,
    payloadsWellFormed_append hcalls₂ hwell, ?_, ?_⟩
  · change c ∈ w₂.clients
    rw [hclients₂, hclients₁]
    exact List.mem_cons_self
  · rw [hrows', htable, List.map_append, hrows, List.map_append, List.map_singleton,
      List.map_singleton, hr']
  · rw [hseq', hid']
    omega

theorem exists_run_of_chain {rows : List Row} (hne : rows ≠ [])
    (hadm : ∀ r ∈ rows, r.Admitted) (hsorted : rows.Pairwise fun a b => a.id < b.id)
    (hchain : RowChain sha256 none rows) (hshape : ClientShaped rows) :
    ∃ calls w, Run sha256 calls w ∧ PayloadsWellFormed calls ∧
      w.table.rows.map Row.written = rows.map Row.written ∧
      ∀ last, rows.getLast? = some last → w.ledger.sequence = last.id := by
  induction rows using List.reverseRecOn with
  | nil => exact absurd rfl hne
  | append_singleton rows r ih =>
    obtain ⟨hchain', hprev, hseal⟩ := HashChain.chained_snoc.mp hchain
    have hr : r.Admitted := hadm r (by simp)
    rw [HashChain.tip_eq_getLast?] at hprev
    rcases List.eq_nil_or_concat' rows with rfl | ⟨init, last, rfl⟩
    · obtain ⟨hevent, hpayload, -⟩ := hshape
      let c : LedgerClient := ⟨r.userId, ledgerClientModuleVersion, r.policyVersionGitSha⟩
      have hencodable : r.hashed.Encodable := computeEntryHash_isOk_iff.mp ⟨_, hseal⟩
      obtain ⟨r', hid', -, hhashed', hseal', hrows', hseq', -⟩ := World.step_construct_fresh
        sha256 World.empty c ⟨0, 0, none, false⟩ rfl
        ⟨hencodable.2, hr.2.1⟩ rfl rfl hpayload
      have hid : r.id = 1 := hr.prevHash_eq_none_iff.mp hprev
      have hfields : r'.hashed = r.hashed := by
        rw [hhashed']
        have hnone : r.prevHash = none := hprev
        simp [Row.hashed, hnone, hevent, c]
      have hthis : r'.thisHash = r.thisHash := by
        have hseal'' : computeEntryHash sha256 r'.hashed = .ok r.thisHash := hfields ▸ hseal
        exact Except.ok.inj (Eq.trans (Eq.symm hseal') hseal'')
      refine ⟨_, _, Run.start.call (.construct c ⟨0, 0, none, false⟩) trivial,
        List.forall_mem_singleton.mpr (genesisPayload_wellFormed _), ?_, ?_⟩
      · rw [hrows', List.nil_append, List.map_singleton, List.map_singleton,
          Row.written_eq_iff.mpr ⟨hid'.trans hid.symm, hfields, hthis⟩]
      · intro l hl
        have hrl : r = l := by simpa using hl
        rw [hseq', ← hrl, hid]
    · have hmem : ∀ x ∈ init ++ [last], x ∈ (init ++ [last]) ++ [r] := fun x hx =>
        List.mem_append_left _ hx
      have hsplit := List.pairwise_append.mp hsorted
      obtain ⟨genesis, rest, hcons⟩ := List.exists_cons_of_ne_nil
        (List.append_ne_nil_of_right_ne_nil init (List.cons_ne_nil last []))
      have hshape' : ClientShaped (init ++ [last]) ∧
          ∃ payload : PyValue, payload.WellFormed ∧
            canonicalJson payload = .ok r.payloadJson := by
        rw [hcons] at hshape ⊢
        obtain ⟨hevent, hpayload, hrest⟩ := hshape
        exact ⟨⟨hevent, hpayload, fun x hx => hrest x (List.mem_append_left _ hx)⟩,
          hrest r (by simp)⟩
      obtain ⟨calls, w, hrun, hcalls, hrows, hseq⟩ := ih (by simp)
        (fun x hx => hadm x (hmem x hx)) hsplit.1 hchain' hshape'.1
      obtain ⟨payload, hwell, hpayload⟩ := hshape'.2
      have hlast : (init ++ [last]).getLast? = some last := by simp
      have hseed : ∃ x ∈ w.table.rows, x.id = 1 := by
        have hgenesis : genesis ∈ init ++ [last] := hcons ▸ List.mem_cons_self
        have hmap : genesis.written ∈ w.table.rows.map Row.written :=
          hrows ▸ List.mem_map_of_mem hgenesis
        obtain ⟨x, hx, hxg⟩ := List.mem_map.mp hmap
        have hnone : genesis.prevHash = none := (hcons ▸ hchain').1
        refine ⟨x, hx, (Row.written_eq_iff.mp hxg).1.trans ?_⟩
        exact (hadm genesis (hmem genesis hgenesis)).prevHash_eq_none_iff.mp hnone
      obtain ⟨calls', w', hrun', hcalls', hrows', hseq'⟩ := hrun.exists_append hcalls hrows hlast
        (hseq last hlast) hseed (hsplit.2.2 last (by simp) r (by simp)) hr
        (by simpa [hlast] using hprev) hseal (hchain'.valid_of_mem (by simp)) hwell hpayload
      refine ⟨calls', w', hrun', hcalls', hrows', fun l hl => ?_⟩
      rw [List.getLast?_concat] at hl
      rw [hseq', Option.some.inj hl]

theorem Run.clientShaped {calls : List Call} {w : World} (hrun : Run sha256 calls w)
    (hcalls : PayloadsWellFormed calls) : ClientShaped w.table.rows := by
  have hintact := hrun.intact
  cases hrows : w.table.rows with
  | nil => trivial
  | cons genesis rest =>
    have hmem : ∀ r ∈ genesis :: rest, r ∈ w.table.rows := fun r hr => hrows ▸ hr
    have hprev : genesis.prevHash = none := (hrows ▸ hintact.chained).1
    obtain ⟨call, -, hcall⟩ := hintact.written genesis (hmem genesis (by simp))
    obtain ⟨c, env, rfl⟩ := hcall.genesis.mp hprev
    refine ⟨hcall.eventType, ?_, fun r hr => ?_⟩
    · rw [hcall.policySha]
      exact hcall.payload
    · obtain ⟨call', hmem', hcall'⟩ := hintact.written r (hmem r (by simp [hr]))
      exact ⟨_, hcalls call' hmem', hcall'.payload⟩

theorem ClientShaped.of_written_eq {rows rows' : List Row} (h : ClientShaped rows)
    (heq : rows.map Row.written = rows'.map Row.written) : ClientShaped rows' := by
  have hfields : ∀ {r s : Row}, r.written = s.written → s.eventType = r.eventType ∧
      s.policyVersionGitSha = r.policyVersionGitSha ∧ s.payloadJson = r.payloadJson := by
    intro r s hrs
    have hh := (Row.written_eq_iff.mp hrs).2.1
    exact ⟨(congrArg EntryFields.eventType hh).symm,
      (congrArg EntryFields.policyVersionGitSha hh).symm,
      (congrArg EntryFields.payloadJson hh).symm⟩
  match rows, rows', heq with
  | [], [], _ => trivial
  | genesis :: rest, genesis' :: rest', heq =>
    obtain ⟨hhead, htail⟩ := List.cons.inj heq
    obtain ⟨hevent, hpayload, hrest⟩ := h
    obtain ⟨hevent', hsha', hpayload'⟩ := hfields hhead
    refine ⟨hevent'.trans hevent, by rw [hsha', hpayload', hpayload], fun s hs => ?_⟩
    have hmem : s.written ∈ rest.map Row.written := htail ▸ List.mem_map_of_mem hs
    obtain ⟨r, hr, hrs⟩ := List.mem_map.mp hmem
    rw [(hfields hrs).2.2]
    exact hrest r hr

/-- A table that verifies is empty or starts with the id 1 row, which alone has no
predecessor. Up to the columns that are not hashed, a run of the client leaves it
behind exactly when it has the shape of the client. -/
theorem verified_table_reachable_iff (t : LedgerTable) (hverify : verifyChain sha256 t = .ok []) :
    (t.byId = [] ∨ ∃ first rest, t.byId = first :: rest ∧ first.id = 1 ∧ first.prevHash = none) ∧
      ((∃ calls w, Run sha256 calls w ∧ PayloadsWellFormed calls ∧
          w.table.byId.map Row.written = t.byId.map Row.written) ↔ ClientShaped t.byId) := by
  have hchain := verifyChain_eq_nil_iff.mp hverify
  have hadm : ∀ r ∈ t.byId, r.Admitted := fun r hr => t.admitted r (LedgerTable.mem_byId.mp hr)
  refine ⟨?_, ?_, fun hshape => ?_⟩
  · cases hrows : t.byId with
    | nil => exact Or.inl rfl
    | cons first rest =>
      rw [hrows] at hchain hadm
      exact Or.inr ⟨first, rest, rfl,
        (hadm first (by simp)).prevHash_eq_none_iff.mp hchain.1, hchain.1⟩
  · rintro ⟨calls, w, hrun, hcalls, heq⟩
    rw [hrun.byId_eq] at heq
    exact (hrun.clientShaped hcalls).of_written_eq heq
  · by_cases hne : t.byId = []
    · exact ⟨[], World.empty, Run.start, nofun, by rw [hne]; rfl⟩
    · obtain ⟨calls, w, hrun, hcalls, hrows, -⟩ :=
        exists_run_of_chain hne hadm t.byId_strict hchain hshape
      exact ⟨calls, w, hrun, hcalls, by rw [hrun.byId_eq, hrows]⟩

theorem verified_table_reachable_iff_sample :
    ClientShaped (sampleWorld fun _ => [0]).table.byId := by
  have hrun : Run (fun _ => [0]) sampleCalls (sampleWorld fun _ => [0]) :=
    Run.start.extend sampleWorld_spec.1
  have hcalls : PayloadsWellFormed sampleCalls := by
    simp only [PayloadsWellFormed, sampleCalls, List.forall_mem_cons]
    have hseven : IntPrintable 7 :=
      (by decide : 7 < 10).trans_le (Nat.le_self_pow (by decide) 10)
    exact ⟨genesisPayload_wellFormed _, trivial, trivial, genesisPayload_wellFormed _, hseven,
      nofun⟩
  exact (verified_table_reachable_iff (sampleWorld fun _ => [0]).table
    hrun.verifyChain_eq_nil).2.mp ⟨_, _, hrun, hcalls, rfl⟩

def strayRow : Row :=
  { id := 1
    timestamp := 0
    moduleVersion := ledgerClientModuleVersion
    policyVersionGitSha := "unknown-dev"
    userId := 1
    eventType := "schema_segment_transition"
    payloadJson := "null"
    prevHash := none
    thisHash := "00"
    paramHash := emptyParamHash
    createdAtUtc := 0 }

def strayTable : LedgerTable := ⟨[strayRow], by decide, by decide⟩

/-- The verifier accepts a table no run leaves behind, and the empty table. -/
theorem verified_table_unreachable :
    verifyChain (fun _ => [0]) strayTable = .ok [] ∧
      (¬ ∃ calls w, Run (fun _ => [0]) calls w ∧
        w.table.byId.map Row.written = strayTable.byId.map Row.written) ∧
      verifyChain (fun _ => [0]) LedgerTable.empty = .ok [] ∧ LedgerTable.empty.rows = [] := by
  refine ⟨by decide, ?_, rfl, rfl⟩
  rintro ⟨calls, w, hrun, heq⟩
  have hstray : strayRow.written ∈ w.table.byId.map Row.written := heq ▸ List.mem_singleton_self _
  obtain ⟨r, hr, hwritten⟩ := List.mem_map.mp hstray
  have hfields : r.hashed = strayRow.hashed := (Row.written_eq_iff.mp hwritten).2.1
  have hevent := hrun.eventType_of_prevHash_none (LedgerTable.mem_byId.mp hr)
    (congrArg EntryFields.prevHash hfields)
  rw [show r.eventType = strayRow.eventType from congrArg EntryFields.eventType hfields] at hevent
  exact absurd hevent (by decide)

end Athena
