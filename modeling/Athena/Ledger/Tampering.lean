import Athena.Ledger.VerifyMain

/-!
# Tampering with one column

An `Edit` changes one hashed column of one row. Without a collision the chain
check cannot miss it; whether the command reports it as a broken chain depends
on what else goes wrong in the same run.
-/

namespace Athena

variable {sha256 : Bytes → Bytes} {pyRepr : PyValue → String}

/-- A new value for one of the hashed columns or `this_hash`. -/
inductive Edit
  | payloadJson (value : String)
  | eventType (value : String)
  | userId (value : Int)
  | policyVersionGitSha (value : String)
  | prevHash (value : Option String)
  | thisHash (value : String)
  deriving DecidableEq, Repr

namespace Edit

def apply : Edit → Row → Row
  | payloadJson v, r => { r with payloadJson := v }
  | eventType v, r => { r with eventType := v }
  | userId v, r => { r with userId := v }
  | policyVersionGitSha v, r => { r with policyVersionGitSha := v }
  | prevHash v, r => { r with prevHash := v }
  | thisHash v, r => { r with thisHash := v }

@[simp] theorem apply_id (e : Edit) (r : Row) : (e.apply r).id = r.id := by cases e <;> rfl

def Encodable : Edit → Prop
  | policyVersionGitSha v => IsAscii v
  | prevHash v => IsAscii (v.getD "")
  | _ => True

theorem hashed_encodable_iff {e : Edit} {r : Row} (h : r.hashed.Encodable) :
    (e.apply r).hashed.Encodable ↔ e.Encodable := by
  obtain ⟨hprev, hsha⟩ := h
  cases e with
  | policyVersionGitSha v => exact ⟨And.right, fun hv => ⟨hprev, hv⟩⟩
  | prevHash v => exact ⟨And.left, fun hv => ⟨hv, hsha⟩⟩
  | _ => exact ⟨fun _ => trivial, fun _ => ⟨hprev, hsha⟩⟩

theorem hashed_eq_of_body_eq {e : Edit} {r : Row} {b : Bytes}
    (hprev : (e.apply r).prevHash = r.prevHash) (hr : r.hashed.body = .ok b)
    (he : (e.apply r).hashed.body = .ok b) :
    (e.apply r).hashed = r.hashed := by
  have hjoin : Framing.join 0 (e.apply r).hashed.parts = Framing.join 0 r.hashed.parts :=
    (EntryFields.body_ok_iff.mp he).2.trans (EntryFields.body_ok_iff.mp hr).2.symm
  simp only [EntryFields.parts, Framing.join_cons_cons, Framing.join_singleton] at hjoin
  cases e with
  | prevHash v =>
    have hv : v = r.prevHash := hprev
    simp [apply, hv]
  | thisHash v => rfl
  | payloadJson v =>
    have hv : v = r.payloadJson := by simpa [apply, Row.hashed] using hjoin
    simp [apply, hv]
  | policyVersionGitSha v =>
    have hv : v = r.policyVersionGitSha := by simpa [apply, Row.hashed] using hjoin
    simp [apply, hv]
  | eventType v =>
    have hv : v = r.eventType := by simpa [apply, Row.hashed] using hjoin
    simp [apply, hv]
  | userId v =>
    have hv : v = r.userId := by simpa [apply, Row.hashed, strInt_injective.eq_iff] using hjoin
    simp [apply, hv]

/-- An edit that keeps both the seal and the predecessor intact changes nothing. -/
theorem apply_eq_of_sealed {e : Edit} {r : Row} {hashed : Set Bytes}
    (hcf : CollisionFree sha256 hashed) (hr : r.Sealed sha256) (he : (e.apply r).Sealed sha256)
    (hprev : (e.apply r).prevHash = r.prevHash) (hrm : ∀ b, r.hashed.body = .ok b → b ∈ hashed)
    (hem : ∀ b, (e.apply r).hashed.body = .ok b → b ∈ hashed) : e.apply r = r := by
  have hthis : (e.apply r).thisHash = r.thisHash → e.apply r = r := by
    intro hthis
    obtain ⟨b, heb, hrb⟩ := body_eq_of_computeEntryHash_eq hcf (hthis ▸ he) hr hem hrm
    have hfields := hashed_eq_of_body_eq hprev hrb heb
    cases e with
    | thisHash v => exact congrArg (fun x => { r with thisHash := x }) hthis
    | prevHash v => exact congrArg (fun x => { r with prevHash := x }) hprev
    | payloadJson v =>
      exact congrArg (fun x => { r with payloadJson := x })
        (congrArg EntryFields.payloadJson hfields)
    | eventType v =>
      exact congrArg (fun x => { r with eventType := x }) (congrArg EntryFields.eventType hfields)
    | userId v =>
      exact congrArg (fun x => { r with userId := x }) (congrArg EntryFields.userId hfields)
    | policyVersionGitSha v =>
      exact congrArg (fun x => { r with policyVersionGitSha := x })
        (congrArg EntryFields.policyVersionGitSha hfields)
  cases e with
  | thisHash v => exact hthis (Except.ok.inj (Eq.trans (Eq.symm he) hr))
  | _ => exact hthis rfl

end Edit

/-- `UPDATE pre_trade_ledger_raw SET ... WHERE id = ?`: `none` when a constraint rejects it. -/
def LedgerTable.update? (t : LedgerTable) (id : Int) (e : Edit) : Option LedgerTable :=
  let rows := t.rows.map fun r => if r.id = id then e.apply r else r
  if h : ∀ r ∈ rows, r.Admitted then
    some
      { rows := rows
        primaryKey := by
          have hid : (fun r : Row => (if r.id = id then e.apply r else r).id) = Row.id := by
            funext r
            split_ifs <;> simp
          have hrows : rows.map Row.id = t.rows.map Row.id := by
            rw [List.map_map]
            exact congrArg (t.rows.map ·) hid
          exact hrows ▸ t.primaryKey
        admitted := h }
  else none

theorem LedgerTable.update?_eq_some {t t' : LedgerTable} {id : Int} {e : Edit}
    (h : t.update? id e = some t') :
    t'.rows = t.rows.map fun r => if r.id = id then e.apply r else r := by
  unfold update? at h
  dsimp only at h
  split_ifs at h
  cases h
  rfl

section Detection

variable {calls : List Call} {w : World} {t' : LedgerTable} {target : Row} {e : Edit}

theorem Run.tampered_byId (hrun : Run sha256 calls w)
    (hupd : w.table.update? target.id e = some t') :
    t'.byId = w.table.rows.map fun r => if r.id = target.id then e.apply r else r := by
  have hrows := LedgerTable.update?_eq_some hupd
  rw [LedgerTable.byId_eq_rows, hrows]
  rw [hrows, List.pairwise_map]
  refine hrun.intact.sorted.imp fun {a b} hab => ?_
  split_ifs <;> simpa using hab

theorem Run.tampered_isOk_iff (hrun : Run sha256 calls w) (htarget : target ∈ w.table.rows)
    (hupd : w.table.update? target.id e = some t') :
    (∃ ms, verifyChain sha256 t' = .ok ms) ↔ e.Encodable := by
  have hencodable : ∀ r ∈ w.table.rows, r.hashed.Encodable := fun r hr =>
    computeEntryHash_isOk_iff.mp ⟨_, hrun.intact.chained.valid_of_mem hr⟩
  rw [verifyChain_isOk_iff, LedgerTable.update?_eq_some hupd, List.forall_mem_map]
  constructor
  · intro h
    have := h target htarget
    rw [if_pos rfl] at this
    exact (Edit.hashed_encodable_iff (hencodable target htarget)).mp this
  · intro h r hr
    split_ifs
    · exact (Edit.hashed_encodable_iff (hencodable r hr)).mpr h
    · exact hencodable r hr

/-- An edit that changes its row breaks the chain: either the row is no longer sealed
or it no longer points at its predecessor. -/
theorem Run.tampered_not_chained (hrun : Run sha256 calls w) (htarget : target ∈ w.table.rows)
    (hne : e.apply target ≠ target) (hupd : w.table.update? target.id e = some t')
    (hcf : CollisionFree sha256 (hashedBytes w.table ∪ hashedBytes t')) :
    verifyChain sha256 t' ≠ .ok [] := by
  intro hverify
  have hchain := verifyChain_eq_nil_iff.mp hverify
  rw [hrun.tampered_byId hupd] at hchain
  have hrows := LedgerTable.update?_eq_some hupd
  obtain ⟨before, after, hsplit⟩ := List.append_of_mem htarget
  have hsorted := hrun.intact.sorted
  rw [hsplit] at hsorted
  have hbefore : (before.map fun r => if r.id = target.id then e.apply r else r) = before := by
    have hid : ∀ r ∈ before, (if r.id = target.id then e.apply r else r) = r := fun r hr =>
      if_neg (ne_of_lt ((List.pairwise_append.mp hsorted).2.2 r hr target (by simp)))
    rw [List.map_congr_left hid, List.map_id']
  have hold : RowChain sha256 none (before ++ target :: after) := hsplit ▸ hrun.intact.chained
  rw [hsplit, List.map_append, hbefore, List.map_cons, if_pos rfl] at hchain
  obtain ⟨-, hprev, hsealed, -⟩ := HashChain.chained_append.mp hold
  obtain ⟨-, hprev', hsealed', -⟩ := HashChain.chained_append.mp hchain
  refine hne (Edit.apply_eq_of_sealed hcf hsealed hsealed' (hprev'.trans hprev.symm) ?_ ?_)
  · exact fun b hb => Or.inl ⟨target, htarget, hb⟩
  · refine fun b hb => Or.inr ⟨e.apply target, ?_, hb⟩
    rw [hrows]
    exact List.mem_map.mpr ⟨target, htarget, if_pos rfl⟩

end Detection

/-- Tampering with one hashed column is reported as a broken chain, with a record and
exit code 1, exactly when the new value can be encoded and the continuity check, if
asked for, can read its file. -/
theorem tampering_reported_iff {calls : List Call} {w : World} (hrun : Run sha256 calls w)
    {target : Row} (htarget : target ∈ w.table.rows) (e : Edit) (hne : e.apply target ≠ target)
    {t' : LedgerTable} (hupd : w.table.update? target.id e = some t')
    (hcf : CollisionFree sha256 (hashedBytes w.table ∪ hashedBytes t'))
    (pyRepr : PyValue → String) (policyVersionSha now : String)
    (files : String → Except PyErr PyValue) (args : VerifyArgs) :
    ((verifyMain sha256 pyRepr policyVersionSha now files args (.ok t')).verdict = .chainBroken ∧
      (verifyMain sha256 pyRepr policyVersionSha now files args (.ok t')).mismatches ≠ [] ∧
      (verifyMain sha256 pyRepr policyVersionSha now files args (.ok t')).exitCode = 1) ↔
      e.Encodable ∧ args.ContinuityReadable files := by
  rw [verifyMain_chainBroken_iff, ← hrun.tampered_isOk_iff htarget hupd]
  have hbroken := hrun.tampered_not_chained htarget hne hupd hcf
  refine and_congr_left fun _ => ⟨fun ⟨ms, hms, _⟩ => ⟨ms, hms⟩, fun ⟨ms, hms⟩ => ⟨ms, hms, ?_⟩⟩
  rintro rfl
  exact hbroken hms

theorem seededWorld_update (sha256 : Bytes → Bytes) {c : LedgerClient} (hc : c.Valid)
    (user : Int) (huser : -2 ^ 31 ≤ user ∧ user < 2 ^ 31) (now : Int) :
    ∃ r t', (seededWorld sha256 c now).table.rows = [r] ∧ r.id = 1 ∧ r.userId = c.userId ∧
      (seededWorld sha256 c now).table.update? 1 (.userId user) = some t' := by
  obtain ⟨text, htext⟩ := LedgerClient.genesisPayload_isOk c.policyVersionSha
  obtain ⟨r, hid, -, hr, -, hrows, -⟩ := seededWorld_rows sha256 hc htext now
  have hadm : r.Admitted := (seededWorld sha256 c now).table.admitted r (by simp [hrows])
  refine ⟨r, _, hrows, hid, congrArg EntryFields.userId hr, dif_pos ?_⟩
  rw [hrows]
  simp only [List.map_cons, List.map_nil, List.mem_singleton, forall_eq, hid, if_true]
  exact ⟨hadm.1, huser, hadm.2.2⟩

/-- The arguments and files of a run that asks for continuity with a missing file. -/
def missingFileArgs : VerifyArgs :=
  ⟨"decisions.duckdb", some "prev.json", some ⟨2026, by decide⟩, some ⟨5, by decide⟩⟩

theorem tampering_reported_iff_seeded :
    ∃ t', (seededWorld tagDigest sampleClient 0).table.update? 1 (.userId 2) = some t' ∧
      (verifyMain tagDigest (fun _ => "") "abcdef1" "" (fun _ => .error .fileNotFoundError)
        ⟨"decisions.duckdb", none, none, none⟩ (.ok t')).verdict = .chainBroken := by
  obtain ⟨r, t', hrows, hid, huser, hupd⟩ :=
    seededWorld_update tagDigest sampleClient_valid 2 (by decide) 0
  have hne : (Edit.userId 2).apply r ≠ r := by
    intro h
    have : (2 : Int) = 1 := (congrArg Row.userId h).trans huser
    exact absurd this (by decide)
  refine ⟨t', hupd, ?_⟩
  exact ((tampering_reported_iff (seededWorld_run _ sampleClient 0) (by rw [hrows]; simp)
    (.userId 2) hne (hid.symm ▸ hupd) tagDigest_injective.injOn (fun _ => "") "abcdef1" ""
    (fun _ => .error .fileNotFoundError) ⟨"decisions.duckdb", none, none, none⟩).mpr
      ⟨trivial, nofun⟩).1

/-- A changed `user_id`, verified with a previous-segment file that is missing: the
verdict is VERIFY_FAILED. -/
theorem tampering_reported_as_failure :
    ∃ t', (seededWorld tagDigest sampleClient 0).table.update? 1 (.userId 2) = some t' ∧
      (∃ ms, verifyChain tagDigest t' = .ok ms ∧ ms ≠ []) ∧
      (verifyMain tagDigest (fun _ => "") "abcdef1" "" (fun _ => .error .fileNotFoundError)
        missingFileArgs (.ok t')).verdict = .verifyFailed := by
  obtain ⟨r, t', hrows, hid, huser, hupd⟩ :=
    seededWorld_update tagDigest sampleClient_valid 2 (by decide) 0
  have hrun := seededWorld_run tagDigest sampleClient 0
  have htarget : r ∈ (seededWorld tagDigest sampleClient 0).table.rows := by rw [hrows]; simp
  have hne : (Edit.userId 2).apply r ≠ r := by
    intro h
    have : (2 : Int) = 1 := (congrArg Row.userId h).trans huser
    exact absurd this (by decide)
  have hupd' : (seededWorld tagDigest sampleClient 0).table.update? r.id (.userId 2) = some t' :=
    hid.symm ▸ hupd
  obtain ⟨ms, hms⟩ := (hrun.tampered_isOk_iff htarget hupd').mpr trivial
  refine ⟨t', hupd, ⟨ms, hms, ?_⟩, ?_⟩
  · rintro rfl
    exact hrun.tampered_not_chained htarget hne hupd' tagDigest_injective.injOn hms
  · simp only [verifyMain, hms]
    rfl

end Athena
