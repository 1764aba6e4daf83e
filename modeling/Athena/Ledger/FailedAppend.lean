import Athena.Ledger.AppendOnly

/-!
# Appends that raise

`append` executes three statements, each of which is durable on its own. A
failure up to the INSERT leaves no trace in the table. Behind the INSERT only
the `currval` query can fail, and then the entry is already there.
-/

namespace Athena

variable {sha256 : Bytes → Bytes}

namespace CallEnv

/-- What goes wrong is the statement behind the INSERT: it fails, or returns no row. -/
def LosesReturn (env : CallEnv) : Prop :=
  env.fails = some .currval ∨ env.fails = some .currvalNoRow

instance (env : CallEnv) : Decidable env.LosesReturn := inferInstanceAs (Decidable (_ ∨ _))

/-- The same circumstances without a failing statement. -/
def calm (env : CallEnv) : CallEnv := { env with fails := none }

theorem LosesReturn.not_select {env : CallEnv} (h : env.LosesReturn) :
    env.fails ≠ some .select := by
  rcases h with h | h <;> simp [h]

theorem LosesReturn.not_insert {env : CallEnv} (h : env.LosesReturn) :
    env.fails ≠ some .insert := by
  rcases h with h | h <;> simp [h]

end CallEnv

namespace LedgerClient

variable (sha256 : Bytes → Bytes) (c : LedgerClient)

theorem write_calm (env : CallEnv) (henv : env.fails ≠ some .insert) (prevHash : Option String)
    (eventType : String) (payload : PyValue) (paramHash : String) (l : Ledger) :
    c.write sha256 env.calm prevHash eventType payload paramHash l =
      c.write sha256 env prevHash eventType payload paramHash l := by
  unfold write
  cases canonicalJson payload with
  | error e => rfl
  | ok payloadJson =>
    dsimp only
    split
    · rfl
    · unfold Ledger.insertRow
      rw [if_neg henv, if_neg (by simp [CallEnv.calm])]
      rfl

/-- How an append can end: with an exception and the table as it was, with an exception
behind the INSERT and the ledger that the same call leaves when it returns, or with an id. -/
theorem append_cases (env : CallEnv) (eventType : String) (payload : PyValue) (paramHash : String)
    (l : Ledger) :
    ((∃ e, (c.append sha256 env eventType payload paramHash l).1 = .error e) ∧
      (c.append sha256 env eventType payload paramHash l).2.table = l.table ∧
      ¬ (env.LosesReturn ∧
        ∃ id, (c.append sha256 env.calm eventType payload paramHash l).1 = .ok id)) ∨
    (env.LosesReturn ∧ (∃ e, (c.append sha256 env eventType payload paramHash l).1 = .error e) ∧
      ∃ id, c.append sha256 env.calm eventType payload paramHash l =
        (.ok id, (c.append sha256 env eventType payload paramHash l).2)) ∨
    (¬ env.LosesReturn ∧ ∃ id, (c.append sha256 env eventType payload paramHash l).1 = .ok id) := by
  by_cases hselect : env.fails = some .select
  · refine .inl ⟨?_, ?_, fun h => h.1.not_select hselect⟩
    · exact ⟨.duckdbError, by rw [append, if_pos hselect]⟩
    · rw [append, if_pos hselect]
  have hcalm : env.calm.fails ≠ some .select := nofun
  unfold append
  rw [if_neg hselect, if_neg hcalm]
  cases htip : selectTip l with
  | none => exact .inl ⟨⟨_, rfl⟩, rfl, fun ⟨_, _, h⟩ => nomatch h⟩
  | some tip =>
    dsimp only
    have hcases := write_cases sha256 c env (some tip) eventType payload paramHash l
    have hsame := fun henv => write_calm sha256 c env henv (some tip) eventType payload paramHash l
    generalize c.write sha256 env (some tip) eventType payload paramHash l = out at hcases hsame
    obtain ⟨result, l'⟩ := out
    rcases hcases with ⟨hok, -⟩ | ⟨⟨e, he⟩, htable, -⟩
    · obtain rfl : result = .ok () := hok
      dsimp only
      by_cases hloses : env.LosesReturn
      · refine .inr (.inl ⟨hloses, ?_, l'.sequence, ?_⟩)
        · rcases hloses with h | h <;> simp [h]
        · rw [hsame hloses.not_insert]
          rcases hloses with h | h <;> simp [h, CallEnv.calm]
      · refine .inr (.inr ⟨hloses, ?_⟩)
        rw [CallEnv.LosesReturn, not_or] at hloses
        rw [if_neg hloses.1, if_neg hloses.2]
        exact ⟨_, rfl⟩
    · obtain rfl : result = .error e := he
      refine .inl ⟨⟨e, rfl⟩, htable, ?_⟩
      rintro ⟨hloses, id, hid⟩
      rw [hsame hloses.not_insert] at hid
      cases hid

variable {sha256 c}

/-- When only the statement behind the INSERT fails, the call raises and leaves what it
would have left. -/
theorem append_lost {env : CallEnv} {eventType : String} {payload : PyValue} {paramHash : String}
    {l l' : Ledger} {id : Int} (hloses : env.LosesReturn)
    (hcalm : c.append sha256 env.calm eventType payload paramHash l = (.ok id, l')) :
    (∃ e, (c.append sha256 env eventType payload paramHash l).1 = .error e) ∧
      (c.append sha256 env eventType payload paramHash l).2 = l' := by
  rcases c.append_cases sha256 env eventType payload paramHash l with
    ⟨-, -, hnot⟩ | ⟨-, hraises, id', hcalm'⟩ | ⟨hnot, -⟩
  · exact absurd ⟨hloses, id, congrArg Prod.fst hcalm⟩ hnot
  · exact ⟨hraises, congrArg Prod.snd (hcalm'.symm.trans hcalm)⟩
  · exact absurd hloses hnot

end LedgerClient

/-- An append that raises has added a row exactly when all that fails is the `currval` query
behind its INSERT, so that the same call would otherwise return. The row is then the entry
itself, behind all others; in every other case the rows are as before. -/
theorem failed_append_rows {calls : List Call} {w : World} (hrun : Run sha256 calls w)
    (c : LedgerClient) (env : CallEnv) (eventType : String) (payload : PyValue)
    (paramHash : String) {e : PyErr}
    (hraises : (c.append sha256 env eventType payload paramHash w.ledger).1 = .error e) :
    ((c.append sha256 env eventType payload paramHash w.ledger).2.table.rows ≠ w.table.rows ↔
      env.LosesReturn ∧
        ∃ id, (c.append sha256 env.calm eventType payload paramHash w.ledger).1 = .ok id) ∧
    ((c.append sha256 env eventType payload paramHash w.ledger).2.table.rows ≠ w.table.rows →
      ∃ r : Row, (c.append sha256 env eventType payload paramHash w.ledger).2.table.rows =
          w.table.rows ++ [r] ∧ (∀ x ∈ w.table.rows, x.id < r.id) ∧
        canonicalJson payload = .ok r.payloadJson ∧ r.eventType = eventType ∧
        r.paramHash = paramHash) := by
  rcases c.append_cases sha256 env eventType payload paramHash w.ledger with
    ⟨-, htable, hnot⟩ | ⟨hloses, -, id, hcalm⟩ | ⟨-, id, hok⟩
  · have hrows : (c.append sha256 env eventType payload paramHash w.ledger).2.table.rows =
        w.table.rows := congrArg LedgerTable.rows htable
    exact ⟨iff_of_false (fun hne => hne hrows) hnot, fun hne => absurd hrows hne⟩
  · have hreturns : (c.append sha256 env.calm eventType payload paramHash w.ledger).1 = .ok id := by
      rw [hcalm]
    obtain ⟨r, hrows, hid, -, hpayload, hevent, hparam⟩ := LedgerClient.append_ok hreturns
    rw [hcalm] at hrows
    have hbehind : ∀ x ∈ w.table.rows, x.id < r.id := by
      intro x hx
      have := hrun.intact.bounded x hx
      omega
    refine ⟨iff_of_true ?_ ⟨hloses, id, hreturns⟩,
      fun _ => ⟨r, hrows, hbehind, hpayload, hevent, hparam⟩⟩
    rw [hrows]
    simp [World.table]
  · rw [hok] at hraises
    cases hraises

/-- On the seeded ledger, an append whose `currval` query fails raises behind its row. -/
theorem seeded_append_lost (sha256 : Bytes → Bytes) :
    ∃ e id r l, sampleClient.append sha256 ⟨1, 1, none, false⟩ "genesis" .none emptyParamHash
        (seededWorld sha256 sampleClient 0).ledger = (.ok id, l) ∧
      (sampleClient.append sha256 ⟨1, 1, some .currval, false⟩ "genesis" .none emptyParamHash
        (seededWorld sha256 sampleClient 0).ledger).1 = .error e ∧
      (sampleClient.append sha256 ⟨1, 1, some .currval, false⟩ "genesis" .none emptyParamHash
        (seededWorld sha256 sampleClient 0).ledger).2.table.rows =
          (seededWorld sha256 sampleClient 0).table.rows ++ [r] := by
  have hrun := seededWorld_run sha256 sampleClient 0
  obtain ⟨hmem, hroom⟩ := seededWorld_ready sha256 sampleClient_valid 0
  have hnull : canonicalJson .none = .ok "null" := rfl
  obtain ⟨r, t, hreturns, hrows⟩ := hrun.append_returns hmem sampleClient_valid hroom
    ⟨1, 1, none, false⟩ rfl "genesis" emptyParamHash hnull
  have hloses : (CallEnv.mk 1 1 (some .currval) false).LosesReturn := .inl rfl
  obtain ⟨⟨e, hraises⟩, hafter⟩ := LedgerClient.append_lost hloses hreturns
  exact ⟨e, r.id, r, _, hreturns, hraises, by rw [hafter, hrows]⟩

/-- On the seeded ledger, with a failing `currval` query. -/
theorem failed_append_rows_seeded :
    (sampleClient.append (fun _ => [0]) ⟨1, 1, some .currval, false⟩ "genesis" .none emptyParamHash
      (seededWorld (fun _ => [0]) sampleClient 0).ledger).2.table.rows ≠
    (seededWorld (fun _ => [0]) sampleClient 0).table.rows := by
  obtain ⟨e, id, r, l, hreturns, hraises, -⟩ := seeded_append_lost fun _ => [0]
  have hrun := seededWorld_run (fun _ => [0]) sampleClient 0
  exact (failed_append_rows hrun _ _ _ _ _ hraises).1.mpr
    ⟨.inl rfl, id, congrArg Prod.fst hreturns⟩

/-- The entry of a raising append is in the ledger when its `currval` query has failed. -/
theorem lost_return_appends :
    ¬ ∀ (sha256 : Bytes → Bytes) (calls : List Call) (w : World) (c : LedgerClient) (env : CallEnv)
        (eventType : String) (payload : PyValue) (paramHash : String) (e : PyErr),
        Run sha256 calls w → c ∈ w.clients →
        (c.append sha256 env eventType payload paramHash w.ledger).1 = .error e →
        (c.append sha256 env eventType payload paramHash w.ledger).2.table.rows = w.table.rows := by
  intro hclaim
  obtain ⟨e, id, r, l, -, hraises, hrows⟩ := seeded_append_lost fun _ => [0]
  have hrun := seededWorld_run (fun _ => [0]) sampleClient 0
  have hmem := (seededWorld_ready (fun _ => [0]) sampleClient_valid 0).1
  have hsame := hclaim _ _ _ _ _ _ _ _ e hrun hmem hraises
  rw [hrows] at hsame
  simp at hsame

end Athena
