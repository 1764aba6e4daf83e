import Athena.Ledger.Integrity

/-!
# An append-only ledger with faithful ids

The rows of a run only ever grow at their end. The id of an appended row is
drawn by the INSERT and read back by a second statement; `returnedIds` collects
what the callers of a run were given.
-/

namespace Athena

variable {sha256 : Bytes → Bytes}

namespace World

section Definitions

variable (sha256 : Bytes → Bytes)

def run (w : World) (calls : List Call) : World := calls.foldl (World.step sha256) w

def returned (w : World) : Call → Option Int
  | .construct _ _ => none
  | .append c env eventType payload paramHash =>
    (c.append sha256 env eventType payload paramHash w.ledger).1.toOption

def returnedIds (w : World) : List Call → List Int
  | [] => []
  | call :: calls => (w.returned sha256 call).toList ++ returnedIds (w.step sha256 call) calls

end Definitions

theorem run_append (w : World) (a b : List Call) :
    w.run sha256 (a ++ b) = (w.run sha256 a).run sha256 b := List.foldl_append

theorem returnedIds_append (w : World) (a b : List Call) :
    w.returnedIds sha256 (a ++ b) =
      w.returnedIds sha256 a ++ (w.run sha256 a).returnedIds sha256 b := by
  induction a generalizing w with
  | nil => rfl
  | cons call a ih =>
    simp only [List.cons_append, returnedIds, ih, List.append_assoc]
    rfl

theorem rows_step (sha256 : Bytes → Bytes) (w : World) (call : Call) :
    w.table.rows <+: (w.step sha256 call).table.rows := by
  cases w.step_effect sha256 call with
  | idle rows => exact ⟨[], by rw [List.append_nil]; exact rows.symm⟩
  | genesis r _ _ _ _ _ _ rows => exact ⟨[r], rows.symm⟩
  | entry r _ _ _ _ _ _ _ rows => exact ⟨[r], rows.symm⟩

theorem rows_run (sha256 : Bytes → Bytes) (w : World) (calls : List Call) :
    w.table.rows <+: (w.run sha256 calls).table.rows := by
  induction calls generalizing w with
  | nil => exact List.prefix_refl _
  | cons call calls ih => exact (w.rows_step sha256 call).trans (ih _)

end World

theorem Run.eq_run {calls : List Call} {w : World} (hrun : Run sha256 calls w) :
    w = World.empty.run sha256 calls := by
  induction hrun with
  | start => rfl
  | call call _ _ ih => rw [World.run_append, ← ih]; rfl

theorem Run.split {a b : List Call} {w : World} (hrun : Run sha256 (a ++ b) w) :
    Run sha256 a (World.empty.run sha256 a) := by
  induction b using List.reverseRecOn generalizing w with
  | nil =>
    rw [List.append_nil] at hrun
    exact hrun.eq_run ▸ hrun
  | append_singleton b call ih =>
    rw [← List.append_assoc] at hrun
    generalize hcalls : a ++ b ++ [call] = calls at hrun
    cases hrun with
    | start => simp at hcalls
    | call call' hrun' _ =>
      obtain ⟨rfl, -⟩ := List.append_inj' hcalls rfl
      exact ih hrun'

theorem World.rows_construct {w : World} (c : LedgerClient) (env : CallEnv)
    (hseed : ∃ r ∈ w.table.rows, r.id = 1) :
    (w.step sha256 (.construct c env)).table.rows = w.table.rows := by
  cases w.step_effect sha256 (.construct c env) with
  | idle rows => exact rows
  | genesis r fresh =>
    obtain ⟨x, hx, hid⟩ := hseed
    exact absurd hid (fresh x hx)
  | entry r tip tip_eq prev _ _ _ written =>
    have hprev := written.genesis.mpr ⟨c, env, rfl⟩
    rw [prev] at hprev
    cases hprev

/-- What a successful append leaves: one more row, with the drawn id, and that id returned. -/
theorem LedgerClient.append_ok {c : LedgerClient} {env : CallEnv} {eventType : String}
    {payload : PyValue} {paramHash : String} {l : Ledger} {id : Int}
    (h : (c.append sha256 env eventType payload paramHash l).1 = .ok id) :
    ∃ r : Row, (c.append sha256 env eventType payload paramHash l).2.table.rows =
        l.table.rows ++ [r] ∧ r.id = l.sequence + 1 ∧ r.id = id ∧
      canonicalJson payload = .ok r.payloadJson ∧ r.eventType = eventType ∧
      r.paramHash = paramHash := by
  unfold append at h ⊢
  by_cases hselect : env.fails = some .select
  · rw [if_pos hselect] at h
    cases h
  rw [if_neg hselect] at h ⊢
  cases htip : selectTip l with
  | none =>
    rw [htip] at h
    cases h
  | some tip =>
    rw [htip] at h
    dsimp only at h ⊢
    have hcases := write_cases sha256 c env (some tip) eventType payload paramHash l
    generalize c.write sha256 env (some tip) eventType payload paramHash l = out at hcases h ⊢
    obtain ⟨result, l'⟩ := out
    rcases hcases with
      ⟨hok, r, hid, -, -, -, -, -, -, hevent, hpayload, hparam, hrows, hseq⟩ | ⟨⟨e, he⟩, -, -⟩
    · simp only at hok
      subst hok
      dsimp only at h ⊢
      split_ifs at h ⊢
      exact ⟨r, hrows, hid, hseq ▸ Except.ok.inj h, hpayload, hevent, hparam⟩
    · simp only at he
      subst he
      cases h

/-- A successful append in a run: its row is new, behind all others, and carries what was given. -/
theorem World.returned_append {calls : List Call} {w : World} (hrun : Run sha256 calls w)
    {c : LedgerClient} {env : CallEnv} {eventType : String} {payload : PyValue}
    {paramHash : String} {id : Int}
    (h : w.returned sha256 (.append c env eventType payload paramHash) = some id) :
    ∃ r : Row, (w.step sha256 (.append c env eventType payload paramHash)).table.rows =
        w.table.rows ++ [r] ∧ (∀ x ∈ w.table.rows, x.id < r.id) ∧ r.id = id ∧
      canonicalJson payload = .ok r.payloadJson ∧ r.eventType = eventType ∧
      r.paramHash = paramHash := by
  simp only [World.returned] at h
  cases hresult : (c.append sha256 env eventType payload paramHash w.ledger).1 with
  | error e =>
    rw [hresult] at h
    cases h
  | ok id' =>
    rw [hresult] at h
    obtain ⟨r, hrows, hid, hret, hfields⟩ := LedgerClient.append_ok hresult
    refine ⟨r, hrows, fun x hx => ?_, hret.trans (Option.some.inj h), hfields⟩
    have := hrun.intact.bounded x hx
    omega

theorem Run.returnedIds {calls : List Call} {w : World} (hrun : Run sha256 calls w) :
    (World.empty.returnedIds sha256 calls).Pairwise (· < ·) ∧
      ∀ id ∈ World.empty.returnedIds sha256 calls, ∃ r ∈ w.table.rows, r.id = id := by
  induction hrun with
  | start => exact ⟨List.Pairwise.nil, fun id hid => absurd hid List.not_mem_nil⟩
  | @call calls w call hrun _ ih =>
    obtain ⟨hsorted, hrows⟩ := ih
    have hkept : ∀ id ∈ World.empty.returnedIds sha256 calls,
        ∃ r ∈ (w.step sha256 call).table.rows, r.id = id := by
      intro id hid
      obtain ⟨r, hr, hrid⟩ := hrows id hid
      exact ⟨r, (w.rows_step sha256 call).subset hr, hrid⟩
    have hlast : World.empty.returnedIds sha256 (calls ++ [call]) =
        World.empty.returnedIds sha256 calls ++ (w.returned sha256 call).toList := by
      rw [World.returnedIds_append, ← hrun.eq_run]
      simp [World.returnedIds]
    rw [hlast]
    cases hret : w.returned sha256 call with
    | none =>
      rw [Option.toList_none, List.append_nil]
      exact ⟨hsorted, hkept⟩
    | some id =>
      rw [Option.toList_some]
      cases call with
      | construct c env => cases hret
      | append c env eventType payload paramHash =>
        obtain ⟨r, hstep, hlt, rfl, -⟩ := World.returned_append hrun hret
        constructor
        · rw [List.pairwise_append]
          refine ⟨hsorted, List.pairwise_singleton _ _, fun a ha b hb => ?_⟩
          obtain ⟨x, hx, rfl⟩ := hrows a ha
          rw [List.mem_singleton.mp hb]
          exact hlt x hx
        · intro id hid
          rcases List.mem_append.mp hid with hid | hid
          · exact hkept id hid
          · exact ⟨r, by simp [hstep], (List.mem_singleton.mp hid).symm⟩

/-- The ledger is append-only and its ids are faithful. At any later point of a run the rows
of an earlier point are still there, unchanged and in front; a construction on a seeded
ledger adds nothing; a successful append adds one row behind all others, with the id it
returns and the contents it was given; and the returned ids increase. -/
theorem ledger_append_only {calls : List Call} {w : World} (hrun : Run sha256 calls w) :
    (∀ a b rest, calls = a ++ b ++ rest →
      (World.empty.run sha256 a).table.rows <+: (World.empty.run sha256 (a ++ b)).table.rows) ∧
    (∀ a c env rest, calls = a ++ .construct c env :: rest →
      (∃ r ∈ (World.empty.run sha256 a).table.rows, r.id = 1) →
      (World.empty.run sha256 (a ++ [.construct c env])).table.rows =
        (World.empty.run sha256 a).table.rows) ∧
    (∀ a c env eventType payload paramHash rest id,
      calls = a ++ .append c env eventType payload paramHash :: rest →
      (World.empty.run sha256 a).returned sha256 (.append c env eventType payload paramHash) =
        some id →
      ∃ r : Row, (World.empty.run sha256
          (a ++ [.append c env eventType payload paramHash])).table.rows =
            (World.empty.run sha256 a).table.rows ++ [r] ∧
        (∀ x ∈ (World.empty.run sha256 a).table.rows, x.id < r.id) ∧ r.id = id ∧
        canonicalJson payload = .ok r.payloadJson ∧ r.eventType = eventType ∧
        r.paramHash = paramHash) ∧
    (World.empty.returnedIds sha256 calls).Pairwise (· < ·) := by
  refine ⟨?_, ?_, ?_, hrun.returnedIds.1⟩
  · rintro a b rest rfl
    rw [World.run_append]
    exact World.rows_run sha256 _ b
  · rintro a c env rest rfl hseed
    rw [World.run_append]
    exact World.rows_construct c env hseed
  · rintro a c env eventType payload paramHash rest id rfl hret
    rw [World.run_append]
    exact World.returned_append hrun.split hret

theorem ledger_append_only_seeded :
    (seededWorld (fun _ => [0]) sampleClient 0).table.rows <+:
      (World.empty.run (fun _ => [0]) [.construct sampleClient ⟨0, 0, none, false⟩,
        .append sampleClient ⟨1, 1, none, false⟩ "genesis" .none emptyParamHash]).table.rows := by
  obtain ⟨text, htext⟩ := LedgerClient.genesisPayload_isOk sampleClient.policyVersionSha
  obtain ⟨-, -, -, -, -, -, hclients⟩ := seededWorld_rows (fun _ => [0]) sampleClient_valid htext 0
  have hrun := (seededWorld_run (fun _ => [0]) sampleClient 0).call
    (.append sampleClient ⟨1, 1, none, false⟩ "genesis" .none emptyParamHash)
    (by rw [World.Allows, hclients]; exact List.mem_singleton_self _)
  exact (ledger_append_only hrun).1 [.construct sampleClient ⟨0, 0, none, false⟩]
    [.append sampleClient ⟨1, 1, none, false⟩ "genesis" .none emptyParamHash] [] rfl

end Athena
