import Athena.Ledger.AppendOnly
import Athena.Ledger.MonthlyChain

/-!
# Published segments and later appends

`created_at_utc` is the clock of the INSERT. A segment stays what it was as long
as no later row falls into its month, which the clock rules out once the month
is over and which nothing rules out before.
-/

namespace Athena

variable {sha256 : Bytes → Bytes}

def Call.env : Call → CallEnv
  | .construct _ env => env
  | .append _ env _ _ _ => env

/-- The rows `after` are the rows `before` and then rows created as `created` says. -/
def GrownBy (before after : List Row) (created : Int → Prop) : Prop :=
  ∃ new, after = before ++ new ∧ ∀ r ∈ new, created r.createdAtUtc

theorem GrownBy.refl {rows : List Row} {created : Int → Prop} : GrownBy rows rows created :=
  ⟨[], by simp, by simp⟩

theorem GrownBy.trans {a b c : List Row} {created : Int → Prop} (hab : GrownBy a b created)
    (hbc : GrownBy b c created) : GrownBy a c created := by
  obtain ⟨new, rfl, hnew⟩ := hab
  obtain ⟨new', rfl, hnew'⟩ := hbc
  refine ⟨new ++ new', List.append_assoc _ _ _, fun r hr => ?_⟩
  rcases List.mem_append.mp hr with hr | hr
  · exact hnew r hr
  · exact hnew' r hr

theorem Ledger.insertRow_grown (l : Ledger) (env : CallEnv) {row : Int → Row}
    (hrow : ∀ id, (row id).createdAtUtc = env.createdAtUtc) :
    GrownBy l.table.rows (l.insertRow env row).2.table.rows (· = env.createdAtUtc) := by
  rcases l.insertRow_cases env row with ⟨-, -, hrows, -⟩ | ⟨-, htable, -⟩
  · exact ⟨[row (l.sequence + 1)], hrows, fun r hr => List.mem_singleton.mp hr ▸ hrow _⟩
  · rw [htable]
    exact GrownBy.refl

theorem LedgerClient.write_grown (sha256 : Bytes → Bytes) (c : LedgerClient) (env : CallEnv)
    (prevHash : Option String) (eventType : String) (payload : PyValue) (paramHash : String)
    (l : Ledger) :
    GrownBy l.table.rows (c.write sha256 env prevHash eventType payload paramHash l).2.table.rows
      (· = env.createdAtUtc) := by
  unfold write
  cases canonicalJson payload with
  | error e => exact GrownBy.refl
  | ok payloadJson =>
    dsimp only
    split
    · exact GrownBy.refl
    · exact l.insertRow_grown env fun _ => rfl

theorem LedgerClient.ensureGenesis_grown (sha256 : Bytes → Bytes) (c : LedgerClient) (env : CallEnv)
    (l : Ledger) :
    GrownBy l.table.rows (c.ensureGenesis sha256 env l).2.table.rows (· = env.createdAtUtc) := by
  unfold ensureGenesis
  split_ifs
  · exact GrownBy.refl
  · exact GrownBy.refl
  · exact c.write_grown sha256 env _ _ _ _ _

theorem LedgerClient.append_grown (sha256 : Bytes → Bytes) (c : LedgerClient) (env : CallEnv)
    (eventType : String) (payload : PyValue) (paramHash : String) (l : Ledger) :
    GrownBy l.table.rows (c.append sha256 env eventType payload paramHash l).2.table.rows
      (· = env.createdAtUtc) := by
  unfold append
  by_cases hselect : env.fails = some .select
  · rw [if_pos hselect]
    exact GrownBy.refl
  rw [if_neg hselect]
  cases selectTip l with
  | none => exact GrownBy.refl
  | some tip =>
    have hgrown := c.write_grown sha256 env (some tip) eventType payload paramHash l
    dsimp only
    generalize c.write sha256 env (some tip) eventType payload paramHash l = out at hgrown ⊢
    obtain ⟨_ | _, l'⟩ := out
    · exact hgrown
    · dsimp only
      split_ifs <;> exact hgrown

theorem World.step_grown (sha256 : Bytes → Bytes) (w : World) (call : Call) :
    GrownBy w.table.rows (w.step sha256 call).table.rows (· = call.env.createdAtUtc) := by
  cases call with
  | append c env eventType payload paramHash =>
    exact c.append_grown sha256 env eventType payload paramHash w.ledger
  | construct c env =>
    have hgrown := c.ensureGenesis_grown sha256 env w.ledger
    simp only [step, LedgerClient.init]
    split_ifs with hddl
    · exact GrownBy.refl
    · exact hgrown

/-- The calls start at or after `now` and the clock never goes backwards. -/
def ClockFrom (now : Int) (calls : List Call) : Prop :=
  List.IsChain (· ≤ ·) (now :: calls.map fun call => call.env.createdAtUtc)

instance (now : Int) (calls : List Call) : Decidable (ClockFrom now calls) :=
  inferInstanceAs (Decidable (List.IsChain _ _))

theorem World.run_grown (sha256 : Bytes → Bytes) (w : World) {now : Int} {calls : List Call}
    (hclock : ClockFrom now calls) :
    GrownBy w.table.rows (w.run sha256 calls).table.rows (now ≤ ·) := by
  induction calls generalizing w now with
  | nil => exact GrownBy.refl
  | cons call calls ih =>
    obtain ⟨hnow, hrest⟩ := List.isChain_cons_cons.mp hclock
    obtain ⟨new, hnew, hcreated⟩ := w.step_grown sha256 call
    obtain ⟨new', hnew', hcreated'⟩ := ih (w.step sha256 call) hrest
    refine GrownBy.trans ⟨new, hnew, fun r hr => (hcreated r hr).symm ▸ hnow⟩
      ⟨new', hnew', fun r hr => hnow.trans (hcreated' r hr)⟩

def InMonth (m : Calendar.Month) (r : Row) : Prop :=
  firstInstant m ≤ r.createdAtUtc ∧ r.createdAtUtc < endInstant m

instance (m : Calendar.Month) (r : Row) : Decidable (InMonth m r) :=
  inferInstanceAs (Decidable (_ ∧ _))

theorem monthIds_of_grown {t t' : LedgerTable} {m : Calendar.Month} (ht : t.byId = t.rows)
    (ht' : t'.byId = t'.rows) (hgrown : GrownBy t.rows t'.rows (endInstant m ≤ ·)) :
    t'.monthIds m.year m.month = t.monthIds m.year m.month := by
  obtain ⟨new, hnew, hcreated⟩ := hgrown
  have hnone : Tiling.slice Row.createdAtUtc (firstInstant m) (endInstant m) new = [] := by
    rw [List.eq_nil_iff_forall_not_mem]
    intro r hr
    obtain ⟨hmem, -, hlt⟩ := Tiling.mem_slice.mp hr
    exact absurd hlt (not_lt.mpr (hcreated r hmem))
  have hids : t'.idsBetween (firstInstant m) (endInstant m) =
      t.idsBetween (firstInstant m) (endInstant m) := by
    rw [t'.idsBetween_eq, t.idsBetween_eq, ht', ht, hnew, Tiling.slice_append, hnone,
      List.append_nil]
  rw [t'.monthIds_month, t.monthIds_month, hids]

theorem computeSegmentHash_entryCount_eq {t : LedgerTable} {m : Calendar.Month}
    {prev : Option String} {policySha now : String} {result : SegmentHashResult}
    (h : computeSegmentHash sha256 t m.year m.month prev policySha now = .ok result) :
    result.entryCount = t.rows.countP (InMonth m) := by
  have hids := t.monthIds_month m
  split_ifs at hids
  · rw [computeSegmentHash_entryCount h hids, t.length_idsBetween]
    rfl
  · rw [computeSegmentHash, hids] at h
    cases h

theorem segmentDocument_entryCount {policySha : String} {r r' : SegmentHashResult}
    (h : segmentDocument policySha r = segmentDocument policySha r') :
    r.entryCount = r'.entryCount := by
  unfold segmentDocument at h
  simp only [PyValue.dict.injEq, List.cons.injEq, Prod.mk.injEq, PyValue.int.injEq,
    Nat.cast_inj] at h
  exact h.2.1.2

/-- What a computation of a segment can be compared with a published one by. -/
def SegmentHashResult.figures (r : SegmentHashResult) : String × ℕ × Option Int × Option Int :=
  (r.segmentHash, r.entryCount, r.firstId, r.lastId)

theorem computeSegmentHash_figures {t t' : LedgerTable} {year month : Int} {prev : Option String}
    {policySha now : String} {result : SegmentHashResult}
    (h : computeSegmentHash sha256 t year month prev policySha now = .ok result)
    (hids : t'.monthIds year month = t.monthIds year month) (now' : String) :
    ∃ result', computeSegmentHash sha256 t' year month prev policySha now' = .ok result' ∧
      result'.figures = result.figures := by
  unfold computeSegmentHash at h ⊢
  rw [hids]
  cases hq : t.monthIds year month with
  | error e =>
    rw [hq] at h
    cases h
  | ok ids =>
    rw [hq] at h
    cases h
    exact ⟨_, rfl, rfl⟩

/-- A client whose calls can still succeed appends a row at any time it is called. -/
theorem exists_append {calls : List Call} {w : World} (hrun : Run sha256 calls w) {c : LedgerClient}
    (hc : c ∈ w.clients) (hvalid : c.Valid) (hroom : w.ledger.sequence + 1 < 2 ^ 63) (now : Int) :
    ∃ call : Call, w.Allows call ∧ call.env.createdAtUtc = now ∧
      ∃ r : Row, (w.step sha256 call).table.rows = w.table.rows ++ [r] ∧ r.createdAtUtc = now := by
  let call : Call := .append c ⟨now, now, none, false⟩ "schema_segment_transition" .none
    emptyParamHash
  obtain ⟨r, t, happend, hrows⟩ := hrun.append_returns hc hvalid hroom
    ⟨now, now, none, false⟩ rfl "schema_segment_transition" emptyParamHash
    (show canonicalJson .none = .ok "null" from rfl)
  have hstep : (w.step sha256 call).table.rows = w.table.rows ++ [r] := by
    rw [World.step_append_of_eq happend, World.table_mk_some]
    exact hrows
  obtain ⟨new, hnew, hcreated⟩ := w.step_grown sha256 call
  have hr : new = [r] := List.append_cancel_left (hnew.symm.trans hstep)
  exact ⟨call, hc, rfl, r, hstep, hcreated r (by simp [hr])⟩

/-- Published while its month is open, a segment can go stale: the next append may fall
into the month. -/
theorem stale_of_open_month {calls : List Call} {w : World} (hrun : Run sha256 calls w)
    {m : Calendar.Month} {now : Int} (hopen : now < endInstant m) {c : LedgerClient}
    (hc : c ∈ w.clients) (hvalid : c.Valid) (hroom : w.ledger.sequence + 1 < 2 ^ 63) :
    ∃ later w', Run sha256 (calls ++ later) w' ∧ ClockFrom now later ∧
      w'.table.rows.countP (InMonth m) = w.table.rows.countP (InMonth m) + 1 := by
  let at' := max now (firstInstant m)
  obtain ⟨call, hallows, hat, r, hrows, hcreated⟩ := exists_append hrun hc hvalid hroom at'
  refine ⟨[call], w.step sha256 call, hrun.call call hallows, ?_, ?_⟩
  · refine List.isChain_cons_cons.mpr ⟨?_, List.isChain_singleton _⟩
    change now ≤ call.env.createdAtUtc
    rw [hat]
    exact le_max_left _ _
  · have hin : InMonth m r := by
      unfold InMonth
      rw [hcreated]
      exact ⟨le_max_right _ _, max_lt hopen (firstInstant_lt_endInstant m)⟩
    rw [hrows, List.countP_append]
    simp [hin]

/-- A published segment goes stale exactly when it was published too early. Once the clock
has reached the end of its month, every computation in every later state of the run gives
the published figures. Before that, a client that can still append can make it wrong. -/
theorem published_segment_stays {calls : List Call} {w : World} (hrun : Run sha256 calls w)
    {policyVersionSha : String} {env : MonthlyEnv} {args : MonthlyArgs}
    {disk : ArchiveDisk PyValue} {document : PyValue}
    (hpub : (monthlyMain sha256 policyVersionSha env args (.ok w.table) disk).1 =
      .published document) :
    ∃ result, document = segmentDocument policyVersionSha result ∧
      (endInstant args.month ≤ env.now.wall → ∀ later w' now, Run sha256 (calls ++ later) w' →
        ClockFrom env.now.wall later →
        ∃ result', computeSegmentHash sha256 w'.table args.month.year args.month.month
          args.prevSegmentHash policyVersionSha now = .ok result' ∧
            result'.figures = result.figures) ∧
      (env.now.wall < endInstant args.month → ∀ c ∈ w.clients, c.Valid →
        w.ledger.sequence + 1 < 2 ^ 63 →
        ∃ later w', Run sha256 (calls ++ later) w' ∧ ClockFrom env.now.wall later ∧
          ∀ now result', computeSegmentHash sha256 w'.table args.month.year args.month.month
            args.prevSegmentHash policyVersionSha now = .ok result' →
              result'.entryCount = result.entryCount + 1) := by
  obtain ⟨result, hresult, hdocument⟩ := monthlyMain_published hpub
  refine ⟨result, hdocument, fun hover later w' now hlater hclock => ?_,
    fun hopen c hc hvalid hroom => ?_⟩
  · have hw' : w' = w.run sha256 later := by
      rw [hlater.eq_run, World.run_append, ← hrun.eq_run]
    have hgrown : GrownBy w.table.rows w'.table.rows (endInstant args.month ≤ ·) := by
      obtain ⟨new, hnew, hcreated⟩ := w.run_grown sha256 hclock
      exact ⟨new, hw' ▸ hnew, fun r hr => hover.trans (hcreated r hr)⟩
    exact computeSegmentHash_figures hresult
      (monthIds_of_grown hrun.byId_eq hlater.byId_eq hgrown) now
  · obtain ⟨later, w', hlater, hclock, hcount⟩ := stale_of_open_month hrun hopen hc hvalid hroom
    refine ⟨later, w', hlater, hclock, fun now result' hresult' => ?_⟩
    rw [computeSegmentHash_entryCount_eq hresult', computeSegmentHash_entryCount_eq hresult, hcount]

/-- 03:00 KST on 1 July 2027, in UTC. -/
def scheduledTime : Datetime :=
  UtcHour.toDatetime ⟨⟨2027, 6, 30, by decide, by decide⟩, by decide, ⟨18, by decide⟩⟩

def juneArgs : MonthlyArgs := ⟨⟨2027, 6, by decide⟩, none, "segment_hash.json", none⟩

def juneEnv (now : Datetime) : MonthlyEnv := ⟨now, .calm .none, .calm .none⟩

/-- A day after the schedule the month is over. -/
def overTime : Datetime :=
  UtcHour.toDatetime ⟨⟨2027, 7, 1, by decide, by decide⟩, by decide, ⟨18, by decide⟩⟩

/-- The ledger is seeded on the last day of June, and a row is appended. -/
def juneCalls : List Call :=
  [.construct sampleClient ⟨scheduledTime.wall, scheduledTime.wall, none, false⟩,
    .append sampleClient ⟨scheduledTime.wall, scheduledTime.wall, none, false⟩
      "schema_segment_transition" .none emptyParamHash]

/-- In July the next client appends. -/
def julyCalls : List Call :=
  [.construct sampleClient ⟨overTime.wall, overTime.wall, none, false⟩,
    .append sampleClient ⟨overTime.wall, overTime.wall, none, false⟩
      "schema_segment_transition" .none emptyParamHash]

theorem juneCalls_spec :
    World.empty.AllowsAll (fun _ => [0]) juneCalls ∧
    (World.empty.run (fun _ => [0]) juneCalls).AllowsAll (fun _ => [0]) julyCalls ∧
    (World.empty.run (fun _ => [0]) juneCalls).table.rows.countP (InMonth juneArgs.month) = 2 ∧
    ((World.empty.run (fun _ => [0]) juneCalls).run (fun _ => [0]) julyCalls).table.rows.length =
      3 := by
  decide +kernel

/-- June, with its two rows, published in July: a row appended later does not change its
figures. -/
theorem published_segment_stays_june :
    ∃ result result', SegmentHashResult.entryCount result = 2 ∧
      computeSegmentHash (fun _ => [0])
        ((World.empty.run (fun _ => [0]) juneCalls).run (fun _ => [0]) julyCalls).table
        2027 6 none "abcdef1" "" = .ok result' ∧
      result'.figures = SegmentHashResult.figures result := by
  obtain ⟨hjune, hjuly, hcount, -⟩ := juneCalls_spec
  have hrun : Run (fun _ => [0]) juneCalls (World.empty.run (fun _ => [0]) juneCalls) :=
    Run.start.extend hjune
  obtain ⟨document, hpub⟩ := monthlyMain_calm (fun _ => [0]) "abcdef1" (juneEnv overTime)
    juneArgs (World.empty.run (fun _ => [0]) juneCalls).table (fun _ => none) rfl rfl (by decide)
  obtain ⟨first, hfirst, hdocument⟩ := monthlyMain_published hpub
  obtain ⟨result, hresult, hstays, -⟩ := published_segment_stays hrun hpub
  obtain ⟨result', hresult', hfigures⟩ := hstays (by decide) julyCalls _ "" (hrun.extend hjuly)
    (by decide)
  have hentries : result.entryCount = first.entryCount :=
    segmentDocument_entryCount (hresult.symm.trans hdocument)
  exact ⟨result, result',
    hentries.trans ((computeSegmentHash_entryCount_eq hfirst).trans hcount), hresult', hfigures⟩

/-- Published on the documented schedule, the segment of June misses the appends of its
last hours. -/
theorem scheduled_segment_goes_stale :
    ¬ ∀ (sha256 : Bytes → Bytes) (calls : List Call) (w : World) (policyVersionSha : String)
        (env : MonthlyEnv) (args : MonthlyArgs) (disk : ArchiveDisk PyValue) (document : PyValue),
        Run sha256 calls w →
        (monthlyMain sha256 policyVersionSha env args (.ok w.table) disk).1 = .published document →
        ∃ result, document = segmentDocument policyVersionSha result ∧
          ∀ later w' now, Run sha256 (calls ++ later) w' → ClockFrom env.now.wall later →
            ∃ result', computeSegmentHash sha256 w'.table args.month.year args.month.month
              args.prevSegmentHash policyVersionSha now = .ok result' ∧
                result'.figures = result.figures := by
  intro hclaim
  have hrun := seededWorld_run tagDigest sampleClient 0
  obtain ⟨hmem, hroom⟩ := seededWorld_ready tagDigest sampleClient_valid 0
  obtain ⟨document, hpub⟩ := monthlyMain_calm tagDigest "abcdef1" (juneEnv scheduledTime)
    juneArgs (seededWorld tagDigest sampleClient 0).table (fun _ => none) rfl rfl
    (by decide)
  obtain ⟨first, hfirst, hdocument⟩ := monthlyMain_published hpub
  obtain ⟨result, hresult, hstays⟩ := hclaim _ _ _ _ _ _ _ _ hrun hpub
  obtain ⟨later, w', hlater, hclock, hcount⟩ := stale_of_open_month hrun
    (show scheduledTime.wall < endInstant juneArgs.month by decide) hmem sampleClient_valid hroom
  obtain ⟨result', hresult', hfigures⟩ := hstays later w' "" hlater hclock
  have hentries : result.entryCount = first.entryCount :=
    segmentDocument_entryCount (hresult.symm.trans hdocument)
  have hsame : result'.entryCount = result.entryCount := congrArg (fun f => f.2.1) hfigures
  rw [computeSegmentHash_entryCount_eq hresult', hcount, hentries,
    computeSegmentHash_entryCount_eq hfirst] at hsame
  exact absurd hsame (by simp [juneArgs])

end Athena
