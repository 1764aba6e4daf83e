import Athena.Ledger.AppendOnly

/-!
# Constructions on a database without a genesis row

The genesis row needs id 1, and its id is drawn from a sequence that gives
nothing back. A construction that fails behind the draw therefore leaves a
database that no construction can seed.
-/

namespace Athena

variable {sha256 : Bytes → Bytes}

structure Construction where
  client : LedgerClient
  env : CallEnv
  deriving DecidableEq

namespace Construction

def toCall (p : Construction) : Call := .construct p.client p.env

/-- On a database without genesis row, the construction gets as far as its INSERT. -/
def Inserts (p : Construction) : Prop :=
  p.env.fails ≠ some .createSchema ∧ p.env.fails ≠ some .select ∧
    IsAscii p.client.policyVersionSha

/-- Nothing but the id of the row speaks against the INSERT. -/
def Admissible (p : Construction) : Prop :=
  p.env.fails ≠ some .insert ∧ -2 ^ 31 ≤ p.client.userId ∧ p.client.userId < 2 ^ 31

/-- The construction writes the genesis row, if the sequence is untouched. -/
def Seeds (p : Construction) : Prop := p.Inserts ∧ p.Admissible

/-- The INSERT fails after `nextval` has been drawn. -/
def Wastes (p : Construction) : Prop := p.Inserts ∧ ¬ p.Admissible ∧ p.env.drawn = true

instance (p : Construction) : Decidable p.Inserts := inferInstanceAs (Decidable (_ ∧ _ ∧ _))

instance (p : Construction) : Decidable p.Admissible := inferInstanceAs (Decidable (_ ∧ _ ∧ _))

instance (p : Construction) : Decidable p.Seeds := inferInstanceAs (Decidable (_ ∧ _))

instance (p : Construction) : Decidable p.Wastes := inferInstanceAs (Decidable (_ ∧ _ ∧ _))

theorem Seeds.not_wastes {p : Construction} (h : p.Seeds) : ¬ p.Wastes := fun hw => hw.2.1 h.2

end Construction

/-- Every construction that wastes a sequence value comes after one that has seeded. -/
def NoneWasted (ps : List Construction) : Prop :=
  ∀ a p b, ps = a ++ p :: b → p.Wastes → ∃ q ∈ a, q.Seeds

namespace Ledger

def Fresh (l : Ledger) : Prop := l.table.rows = [] ∧ l.sequence = 0

def Seeded (l : Ledger) : Prop :=
  ∃ r, l.table.rows = [r] ∧ r.id = 1 ∧ r.prevHash = none ∧ r.eventType = "genesis"

/-- No row, and the value that the genesis row needs is gone. -/
def Burnt (l : Ledger) : Prop := l.table.rows = [] ∧ 1 ≤ l.sequence

theorem Burnt.not_seeded {l : Ledger} (h : l.Burnt) : ¬ l.Seeded := by
  rintro ⟨r, hrows, -⟩
  rw [h.1] at hrows
  cases hrows

end Ledger

namespace LedgerClient

/-- The genesis seeding of an empty table is its INSERT, if it gets that far. -/
theorem ensureGenesis_of_empty (sha256 : Bytes → Bytes) {c : LedgerClient} {env : CallEnv}
    {l : Ledger} (hrows : l.table.rows = []) (hselect : env.fails ≠ some .select)
    (hsha : IsAscii c.policyVersionSha) :
    ∃ f thisHash, f.prevHash = none ∧ f.eventType = "genesis" ∧ f.userId = c.userId ∧
      c.ensureGenesis sha256 env l =
        l.insertRow env (c.rowOf env f thisHash emptyParamHash) := by
  obtain ⟨payloadJson, hpayload⟩ := genesisPayload_isOk c.policyVersionSha
  obtain ⟨thisHash, hthis⟩ := (@computeEntryHash_isOk_iff sha256
    ⟨none, payloadJson, c.policyVersionSha, "genesis", c.userId⟩).mpr ⟨isAscii_empty, hsha⟩
  refine ⟨⟨none, payloadJson, c.policyVersionSha, "genesis", c.userId⟩, thisHash, rfl, rfl, rfl, ?_⟩
  unfold ensureGenesis
  rw [if_neg hselect, if_neg (by simp [hrows]), write_eq hpayload hthis]

theorem ensureGenesis_of_not_inserts {c : LedgerClient} {env : CallEnv} {l : Ledger}
    (hrows : l.table.rows = [])
    (hnot : ¬ (env.fails ≠ some .select ∧ IsAscii c.policyVersionSha)) :
    (c.ensureGenesis sha256 env l).2 = l := by
  unfold ensureGenesis
  by_cases hselect : env.fails = some .select
  · rw [if_pos hselect]
  · obtain ⟨payloadJson, hpayload⟩ := genesisPayload_isOk c.policyVersionSha
    have hsha : ¬ IsAscii c.policyVersionSha := fun h => hnot ⟨hselect, h⟩
    rw [if_neg hselect, if_neg (by simp [hrows]), write, hpayload]
    dsimp only
    rw [computeEntryHash_eq, if_neg fun h => hsha h.2]

end LedgerClient

namespace World

theorem step_construct_ledger (sha256 : Bytes → Bytes) (w : World) (p : Construction) :
    (w.step sha256 p.toCall).ledger =
      if p.env.fails = some .createSchema then w.ledger
      else (p.client.ensureGenesis sha256 p.env w.ledger).2 := by
  simp only [Construction.toCall, step, LedgerClient.init]
  split_ifs <;> rfl

end World

theorem Ledger.insertRow_empty_ok {l : Ledger} {env : CallEnv} {row : Int → Row}
    (hrows : l.table.rows = []) (henv : env.fails ≠ some .insert)
    (hadm : (row (l.sequence + 1)).Admitted) :
    (l.insertRow env row).2.table.rows = [row (l.sequence + 1)] := by
  obtain ⟨t, ht, hinsert⟩ := l.insertRow_ok env henv hadm (by simp [hrows])
  rw [hinsert]
  exact ht.trans (by rw [hrows, List.nil_append])

theorem Ledger.insertRow_fails {l : Ledger} {env : CallEnv} {row : Int → Row}
    (hnot : ¬ (env.fails ≠ some .insert ∧ (row (l.sequence + 1)).Admitted)) :
    l.insertRow env row =
      (.error .duckdbError, if env.drawn then ⟨l.table, l.sequence + 1⟩ else l) := by
  unfold Ledger.insertRow
  by_cases henv : env.fails = some .insert
  · rw [if_pos henv]
  · have hadm : ¬ (row (l.sequence + 1)).Admitted := fun h => hnot ⟨henv, h⟩
    rw [if_neg henv, LedgerTable.insert?, dif_neg fun h => hadm h.1]

/-- The row of a genesis seeding is admitted exactly when it gets id 1 and its user fits. -/
theorem LedgerClient.rowOf_admitted_iff {c : LedgerClient} {env : CallEnv} {f : EntryFields}
    {thisHash : String} {id : Int} (hprev : f.prevHash = none) (huser : f.userId = c.userId) :
    (c.rowOf env f thisHash emptyParamHash id).Admitted ↔
      id = 1 ∧ -2 ^ 31 ≤ c.userId ∧ c.userId < 2 ^ 31 := by
  simp only [Row.Admitted, rowOf, hprev, huser]
  constructor
  · rintro ⟨-, hrange, ⟨hid, -⟩ | ⟨-, hnone⟩⟩
    · exact ⟨hid, hrange⟩
    · exact absurd rfl hnone
  · rintro ⟨rfl, hrange⟩
    exact ⟨by decide, hrange, .inl ⟨rfl, trivial⟩⟩

namespace World

variable {w : World} {p : Construction}

theorem ledger_of_not_inserts (hrows : w.table.rows = []) (hnot : ¬ p.Inserts) :
    (w.step sha256 p.toCall).ledger = w.ledger := by
  rw [step_construct_ledger]
  by_cases hschema : p.env.fails = some .createSchema
  · rw [if_pos hschema]
  · rw [if_neg hschema]
    exact LedgerClient.ensureGenesis_of_not_inserts hrows fun h => hnot ⟨hschema, h⟩

theorem ledger_of_inserts (sha256 : Bytes → Bytes) (hrows : w.table.rows = []) (h : p.Inserts) :
    ∃ f thisHash, f.prevHash = none ∧ f.eventType = "genesis" ∧ f.userId = p.client.userId ∧
      (w.step sha256 p.toCall).ledger =
        (w.ledger.insertRow p.env (p.client.rowOf p.env f thisHash emptyParamHash)).2 := by
  obtain ⟨f, thisHash, hprev, hevent, huser, hensure⟩ :=
    LedgerClient.ensureGenesis_of_empty sha256 hrows h.2.1 h.2.2
  refine ⟨f, thisHash, hprev, hevent, huser, ?_⟩
  rw [step_construct_ledger, if_neg h.1, hensure]

theorem seeded_of_seeds (hfresh : w.ledger.Fresh) (h : p.Seeds) :
    (w.step sha256 p.toCall).ledger.Seeded := by
  obtain ⟨f, thisHash, hprev, hevent, huser, hstep⟩ := ledger_of_inserts sha256 hfresh.1 h.1
  have hadm : (p.client.rowOf p.env f thisHash emptyParamHash (w.ledger.sequence + 1)).Admitted :=
    (LedgerClient.rowOf_admitted_iff hprev huser).mpr ⟨by rw [hfresh.2, zero_add], h.2.2⟩
  rw [hstep]
  refine ⟨_, Ledger.insertRow_empty_ok hfresh.1 h.2.1 hadm, ?_, hprev, hevent⟩
  rw [LedgerClient.rowOf_id, hfresh.2, zero_add]

/-- Without an admissible INSERT, an empty table stays empty and the sequence moves on with
the value drawn. -/
theorem ledger_of_not_admissible (sha256 : Bytes → Bytes) (hrows : w.table.rows = [])
    (hnot : ¬ p.Admissible ∨ w.ledger.sequence ≠ 0) :
    (w.step sha256 p.toCall).ledger.table.rows = [] ∧
      (w.step sha256 p.toCall).ledger.sequence =
        if p.Inserts ∧ p.env.drawn = true then w.ledger.sequence + 1 else w.ledger.sequence := by
  by_cases hinserts : p.Inserts
  · obtain ⟨f, thisHash, hprev, -, huser, hstep⟩ :=
      ledger_of_inserts sha256 hrows hinserts
    have hfails : ¬ (p.env.fails ≠ some .insert ∧
        (p.client.rowOf p.env f thisHash emptyParamHash (w.ledger.sequence + 1)).Admitted) := by
      rintro ⟨henv, hadm⟩
      obtain ⟨hid, hrange⟩ := (LedgerClient.rowOf_admitted_iff hprev huser).mp hadm
      rcases hnot with hnot | hseq
      · exact hnot ⟨henv, hrange⟩
      · omega
    rw [hstep, Ledger.insertRow_fails hfails]
    by_cases hdrawn : p.env.drawn = true
    · rw [if_pos hdrawn, if_pos ⟨hinserts, hdrawn⟩]
      exact ⟨hrows, rfl⟩
    · rw [if_neg hdrawn, if_neg fun h => hdrawn h.2]
      exact ⟨hrows, rfl⟩
  · rw [ledger_of_not_inserts hrows hinserts, if_neg fun h => hinserts h.1]
    exact ⟨hrows, rfl⟩

theorem burnt_of_wastes (hfresh : w.ledger.Fresh) (h : p.Wastes) :
    (w.step sha256 p.toCall).ledger.Burnt := by
  obtain ⟨hrows, hseq⟩ := ledger_of_not_admissible sha256 hfresh.1 (.inl h.2.1)
  refine ⟨hrows, ?_⟩
  rw [hseq, if_pos ⟨h.1, h.2.2⟩, hfresh.2]
  decide

theorem fresh_of_neither (hfresh : w.ledger.Fresh) (hseeds : ¬ p.Seeds) (hwastes : ¬ p.Wastes) :
    (w.step sha256 p.toCall).ledger.Fresh := by
  by_cases hadm : p.Admissible
  · have hinserts : ¬ p.Inserts := fun h => hseeds ⟨h, hadm⟩
    rw [ledger_of_not_inserts hfresh.1 hinserts]
    exact hfresh
  · obtain ⟨hrows, hseq⟩ := ledger_of_not_admissible sha256 hfresh.1 (.inl hadm)
    refine ⟨hrows, ?_⟩
    rw [hseq, if_neg fun h => hwastes ⟨h.1, hadm, h.2⟩]
    exact hfresh.2

theorem burnt_step (hburnt : w.ledger.Burnt) : (w.step sha256 p.toCall).ledger.Burnt := by
  have hpos := hburnt.2
  obtain ⟨hrows, hseq⟩ := ledger_of_not_admissible sha256 hburnt.1
    (.inr (by omega : w.ledger.sequence ≠ 0)) (p := p)
  refine ⟨hrows, ?_⟩
  rw [hseq]
  split_ifs <;> omega

theorem seeded_step (hseeded : w.ledger.Seeded) : (w.step sha256 p.toCall).ledger.Seeded := by
  obtain ⟨r, hrows, hid, hfields⟩ := hseeded
  have hsame : (w.step sha256 p.toCall).table.rows = w.table.rows :=
    World.rows_construct p.client p.env ⟨r, by simp [table, hrows], hid⟩
  exact ⟨r, hsame.trans hrows, hid, hfields⟩

end World

/-- The world after the given constructions on an empty database. -/
def constructed (sha256 : Bytes → Bytes) (ps : List Construction) : World :=
  World.empty.run sha256 (ps.map Construction.toCall)

theorem constructed_snoc (ps : List Construction) (p : Construction) :
    constructed sha256 (ps ++ [p]) = (constructed sha256 ps).step sha256 p.toCall := by
  rw [constructed, List.map_append, World.run_append]
  rfl

/-- Where a sequence of constructions has led, by induction on it: the first construction
that seeds or wastes decides. -/
theorem constructed_stage (sha256 : Bytes → Bytes) (ps : List Construction) :
    ((constructed sha256 ps).ledger.Fresh ∧ ∀ p ∈ ps, ¬ p.Seeds ∧ ¬ p.Wastes) ∨
    ((constructed sha256 ps).ledger.Seeded ∧
      ∃ a p b, ps = a ++ p :: b ∧ p.Seeds ∧ ∀ q ∈ a, ¬ q.Wastes) ∨
    ((constructed sha256 ps).ledger.Burnt ∧
      ∃ a p b, ps = a ++ p :: b ∧ p.Wastes ∧ ∀ q ∈ a, ¬ q.Seeds) := by
  induction ps using List.reverseRecOn with
  | nil => exact .inl ⟨⟨rfl, rfl⟩, fun p hp => absurd hp List.not_mem_nil⟩
  | append_singleton ps p ih =>
    rw [constructed_snoc]
    rcases ih with ⟨hfresh, hneither⟩ | ⟨hseeded, a, q, b, rfl, hq, ha⟩ |
      ⟨hburnt, a, q, b, rfl, hq, ha⟩
    · by_cases hseeds : p.Seeds
      · exact .inr (.inl ⟨World.seeded_of_seeds hfresh hseeds, ps, p, [], rfl, hseeds,
          fun q hq => (hneither q hq).2⟩)
      by_cases hwastes : p.Wastes
      · exact .inr (.inr ⟨World.burnt_of_wastes hfresh hwastes, ps, p, [], rfl, hwastes,
          fun q hq => (hneither q hq).1⟩)
      · refine .inl ⟨World.fresh_of_neither hfresh hseeds hwastes, ?_⟩
        intro q hq
        rcases List.mem_append.mp hq with hq | hq
        · exact hneither q hq
        · rw [List.mem_singleton.mp hq]
          exact ⟨hseeds, hwastes⟩
    · exact .inr (.inl ⟨World.seeded_step hseeded, a, q, b ++ [p], by simp, hq, ha⟩)
    · exact .inr (.inr ⟨World.burnt_step hburnt, a, q, b ++ [p], by simp, hq, ha⟩)

/-- The ledger is burnt exactly when a sequence value has been wasted before any seeding. -/
theorem constructed_burnt_iff (sha256 : Bytes → Bytes) (ps : List Construction) :
    (constructed sha256 ps).ledger.Burnt ↔ ¬ NoneWasted ps := by
  constructor
  · intro hburnt hnone
    rcases constructed_stage sha256 ps with ⟨hfresh, -⟩ | ⟨hseeded, -⟩ |
      ⟨-, a, p, b, rfl, hp, ha⟩
    · have hpos := hburnt.2
      rw [hfresh.2] at hpos
      exact absurd hpos (by decide)
    · exact hburnt.not_seeded hseeded
    · obtain ⟨q, hq, hseeds⟩ := hnone a p b rfl hp
      exact ha q hq hseeds
  · intro hwasted
    rcases constructed_stage sha256 ps with ⟨-, hneither⟩ |
      ⟨-, a, q, b, rfl, hq, ha⟩ | ⟨hburnt, -⟩
    · refine absurd ?_ hwasted
      rintro a p b rfl hp
      exact absurd hp (hneither p (by simp)).2
    · refine absurd ?_ hwasted
      intro a' p b' heq hp
      -- `p` wastes and nothing up to `q` does, so `q` stands before `p`
      rcases List.append_eq_append_iff.mp heq with ⟨d, rfl, hd⟩ | ⟨d, rfl, hd⟩
      · cases d with
        | nil =>
          cases hd
          exact absurd hp hq.not_wastes
        | cons x d =>
          cases hd
          exact ⟨q, by simp, hq⟩
      · cases d with
        | nil =>
          cases hd
          exact absurd hp hq.not_wastes
        | cons x d =>
          cases hd
          exact absurd hp (ha p (by simp))
    · exact hburnt

namespace World

variable {w : World} {c : LedgerClient} {env : CallEnv}

theorem init_ok_of_seeded (henv : env.fails = none) (hseeded : w.ledger.Seeded) :
    (c.init sha256 env w.db).1 = .ok () := by
  obtain ⟨r, hrows, hid, -⟩ := hseeded
  have hany : ((createPreTradeLedger w.db).table.rows.any fun r => r.id = 1) = true :=
    List.any_eq_true.mpr ⟨r, by rw [createPreTradeLedger]; exact hrows ▸ List.mem_singleton_self r,
      by simp [hid]⟩
  unfold LedgerClient.init LedgerClient.ensureGenesis
  rw [if_neg (by simp [henv]), if_neg (by simp [henv]), if_pos hany]

theorem init_ok_of_fresh (henv : env.fails = none) (hvalid : c.Valid) (hfresh : w.ledger.Fresh) :
    (c.init sha256 env w.db).1 = .ok () := by
  obtain ⟨f, thisHash, hprev, -, huser, hensure⟩ :=
    LedgerClient.ensureGenesis_of_empty sha256 hfresh.1 (by rw [henv]; exact nofun :
      env.fails ≠ some .select) hvalid.1
  have hadm : (c.rowOf env f thisHash emptyParamHash (w.ledger.sequence + 1)).Admitted :=
    (LedgerClient.rowOf_admitted_iff hprev huser).mpr ⟨by rw [hfresh.2, zero_add], hvalid.2⟩
  obtain ⟨t, -, hinsert⟩ := w.ledger.insertRow_ok env (by simp [henv]) hadm (by simp [hfresh.1])
  unfold LedgerClient.init
  rw [if_neg (by simp [henv])]
  change (c.ensureGenesis sha256 env w.ledger).1 = .ok ()
  rw [hensure, hinsert]

theorem init_fails_of_burnt (henv : env.fails = none) (hvalid : c.Valid)
    (hburnt : w.ledger.Burnt) : (c.init sha256 env w.db).1 = .error .duckdbError := by
  have hpos := hburnt.2
  obtain ⟨f, thisHash, hprev, -, huser, hensure⟩ :=
    LedgerClient.ensureGenesis_of_empty sha256 hburnt.1 (by rw [henv]; exact nofun :
      env.fails ≠ some .select) hvalid.1
  have hfails : ¬ (env.fails ≠ some .insert ∧
      (c.rowOf env f thisHash emptyParamHash (w.ledger.sequence + 1)).Admitted) := by
    rintro ⟨-, hadm⟩
    have hid := ((LedgerClient.rowOf_admitted_iff hprev huser).mp hadm).1
    omega
  unfold LedgerClient.init
  rw [if_neg (by simp [henv])]
  change (c.ensureGenesis sha256 env w.ledger).1 = .error .duckdbError
  rw [hensure, Ledger.insertRow_fails hfails]

end World

/-- After any constructions, one more that nothing speaks against leaves exactly the genesis
row, and returns, if and only if no sequence value had been wasted before the seeding. -/
theorem construct_repairs_iff (sha256 : Bytes → Bytes) (ps : List Construction) {c : LedgerClient}
    {env : CallEnv} (hvalid : c.Valid) (henv : env.fails = none) :
    ((c.init sha256 env (constructed sha256 ps).db).1 = .ok () ∧
      (constructed sha256 (ps ++ [⟨c, env⟩])).ledger.Seeded) ↔ NoneWasted ps := by
  rw [constructed_snoc]
  constructor
  · rintro ⟨-, hseeded⟩
    by_contra hwasted
    have hburnt := (constructed_burnt_iff sha256 ps).mpr hwasted
    exact (World.burnt_step hburnt).not_seeded hseeded
  · intro hnone
    rcases constructed_stage sha256 ps with ⟨hfresh, -⟩ | ⟨hseeded, -⟩ | ⟨hburnt, -⟩
    · refine ⟨World.init_ok_of_fresh henv hvalid hfresh, World.seeded_of_seeds hfresh ?_⟩
      exact ⟨⟨by simp [henv], by simp [henv], hvalid.1⟩, by simp [henv], hvalid.2⟩
    · exact ⟨World.init_ok_of_seeded henv hseeded, World.seeded_step hseeded⟩
    · exact absurd hnone ((constructed_burnt_iff sha256 ps).mp hburnt)

def wideClient : LedgerClient := { sampleClient with userId := 2 ^ 31 }

/-- A failing construction behind the seeding one does no harm. -/
theorem construct_repairs_behind :
    (sampleClient.init (fun _ => [0]) ⟨2, 2, none, true⟩
        (constructed (fun _ => [0])
          [⟨sampleClient, ⟨0, 0, none, true⟩⟩, ⟨wideClient, ⟨1, 1, none, true⟩⟩]).db).1 = .ok () ∧
      (constructed (fun _ => [0]) ([⟨sampleClient, ⟨0, 0, none, true⟩⟩,
        ⟨wideClient, ⟨1, 1, none, true⟩⟩] ++ [⟨sampleClient, ⟨2, 2, none, true⟩⟩])).ledger.Seeded
        := by
  refine (construct_repairs_iff (fun _ => [0]) _ sampleClient_valid rfl).mpr ?_
  rintro (_ | ⟨q, a⟩) p b h hp
  · obtain ⟨rfl, -⟩ := List.cons.inj h
    exact absurd hp (by decide)
  · obtain ⟨rfl, -⟩ := List.cons.inj h
    exact ⟨_, List.mem_cons_self, by decide⟩

/-- One `user_id` outside INTEGER, and the valid construction behind it raises and leaves no
genesis row. -/
theorem failed_seed_not_repaired :
    sampleClient.Valid ∧
      (sampleClient.init (fun _ => [0]) ⟨1, 1, none, true⟩
        (constructed (fun _ => [0]) [⟨wideClient, ⟨0, 0, none, true⟩⟩]).db).1 =
          .error .duckdbError ∧
      (constructed (fun _ => [0]) [⟨wideClient, ⟨0, 0, none, true⟩⟩,
        ⟨sampleClient, ⟨1, 1, none, true⟩⟩]).table.rows = [] := by
  have hburnt : (constructed (fun _ => [0]) [⟨wideClient, ⟨0, 0, none, true⟩⟩]).ledger.Burnt :=
    World.burnt_of_wastes (w := World.empty) ⟨rfl, rfl⟩ (by decide)
  have hlater := @World.burnt_step (fun _ => [0]) _ ⟨sampleClient, ⟨1, 1, none, true⟩⟩ hburnt
  exact ⟨sampleClient_valid, World.init_fails_of_burnt rfl sampleClient_valid hburnt, hlater.1⟩

end Athena
