import Athena.Shards.ExportMain
import Athena.Shards.Runs

/-!
# What a failed export leaves behind

A run of the command stops at the first failure and takes nothing back. It leaves
the shards as they were only if it stops at the first shard it comes to, which
the inputs determine.
-/

namespace Athena

variable {β : Type}

/-- Readers see the same files with the same contents. -/
def SameShards (t t' : Tree β) : Prop := ∀ p, IsParquet p → t'.lookup p = t.lookup p

/-- A shard to write. -/
structure PlannedShard (β : Type) where
  table : Table
  sym : Option String
  env : ExportEnv β

/-- The first shard a run comes to: that of the first symbol of the first table with rows,
if the queries work up to there. -/
def firstShard (hour : Datetime) (src : Source) (env : ℕ → ExportEnv β) :
    ℕ → List String → Option (PlannedShard β)
  | _, [] => none
  | i, name :: names =>
    match Table.ofName? name, exportWindow hour, (env i).queryFails with
    | some table, .ok (lo, hi), none =>
      match table.uniqueSymbols (table.queryWindow src lo hi) with
      | [] => firstShard hour src env (i + 1) names
      | sym :: _ => some ⟨table, sym, env i⟩
    | _, _, _ => none

/-- The shard gets published: its symbol is valid, its name is free, and nothing goes wrong
before the rename is done. -/
def PlannedShard.Publishable (shard : PlannedShard β) (hour : Datetime) (t : Tree β) : Prop :=
  ∃ part, partSym shard.sym = .ok part ∧
    t.lookup (shardPath (partitionDir shard.table hour.date hour.hour) part) = none ∧
    ((shard.env.writes 0).fault = none ∨ (shard.env.writes 0).fault = some .stat)

/-- The run comes to no shard that it can publish as its first one. -/
def FirstShardBlocked (args : ExportArgs) (env : ExportMainEnv β) (src : Source) (t : Tree β) :
    Prop :=
  ∀ hour, args.hour = .ok hour → invalidTables args.tableList = [] → env.openFails = none →
    ∀ shard, firstShard hour src env.exports 0 args.tableList = some shard →
      ¬ shard.Publishable hour t

variable (codec : ParquetCodec β)

section Symbol

variable (env : ExportEnv β) (table : Table) (df : Frame) (hour : Datetime)
  {sym : Option String} (acc : Totals) {t : Tree β}

/-- A shard that cannot be published ends the loop and leaves the shards as they were. -/
theorem exportSymbol_blocked (hrows : (table.withSymbol df sym).rows ≠ [])
    (hblocked : ¬ PlannedShard.Publishable ⟨table, sym, env⟩ hour t) :
    let out := exportSymbol codec .fail env table (partitionDir table hour.date hour.hour) df 0
      sym acc t
    (∃ e, out.1 = .error e) ∧ ∀ u ∈ out.2, SameShards t u := by
  dsimp only
  rcases exportSymbol_cases codec .fail env table (partitionDir table hour.date hour.hour) df 0
    sym acc t with ⟨htrace, hfails⟩ | ⟨part, -, hpart, hfree, hwrite⟩
  · rw [htrace]
    exact ⟨(hfails rfl hrows).1, fun u hu => absurd hu List.not_mem_nil⟩
  · obtain ⟨⟨e, herror⟩, hhidden⟩ := writeShard_hidden codec (env.writes 0)
      (tmpPath (partitionDir table hour.date hour.hour) part env.pid)
      (shardPath (partitionDir table hour.date hour.hour) part) (table.withSymbol df sym) t
      fun hfault => hblocked ⟨part, hpart, hfree, hfault⟩
    rw [hwrite]
    dsimp only
    rw [herror]
    refine ⟨⟨e, rfl⟩, fun u hu p hp => hhidden u hu p fun heq => ?_⟩
    exact not_isParquet_tmpPath _ part env.pid (heq ▸ hp)

theorem exportSymbol_publishes (hrows : (table.withSymbol df sym).rows ≠ [])
    (hpublish : PlannedShard.Publishable ⟨table, sym, env⟩ hour t) :
    ∃ u ∈ (exportSymbol codec .fail env table (partitionDir table hour.date hour.hour) df 0
      sym acc t).2, ∃ p content, IsParquet p ∧ t.lookup p = none ∧ u.lookup p = some content := by
  obtain ⟨part, hpart, hfree, hfault⟩ := hpublish
  rcases exportSymbol_cases codec .fail env table (partitionDir table hour.date hour.hour) df 0
    sym acc t with ⟨-, hfails⟩ | ⟨part', -, hpart', -, hwrite⟩
  · exact absurd hfree ((hfails rfl hrows).2 part hpart)
  · obtain rfl : part' = part := Except.ok.inj (hpart'.symm.trans hpart)
    let dir := partitionDir table hour.date hour.hour
    let published := (t.erase (tmpPath dir part' env.pid)).insert (shardPath dir part')
      (codec.write (env.writes 0).nonce (table.withSymbol df sym))
    refine ⟨published, ?_, shardPath dir part', _, isParquet_shardPath dir part', hfree,
      AList.lookup_insert _⟩
    rw [hwrite]
    exact mem_writeShard_published codec hfault _ _ _ t

end Symbol

section Tables

variable (hour : Datetime) (src : Source) (env : ℕ → ExportEnv β)

/-- The export of one table fails at once, has nothing to do, or comes to the first shard. -/
theorem firstShard_cases (i : ℕ) (name : String) (names : List String) (t : Tree β) :
    (firstShard hour src env i (name :: names) = none ∧
      ∃ e, exportHourShard codec .fail (env i) name hour src t = (.error e, [])) ∨
    (firstShard hour src env i (name :: names) = firstShard hour src env (i + 1) names ∧
      ∃ result, exportHourShard codec .fail (env i) name hour src t = (.ok result, [])) ∨
    ∃ table sym syms df, firstShard hour src env i (name :: names) = some ⟨table, sym, env i⟩ ∧
      (table.withSymbol df sym).rows ≠ [] ∧
      exportHourShard codec .fail (env i) name hour src t =
        let out := exportSymbols codec .fail (env i) table
          (partitionDir table hour.date hour.hour) df 0 (sym :: syms) ⟨0, 0, 0, []⟩ t
        (out.1.map fun totals => ⟨table, hour, totals⟩, out.2) := by
  rcases exportHourShard_cases codec .fail (env i) name hour src t with
    ⟨hfails, herror⟩ | ⟨table, lo, hi, htable, hwindow, hquery, hrun⟩
  · refine .inl ⟨?_, herror⟩
    rw [firstShard]
    split
    · exact absurd ‹_› (hfails _ _ _ ‹_› ‹_›)
    · rfl
  · rw [firstShard, htable, hwindow, hquery, hrun]
    dsimp only
    generalize table.queryWindow src lo hi = df
    by_cases hrows : df.rows = []
    · rw [Table.uniqueSymbols_eq_nil_iff.mpr hrows, if_pos hrows]
      exact .inr (.inl ⟨rfl, _, rfl⟩)
    · rw [if_neg hrows]
      cases hsyms : table.uniqueSymbols df with
      | nil => exact absurd (Table.uniqueSymbols_eq_nil_iff.mp hsyms) hrows
      | cons sym syms =>
        have hmem : sym ∈ table.uniqueSymbols df := hsyms ▸ List.mem_cons_self
        exact .inr (.inr ⟨table, sym, syms, df, rfl, Table.withSymbol_ne_nil hmem, rfl⟩)

/-- A run whose first shard is blocked stops there, or comes to no shard. -/
theorem exportTables_blocked {i : ℕ} {names : List String} (acc : ExportProgress) {t : Tree β}
    (hblocked : ∀ shard, firstShard hour src env i names = some shard →
      ¬ shard.Publishable hour t) :
    ∀ u ∈ (exportTables codec .fail hour src env i names acc t).2, SameShards t u := by
  induction names generalizing i acc with
  | nil => exact fun u hu => absurd hu List.not_mem_nil
  | cons name names ih =>
    rw [exportTables]
    rcases firstShard_cases codec hour src env i name names t with
      ⟨-, e, hcall⟩ | ⟨hfirst, result, hcall⟩ | ⟨table, sym, syms, df, hfirst, hrows, hcall⟩
    · rw [hcall]
      exact fun u hu => absurd hu List.not_mem_nil
    · rw [hcall]
      exact ih _ fun shard hshard => hblocked shard (hfirst.trans hshard)
    · obtain ⟨⟨e, herror⟩, hsame⟩ := exportSymbol_blocked codec (env i) table df hour
        ⟨0, 0, 0, []⟩ hrows (hblocked _ hfirst)
      rw [hcall, exportSymbols]
      generalize exportSymbol codec .fail (env i) table _ df 0 sym _ t = out at herror hsame
      obtain ⟨out, trace⟩ := out
      obtain rfl : out = .error e := herror
      exact hsame

theorem exportTables_publishes {i : ℕ} {names : List String} (acc : ExportProgress) {t : Tree β}
    {shard : PlannedShard β} (hfirst : firstShard hour src env i names = some shard)
    (hpublish : shard.Publishable hour t) :
    ∃ u ∈ (exportTables codec .fail hour src env i names acc t).2,
      ∃ p content, IsParquet p ∧ t.lookup p = none ∧ u.lookup p = some content := by
  induction names generalizing i acc with
  | nil => cases hfirst
  | cons name names ih =>
    rw [exportTables]
    rcases firstShard_cases codec hour src env i name names t with
      ⟨hnone, -⟩ | ⟨hnext, result, hcall⟩ | ⟨table, sym, syms, df, hsome, hrows, hcall⟩
    · rw [hnone] at hfirst
      cases hfirst
    · rw [hcall]
      exact ih _ (hnext.symm.trans hfirst)
    · obtain rfl : ⟨table, sym, env i⟩ = shard := Option.some.inj (hsome.symm.trans hfirst)
      obtain ⟨u, hu, hchange⟩ := exportSymbol_publishes codec (env i) table df hour
        ⟨0, 0, 0, []⟩ hrows hpublish
      refine ⟨u, ?_, hchange⟩
      rw [hcall, exportSymbols]
      generalize exportSymbol codec .fail (env i) table _ df 0 sym _ t = out at hu
      obtain ⟨out, trace⟩ := out
      cases out with
      | error e => exact hu
      | ok totals =>
        dsimp only
        generalize exportSymbols codec .fail (env i) table _ df _ syms totals _ = rest
        obtain ⟨rest, trace'⟩ := rest
        cases rest with
        | error e => exact List.mem_append_left _ hu
        | ok totals => exact List.mem_append_left _ (List.mem_append_left _ hu)

theorem exportTables_chain (mode : Mode) (i : ℕ) (names : List String) (acc : ExportProgress)
    (t : Tree β) : (t :: (exportTables codec mode hour src env i names acc t).2).IsChain
      (WriteOnce.Step IsParquet fun _ _ => True) := by
  induction names generalizing i acc t with
  | nil => exact List.isChain_singleton t
  | cons name names ih =>
    let call : ExportCall β := ⟨name, hour, mode, src, env i⟩
    rw [exportTables_cons]
    refine followed_chain ?_ fun result _ => ih _ _ _
    exact (call.run_chain codec t).imp fun _ _ hstep => hstep.mono fun _ _ _ => trivial

end Tables

/-- A run stops before the loop over the tables or does what the loop does. -/
theorem exportMain_cases {args : ExportArgs} {env : ExportMainEnv β} {src : Source} {t : Tree β}
    (hmode : args.checkOnly = false) :
    (exportMain codec args env src t).2 = [] ∧ FirstShardBlocked args env src t ∨
    ∃ hour, args.hour = .ok hour ∧ invalidTables args.tableList = [] ∧ env.openFails = none ∧
      (exportMain codec args env src t).2 =
        (exportTables codec .fail hour src env.exports 0 args.tableList ⟨[], 0⟩ t).2 := by
  unfold exportMain FirstShardBlocked
  cases hhour : args.hour with
  | error detail => exact .inl ⟨rfl, fun _ h => nomatch h⟩
  | ok hour =>
    dsimp only
    by_cases hinvalid : invalidTables args.tableList = []
    · rw [if_neg (not_not.mpr hinvalid)]
      cases hopen : env.openFails with
      | some ioException => exact .inl ⟨rfl, fun _ _ _ h => nomatch h⟩
      | none =>
        refine .inr ⟨hour, rfl, hinvalid, rfl, ?_⟩
        rw [hmode]
        dsimp only
        rw [if_neg Bool.false_ne_true]
        generalize exportTables codec .fail hour src env.exports 0 args.tableList ⟨[], 0⟩ t = out
        obtain ⟨result, trace⟩ := out
        cases result <;> rfl
    · rw [if_pos hinvalid]
      exact .inl ⟨rfl, fun _ _ h => absurd h hinvalid⟩

/-- A run in `fail` mode, in particular one that fails, leaves the shards as they were if
and only if the first shard it comes to, if any, cannot be published. -/
theorem export_unchanged_iff (args : ExportArgs) (env : ExportMainEnv β) (src : Source)
    (t : Tree β) (hmode : args.checkOnly = false) :
    SameShards t (t.after (exportMain codec args env src t).2) ↔
      FirstShardBlocked args env src t := by
  rcases exportMain_cases codec hmode with
    ⟨htrace, hblocked⟩ | ⟨hour, hhour, hinvalid, hopen, htrace⟩
  · rw [htrace]
    exact ⟨fun _ => hblocked, fun _ _ _ => rfl⟩
  · rw [htrace]
    constructor
    · intro hsame hour' hhour' _ _ shard hshard hpublish
      obtain rfl : hour = hour' := Except.ok.inj (hhour.symm.trans hhour')
      obtain ⟨u, hu, p, content, hp, hfree, hwritten⟩ :=
        exportTables_publishes codec hour src env.exports ⟨[], 0⟩ hshard hpublish
      have hkept := Tree.lookup_after_of_mem
        (exportTables_chain codec hour src env.exports .fail 0 args.tableList ⟨[], 0⟩ t) hu hp
        hwritten
      rw [hsame p hp, hfree] at hkept
      cases hkept
    · intro hblocked
      apply Tree.after_of (P := SameShards t) fun _ _ => rfl
      exact exportTables_blocked codec hour src env.exports ⟨[], 0⟩
        (hblocked hour hhour hinvalid hopen)

section Sample

/-- `--hour 2026-04-21T10 --tables news`, in the mode that writes. -/
def newsArgs : ExportArgs := ⟨.ok tenOClock.toDatetime, "news", false⟩

def calmMainEnv : ExportMainEnv Frame := ⟨none, fun _ => calmEnv⟩

/-- The second symbol is rejected after the first has been published, and once its row is
gone the same command stops at the file that the first run left. -/
theorem rejected_symbol_leaves_shard :
    let start := tenOClock.index * microsPerHour
    let bad := newsSource [(start, some "A"), (start, some "B/")]
    let good := newsSource [(start, some "A")]
    let t := Tree.after ∅ (exportMain plainCodec newsArgs calmMainEnv bad ∅).2
    (exportMain plainCodec newsArgs calmMainEnv bad ∅).1.exitCode = 4 ∧
      ¬ SameShards ∅ t ∧
      (exportMain plainCodec newsArgs calmMainEnv good t).1.exitCode = 1 := by
  intro start bad good t
  refine ⟨by decide, fun hsame => ?_, by decide⟩
  have hnone := hsame (shardPath (partitionDir .news tenOClock.date tenOClock.hour) "A")
    (isParquet_shardPath _ _)
  rw [AList.lookup_empty] at hnone
  exact absurd hnone (by decide)

/-- With an invalid symbol first, nothing is left behind. -/
theorem export_unchanged_iff_rejected :
    let src := newsSource [(tenOClock.index * microsPerHour, some "B/")]
    (exportMain plainCodec newsArgs calmMainEnv src ∅).1.exitCode = 4 ∧
      (SameShards ∅ (Tree.after ∅ (exportMain plainCodec newsArgs calmMainEnv src ∅).2) ↔
        FirstShardBlocked newsArgs calmMainEnv src ∅) :=
  ⟨by decide, export_unchanged_iff plainCodec newsArgs calmMainEnv _ ∅ rfl⟩

end Sample

end Athena
