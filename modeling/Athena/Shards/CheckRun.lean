import Athena.Shards.CheckPlan

/-!
# Checks do what was planned

Each loop of the exporter in check mode is described by its plan. What a loop
writes does not disturb the plan of what comes later: symbols have their own
files and tables their own directories.
-/

namespace Athena

variable {β : Type} (codec : ParquetCodec β)

section Symbols

variable (env : ExportEnv β) (table : Table) (dir : Path) (df : Frame)

theorem exportSymbol_describes (i : ℕ) {sym : Option String} (acc : Totals) (t : Tree β)
    (hrows : (table.withSymbol df sym).rows ≠ []) :
    (planSymbol codec env table dir df t i sym).Describes codec t
      (∃ acc', (exportSymbol codec .check env table dir df i sym acc t).1 = .ok acc')
      (exportSymbol codec .check env table dir df i sym acc t).2 := by
  unfold planSymbol exportSymbol
  dsimp only
  rw [if_neg hrows]
  cases partSym sym with
  | error e => simpa using CheckPlan.Describes.stop codec t
  | ok part =>
    dsimp only
    cases hlookup : t.lookup (shardPath dir part) with
    | some content =>
      dsimp only
      rw [if_neg (by decide)]
      cases codec.read content with
      | none => simpa using CheckPlan.Describes.stop codec t
      | some existing =>
        dsimp only [Option.any_some]
        cases existing.dataEquals (table.withSymbol df sym) with
        | true => simpa using CheckPlan.Describes.nothing codec t
        | false => simpa using CheckPlan.Describes.stop codec t
    | none =>
      dsimp only
      have hok : (∃ size, (writeShard codec (env.writes i) (tmpPath dir part env.pid)
          (shardPath dir part) (table.withSymbol df sym) t).1 = .ok size) ↔
          (env.writes i).fault = none := writeShard_isOk_iff codec
      refine ⟨?_, fun h => (nomatch h), fun m rest hm => ?_⟩
      · unfold CheckPlan.Succeeds
        simp only [true_and, List.mem_singleton, forall_eq]
        rw [← hok]
        generalize writeShard codec (env.writes i) _ _ _ t = out
        obtain ⟨result, trace⟩ := out
        cases result <;> simp
      · obtain ⟨rfl, -⟩ := List.cons.inj hm
        refine ⟨hlookup, [], ?_, fun _ => rfl⟩
        rw [List.append_nil, MissingShard.write]
        dsimp only [MissingShard.tmpFile, MissingShard.outFile]
        generalize writeShard codec (env.writes i) _ _ _ t = out
        obtain ⟨result, trace⟩ := out
        cases result <;> rfl

theorem exportSymbol_frame (mode : Mode) (i : ℕ) {sym : Option String} (acc : Totals) (t : Tree β)
    {p : Path} (hp : IsParquet p) (hne : ∀ part, partSym sym = .ok part → p ≠ shardPath dir part) :
    (t.after (exportSymbol codec mode env table dir df i sym acc t).2).lookup p = t.lookup p := by
  rcases exportSymbol_cases codec mode env table dir df i sym acc t with
    ⟨htrace, -⟩ | ⟨part, -, hpart, -, hwrite⟩
  · rw [htrace]
    rfl
  · rw [hwrite]
    have htmp : p ≠ tmpPath dir part env.pid := fun heq =>
      not_isParquet_tmpPath dir part env.pid (heq ▸ hp)
    apply Tree.after_of (P := fun u => u.lookup p = t.lookup p) rfl
    intro u hu
    exact writeShard_frame codec _ _ _ _ t u hu p htmp (hne part hpart)

theorem exportSymbols_frame (mode : Mode) (i : ℕ) {syms : List (Option String)} (acc : Totals)
    (t : Tree β) {p : Path} (hp : IsParquet p)
    (hne : ∀ sym ∈ syms, ∀ part, partSym sym = .ok part → p ≠ shardPath dir part) :
    (t.after (exportSymbols codec mode env table dir df i syms acc t).2).lookup p =
      t.lookup p := by
  induction syms generalizing i acc t with
  | nil => rfl
  | cons sym syms ih =>
    have hfirst := exportSymbol_frame codec env table dir df mode i acc t hp
      (hne sym List.mem_cons_self)
    rw [exportSymbols_cons]
    generalize exportSymbol codec mode env table dir df i sym acc t = out at hfirst
    obtain ⟨result, trace⟩ := out
    cases result with
    | error e => exact hfirst
    | ok acc' =>
      dsimp only [followed]
      rw [t.after_append, ih _ _ _ fun s hs => hne s (List.mem_cons_of_mem sym hs)]
      exact hfirst

/-- The loop is described by its plan, by induction on the symbols that remain: none of them
is affected by the first one. -/
theorem exportSymbols_describes (i : ℕ) {syms : List (Option String)} (acc : Totals) (t : Tree β)
    (hnodup : syms.Nodup) (hrows : ∀ sym ∈ syms, (table.withSymbol df sym).rows ≠ []) :
    (planSymbols codec env table dir df t i syms).Describes codec t
      (∃ acc', (exportSymbols codec .check env table dir df i syms acc t).1 = .ok acc')
      (exportSymbols codec .check env table dir df i syms acc t).2 := by
  induction syms generalizing i acc t with
  | nil => simpa [exportSymbols, planSymbols] using CheckPlan.Describes.nothing codec t
  | cons sym syms ih =>
    obtain ⟨hsym, hnodup⟩ := List.nodup_cons.mp hnodup
    rw [planSymbols, exportSymbols_cons]
    refine (exportSymbol_describes codec env table dir df i acc t
      (hrows sym List.mem_cons_self)).followed fun acc' _ => ?_
    have hplan : planSymbols codec env table dir df
        (t.after (exportSymbol codec .check env table dir df i sym acc t).2) (i + 1) syms =
        planSymbols codec env table dir df t (i + 1) syms := by
      refine planSymbols_congr codec env table dir df fun s hs part hpart => ?_
      refine exportSymbol_frame codec env table dir df .check i acc t
        (isParquet_shardPath dir part) fun part' hpart' heq => hsym ?_
      rw [(shardPath_inj.mp heq).2] at hpart
      exact partSym_inj hpart' hpart ▸ hs
    rw [← hplan]
    exact ih (i + 1) acc' _ hnodup fun s hs => hrows s (List.mem_cons_of_mem sym hs)

variable {codec table dir df}

theorem Frame.dataEquals_refl (f : Frame) : f.dataEquals f = true := by simp [Frame.dataEquals]

theorem Matches.after {complete : Path → β → Prop} {t : Tree β} {trace : List (Tree β)}
    {sym : Option String} (h : Matches codec table dir df t sym)
    (hchain : (t :: trace).IsChain (WriteOnce.Step IsParquet complete)) :
    Matches codec table dir df (t.after trace) sym := by
  obtain ⟨part, content, hpart, hlookup, hmatch⟩ := h
  exact ⟨part, content, hpart, Tree.lookup_after hchain (isParquet_shardPath dir part) hlookup,
    hmatch⟩

variable (codec table dir df)

theorem exportSymbol_matches {i : ℕ} {sym : Option String} {acc acc' : Totals} {t : Tree β}
    (h : (exportSymbol codec .check env table dir df i sym acc t).1 = .ok acc')
    (hrows : (table.withSymbol df sym).rows ≠ []) :
    Matches codec table dir df
      (t.after (exportSymbol codec .check env table dir df i sym acc t).2) sym := by
  have hchain : (t :: (exportSymbol codec .check env table dir df i sym acc t).2).IsChain
      (WriteOnce.Step IsParquet fun _ _ => True) :=
    exportSymbol_chain codec .check env table dir df i sym acc t fun _ _ _ _ => trivial
  have hdescribes := exportSymbol_describes codec env table dir df i acc t hrows
  have hsucceeds := hdescribes.ok_iff.mp ⟨acc', h⟩
  generalize (exportSymbol codec .check env table dir df i sym acc t).2 = trace at *
  unfold planSymbol at hdescribes hsucceeds
  cases hpart : partSym sym with
  | error e =>
    rw [hpart] at hsucceeds
    cases hsucceeds.1
  | ok part =>
    rw [hpart] at hdescribes hsucceeds
    dsimp only at hdescribes hsucceeds
    cases hlookup : t.lookup (shardPath dir part) with
    | some content =>
      rw [hlookup] at hdescribes hsucceeds
      obtain rfl := hdescribes.idle rfl
      exact ⟨part, content, hpart, hlookup, hsucceeds.1⟩
    | none =>
      rw [hlookup] at hdescribes hsucceeds
      obtain ⟨-, later, rfl, -⟩ := hdescribes.first _ _ rfl
      have hfault : (env.writes i).fault = none := hsucceeds.2 _ List.mem_cons_self
      have hpublished := mem_writeShard_published codec (.inl hfault) (tmpPath dir part env.pid)
        (shardPath dir part) (table.withSymbol df sym) t
      refine ⟨part, _, hpart, Tree.lookup_after_of_mem hchain
        (List.mem_append_left _ hpublished) (isParquet_shardPath dir part)
        (AList.lookup_insert _), ?_⟩
      rw [codec.read_write, Option.any_some]
      exact Frame.dataEquals_refl _

theorem exportSymbols_matches {i : ℕ} {syms : List (Option String)} {acc acc' : Totals}
    {t : Tree β} (h : (exportSymbols codec .check env table dir df i syms acc t).1 = .ok acc')
    (hrows : ∀ sym ∈ syms, (table.withSymbol df sym).rows ≠ []) :
    ∀ sym ∈ syms, Matches codec table dir df
      (t.after (exportSymbols codec .check env table dir df i syms acc t).2) sym := by
  induction syms generalizing i acc t with
  | nil => exact fun sym hsym => absurd hsym List.not_mem_nil
  | cons sym syms ih =>
    obtain ⟨mid, hfirst, hrest, hafter⟩ := exportSymbols_cons_ok codec env table dir df h
    intro s hs
    rw [hafter]
    rcases List.mem_cons.mp hs with rfl | hs
    · have hchain : (t.after (exportSymbol codec .check env table dir df i s acc t).2 ::
          (exportSymbols codec .check env table dir df (i + 1) syms mid
            (t.after (exportSymbol codec .check env table dir df i s acc t).2)).2).IsChain
          (WriteOnce.Step IsParquet fun _ _ => True) :=
        exportSymbols_chain codec .check env table dir df (i + 1) syms mid _
          fun _ _ _ _ _ => trivial
      exact (exportSymbol_matches codec env table dir df hfirst
        (hrows s List.mem_cons_self)).after hchain
    · exact ih hrest (fun s' hs' => hrows s' (List.mem_cons_of_mem sym hs')) s hs

end Symbols

section Tables

variable (hour : Datetime) (src : Source)

/-- One call in check mode is described by its plan. -/
theorem exportHourShard_describes (env : ExportEnv β) (name : String) (t : Tree β) :
    (planHour codec hour src env name t).Describes codec t
      (∃ result, (exportHourShard codec .check env name hour src t).1 = .ok result)
      (exportHourShard codec .check env name hour src t).2 := by
  have hstop := CheckPlan.Describes.stop codec t
  unfold planHour exportHourShard
  cases Table.ofName? name with
  | none => simpa using hstop
  | some table =>
    cases exportWindow hour with
    | error e => simpa using hstop
    | ok window =>
      cases env.queryFails with
      | some ioException => simpa using hstop
      | none =>
        obtain ⟨lo, hi⟩ := window
        dsimp only
        generalize table.queryWindow src lo hi = df
        by_cases hrows : df.rows = []
        · rw [if_pos hrows, Table.uniqueSymbols_eq_nil_iff.mpr hrows]
          simpa [planSymbols] using CheckPlan.Describes.nothing codec t
        · rw [if_neg hrows]
          have hloop := exportSymbols_describes codec env table
            (partitionDir table hour.date hour.hour) df 0 ⟨0, 0, 0, []⟩ t
            (table.nodup_uniqueSymbols df) fun sym hsym => Table.withSymbol_ne_nil hsym
          generalize exportSymbols codec .check env table _ df 0 (table.uniqueSymbols df) _ t = out
            at hloop
          obtain ⟨result, trace⟩ := out
          cases result with
          | error e => simpa [Except.map] using hloop
          | ok totals => simpa [Except.map] using hloop

/-- Between two tables: the shards of the finished tables match, those of the others are as
they were at the start. -/
structure Settled (t₀ t : Tree β) (done : List String) : Prop where
  matched : ∀ name ∈ done, ∃ table lo hi, Table.ofName? name = some table ∧
    exportWindow hour = .ok (lo, hi) ∧
    ∀ sym ∈ table.uniqueSymbols (table.queryWindow src lo hi),
      Matches codec table (partitionDir table hour.date hour.hour) (table.queryWindow src lo hi)
        t sym
  kept : ∀ table : Table, table.name ∉ done → ∀ part,
    t.lookup (shardPath (partitionDir table hour.date hour.hour) part) =
      t₀.lookup (shardPath (partitionDir table hour.date hour.hour) part)

variable {codec hour src} {t₀ t : Tree β} {done : List String}

theorem Settled.start (t : Tree β) : Settled codec hour src t t [] :=
  ⟨fun _ h => absurd h List.not_mem_nil, fun _ _ _ => rfl⟩

/-- The plan of the next table can be read off the tree at the start. -/
theorem Settled.planHour_eq (h : Settled codec hour src t₀ t done) (env : ExportEnv β)
    (name : String) : planHour codec hour src env name t =
      if name ∈ done then ⟨[], env.queryFails.isNone⟩ else planHour codec hour src env name t₀ := by
  by_cases hdone : name ∈ done
  · obtain ⟨table, lo, hi, htable, hwindow, hmatched⟩ := h.matched name hdone
    rw [if_pos hdone]
    unfold planHour
    rw [htable, hwindow]
    cases env.queryFails with
    | some ioException => rfl
    | none => exact planSymbols_of_matches codec env table _ _ hmatched
  · rw [if_neg hdone]
    unfold planHour
    cases htable : Table.ofName? name with
    | none => rfl
    | some table =>
      have hkept := h.kept table (Table.eq_name_of_ofName? htable ▸ hdone)
      cases exportWindow hour with
      | error e => rfl
      | ok window =>
        cases env.queryFails with
        | some ioException => rfl
        | none => exact planSymbols_congr codec env table _ _ fun _ _ part _ => hkept part

theorem Settled.step (h : Settled codec hour src t₀ t done) {env : ExportEnv β} {name : String}
    {result : ShardExportResult}
    (hok : (exportHourShard codec .check env name hour src t).1 = .ok result) :
    Settled codec hour src t₀ (t.after (exportHourShard codec .check env name hour src t).2)
      (name :: done) := by
  have hchain := (ExportCall.mk name hour .check src env).run_chain codec t
  rw [ExportCall.run] at hchain
  dsimp only at hchain
  rcases exportHourShard_cases codec .check env name hour src t with
    ⟨-, e, hrun⟩ | ⟨table, lo, hi, htable, hwindow, -, hrun⟩
  · rw [hrun] at hok
    cases hok
  constructor
  · intro name' hname'
    rcases List.mem_cons.mp hname' with rfl | hname'
    · refine ⟨table, lo, hi, htable, hwindow, fun sym hsym => ?_⟩
      have hrows : (table.queryWindow src lo hi).rows ≠ [] := by
        obtain ⟨r, hr, -⟩ := Table.mem_uniqueSymbols.mp hsym
        exact List.ne_nil_of_mem hr
      rw [hrun] at hok ⊢
      dsimp only at hok ⊢
      rw [if_neg hrows] at hok ⊢
      obtain ⟨totals, htotals⟩ := exists_ok_of_map hok
      exact exportSymbols_matches codec env table _ _ htotals
        (fun _ hs => Table.withSymbol_ne_nil hs) sym hsym
    · obtain ⟨table', lo', hi', htable', hwindow', hmatched⟩ := h.matched name' hname'
      exact ⟨table', lo', hi', htable', hwindow', fun sym hsym => (hmatched sym hsym).after hchain⟩
  · intro table' hnot part
    rw [List.mem_cons, not_or] at hnot
    rw [← h.kept table' hnot.2 part, hrun]
    dsimp only
    split_ifs
    · rfl
    · apply exportSymbols_frame codec env table _ _ .check 0 _ t (isParquet_shardPath _ part)
      intro _ _ part' _ heq
      have hdir := (shardPath_inj.mp heq).1
      rw [partitionDir, partitionDir] at hdir
      exact hnot.1 ((List.cons.inj hdir).1.trans (Table.eq_name_of_ofName? htable).symm)

variable (codec hour src)

/-- The loop over the tables, by induction on those that remain. -/
theorem exportTables_describes (env : ℕ → ExportEnv β) (i : ℕ) (names : List String)
    (acc : ExportProgress) {t : Tree β} (h : Settled codec hour src t₀ t done) :
    (planTables codec hour src env t₀ done i names).Describes codec t
      (∃ progress, (exportTables codec .check hour src env i names acc t).1 = .ok progress)
      (exportTables codec .check hour src env i names acc t).2 := by
  induction names generalizing done i acc t with
  | nil => simpa [exportTables, planTables] using CheckPlan.Describes.nothing codec t
  | cons name names ih =>
    rw [exportTables_cons, planTables, ← h.planHour_eq]
    exact (exportHourShard_describes codec hour src (env i) name t).followed
      fun result hok => ih (i + 1) _ (h.step hok)

end Tables

/-- A run of the command with `--check-only` is described by its plan. -/
theorem exportMain_describes (hour : Except String Datetime) (tables : String)
    (env : ExportMainEnv β) (src : Source) (t : Tree β) :
    (checkPlan codec src ⟨hour, tables, true⟩ env t).Describes codec t
      (∃ h files, (exportMain codec ⟨hour, tables, true⟩ env src t).1 = .identical h files)
      (exportMain codec ⟨hour, tables, true⟩ env src t).2 := by
  have hstop := CheckPlan.Describes.stop codec t
  unfold checkPlan exportMain
  cases hour with
  | error detail => simpa using hstop
  | ok hour =>
    dsimp only
    cases invalidTables (ExportArgs.tableList ⟨.ok hour, tables, true⟩) with
    | cons name names => simpa using hstop
    | nil =>
      rw [if_neg (by simp)]
      cases env.openFails with
      | some ioException => simpa using hstop
      | none =>
        have hloop := exportTables_describes codec hour src env.exports 0
          (ExportArgs.tableList ⟨.ok hour, tables, true⟩) ⟨[], 0⟩ (Settled.start t)
        dsimp only
        rw [if_pos rfl]
        generalize exportTables codec .check hour src env.exports 0 _ _ t = out at hloop
        obtain ⟨result, trace⟩ := out
        cases result with
        | error e => simpa using hloop
        | ok progress => simpa using hloop

end Athena
