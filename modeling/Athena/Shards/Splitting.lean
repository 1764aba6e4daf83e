import Athena.Shards.CheckReport
import Athena.Shards.Names

/-!
# One export splits its hour

A successful call in `fail` mode files the rows of the hour under their symbol
values, and its counters say how many files that made and how large they are. A
check of the same content then finds every one of them.
-/

namespace Athena

variable {β : Type} (codec : ParquetCodec β)

def partName (sym : Option String) : String := sym.getD symbolNullSentinel

theorem partSym_eq {sym : Option String} {part : String} (h : partSym sym = .ok part) :
    part = partName sym := by
  cases sym with
  | none => exact (Except.ok.inj h).symm
  | some s => exact (partSym_some_iff.mp h).2.symm

def fileSize (t : Tree β) (p : Path) : ℕ := ((t.lookup p).map codec.size).getD 0

section Loop

variable (env : ExportEnv β) (table : Table) (dir : Path) (df : Frame)

theorem exportSymbol_counts {i : ℕ} {sym : Option String} {acc acc' : Totals} {t : Tree β}
    (h : (exportSymbol codec .fail env table dir df i sym acc t).1 = .ok acc')
    (hrows : (table.withSymbol df sym).rows ≠ []) :
    ∃ part content, partSym sym = .ok part ∧
      (t.after (exportSymbol codec .fail env table dir df i sym acc t).2).lookup
        (shardPath dir part) = some content ∧
      acc' = ⟨acc.filesWritten + 1, acc.filesMatched, acc.bytesWritten + codec.size content,
        acc.symbolsWritten ++ [part]⟩ := by
  rcases exportSymbol_cases codec .fail env table dir df i sym acc t with
    ⟨-, hfails⟩ | ⟨part, -, hpart, -, hwrite⟩
  · obtain ⟨⟨e, herror⟩, -⟩ := hfails rfl hrows
    rw [herror] at h
    cases h
  · rw [hwrite] at h ⊢
    obtain ⟨size, hsize⟩ := exists_ok_of_map h
    have hfault := (writeShard_isOk_iff codec).mp ⟨size, hsize⟩
    refine ⟨part, codec.write (env.writes i).nonce (table.withSymbol df sym), hpart, ?_, ?_⟩
    · dsimp only
      rw [writeShard_trace codec (.inl hfault)]
      simp [Tree.after, List.getLast?_append]
    · have hsize' : size = codec.size (codec.write (env.writes i).nonce
          (table.withSymbol df sym)) := by
        unfold writeShard at hsize
        rw [hfault] at hsize
        exact (Except.ok.inj hsize).symm
      dsimp only at h
      rw [hsize] at h
      rw [← hsize']
      exact (Except.ok.inj h).symm

/-- The counters of a loop that returns, by induction on the symbols: what a round has written
is still there at the end. -/
theorem exportSymbols_counts {i : ℕ} {syms : List (Option String)} {acc acc' : Totals}
    {t : Tree β} (h : (exportSymbols codec .fail env table dir df i syms acc t).1 = .ok acc')
    (hrows : ∀ sym ∈ syms, (table.withSymbol df sym).rows ≠ []) :
    acc' = ⟨acc.filesWritten + syms.length, acc.filesMatched,
      acc.bytesWritten + (syms.map fun sym => fileSize codec
        (t.after (exportSymbols codec .fail env table dir df i syms acc t).2)
        (shardPath dir (partName sym))).sum,
      acc.symbolsWritten ++ syms.map partName⟩ := by
  induction syms generalizing i acc t with
  | nil =>
    obtain rfl := Except.ok.inj h
    simp
  | cons sym syms ih =>
    obtain ⟨mid, hfirst, hrest, hafter⟩ := exportSymbols_cons_ok codec env table dir df h
    obtain ⟨part, content, hpart, hlookup, rfl⟩ :=
      exportSymbol_counts codec env table dir df hfirst (hrows sym List.mem_cons_self)
    obtain rfl := partSym_eq hpart
    have hchain := @exportSymbols_chain _ codec (fun _ _ => True) .fail env table dir df
      (i + 1) syms
      ⟨acc.filesWritten + 1, acc.filesMatched, acc.bytesWritten + codec.size content,
        acc.symbolsWritten ++ [partName sym]⟩
      (t.after (exportSymbol codec .fail env table dir df i sym acc t).2)
      fun _ _ _ _ _ => trivial
    have hkept := Tree.lookup_after hchain (isParquet_shardPath dir _) hlookup
    rw [ih hrest fun s hs => hrows s (List.mem_cons_of_mem sym hs), hafter]
    simp only [List.length_cons, List.map_cons, List.sum_cons, List.append_assoc,
      List.cons_append, List.nil_append, Totals.mk.injEq, and_true, true_and]
    constructor
    · omega
    · rw [fileSize, hkept, Option.map_some, Option.getD_some]
      omega

/-- A check of shards that are as they were written counts them all and touches nothing. -/
theorem exportSymbols_check_written {i : ℕ} {syms : List (Option String)} {acc : Totals}
    {t : Tree β} (hrows : ∀ sym ∈ syms, (table.withSymbol df sym).rows ≠ [])
    (hwritten : ∀ sym ∈ syms, Written codec table dir df t sym) :
    exportSymbols codec .check env table dir df i syms acc t =
      (.ok { acc with filesMatched := acc.filesMatched + syms.length }, []) := by
  induction syms generalizing i acc with
  | nil => rfl
  | cons sym syms ih =>
    have hfirst : exportSymbol codec .check env table dir df i sym acc t =
        (.ok { acc with filesMatched := acc.filesMatched + 1 }, []) := by
      obtain ⟨part, content, hpart, hlookup, hread⟩ := hwritten sym List.mem_cons_self
      unfold exportSymbol
      dsimp only
      rw [if_neg (hrows sym List.mem_cons_self), hpart]
      dsimp only
      rw [hlookup]
      dsimp only
      rw [if_neg (by decide), hread]
      dsimp only
      rw [if_pos (Frame.dataEquals_refl _)]
    rw [exportSymbols, hfirst]
    dsimp only
    have hrest := @ih (i + 1) { acc with filesMatched := acc.filesMatched + 1 }
      (fun s hs => hrows s (List.mem_cons_of_mem sym hs))
      fun s hs => hwritten s (List.mem_cons_of_mem sym hs)
    change (_, [] ++ _) = _
    rw [Tree.after, List.getLast?_nil, Option.getD_none, hrest]
    simp
    omega

end Loop

/-- A call is its loop; without rows the loop has no rounds. -/
theorem exportHourShard_loop (mode : Mode) {env : ExportEnv β} {name : String} {start : Datetime}
    {table : Table} {lo hi : Int} (htable : Table.ofName? name = some table)
    (hwindow : exportWindow start = .ok (lo, hi)) (hquery : env.queryFails = none) (src : Source)
    (t : Tree β) :
    exportHourShard codec mode env name start src t =
      let out := exportSymbols codec mode env table (partitionDir table start.date start.hour)
        (table.queryWindow src lo hi) 0 (table.uniqueSymbols (table.queryWindow src lo hi))
        ⟨0, 0, 0, []⟩ t
      (out.1.map fun totals => ⟨table, start, totals⟩, out.2) := by
  unfold exportHourShard
  rw [htable]
  dsimp only
  rw [hwindow]
  dsimp only
  rw [hquery]
  dsimp only
  split_ifs with hrows
  · rw [Table.uniqueSymbols_eq_nil_iff.mpr hrows]
    rfl
  · rfl

/-- The symbol values of an hour. -/
def Table.hourSymbols (table : Table) (src : Source) (hour : UtcHour) : Finset (Option String) :=
  ((table.hourRows src hour).map table.symbol).toFinset

theorem Table.mem_hourSymbols {table : Table} {src : Source} {hour : UtcHour}
    {sym : Option String} :
    sym ∈ table.hourSymbols src hour ↔ ∃ r ∈ table.hourRows src hour, table.symbol r = sym := by
  rw [hourSymbols, List.mem_toFinset, List.mem_map]

/-- The query of a full hour. -/
def Table.hourFrame (table : Table) (src : Source) (hour : UtcHour) : Frame :=
  table.queryWindow src (hour.index * microsPerHour) ((hour.index + 1) * microsPerHour)

/-- The symbol values of an hour in the order of the query. -/
def Table.hourUnique (table : Table) (src : Source) (hour : UtcHour) : List (Option String) :=
  table.uniqueSymbols (table.hourFrame src hour)

theorem Table.mem_hourUnique {table : Table} {src : Source} {hour : UtcHour}
    {sym : Option String} :
    sym ∈ table.hourUnique src hour ↔ sym ∈ table.hourSymbols src hour := by
  rw [hourUnique, hourFrame, Table.mem_uniqueSymbols, Table.mem_hourSymbols]
  simp only [(table.queryWindow_perm src _ _).mem_iff]
  rfl

theorem Table.length_hourUnique (table : Table) (src : Source) (hour : UtcHour) :
    (table.hourUnique src hour).length = (table.hourSymbols src hour).card := by
  have hnodup : (table.hourUnique src hour).Nodup := table.nodup_uniqueSymbols _
  rw [← List.toFinset_card_of_nodup hnodup]
  congr 1
  ext sym
  rw [List.mem_toFinset, Table.mem_hourUnique]

/-- The tree after an export holds the rows of the hour, split by symbol value, and the counters
describe the files. -/
structure Splits (table : Table) (src : Source) (hour : UtcHour) (t : Tree β) (totals : Totals) :
    Prop where
  holds : HoldsExactly codec table src hour t
  distinct : ∀ sym ∈ table.hourSymbols src hour, ∀ sym' ∈ table.hourSymbols src hour,
    ∀ part part', partSym sym = .ok part → partSym sym' = .ok part' →
      shardPath (table.hourDir hour) part = shardPath (table.hourDir hour) part' → sym = sym'
  filesWritten : totals.filesWritten = (table.hourSymbols src hour).card
  filesMatched : totals.filesMatched = 0
  listedOnce : totals.symbolsWritten.Nodup
  listed : ∀ part, part ∈ totals.symbolsWritten ↔
    ∃ sym ∈ table.hourSymbols src hour, partSym sym = .ok part
  bytesWritten : totals.bytesWritten = (totals.symbolsWritten.map fun part =>
    fileSize codec t (shardPath (table.hourDir hour) part)).sum

section Call

variable {codec} {env : ExportEnv β} {name : String} {hour : UtcHour} {src : Source} {t : Tree β}
  {result : ShardExportResult}

theorem exportHourShard_returns {mode : Mode}
    (h : (exportHourShard codec mode env name hour.toDatetime src t).1 = .ok result) :
    Table.ofName? name = some result.table ∧
      exportWindow hour.toDatetime =
        .ok (hour.index * microsPerHour, (hour.index + 1) * microsPerHour) ∧
      env.queryFails = none ∧ result.hourUtc = hour.toDatetime := by
  rcases exportHourShard_cases codec mode env name hour.toDatetime src t with
    ⟨-, e, hrun⟩ | ⟨table, lo, hi, htable, hwindow, hquery, -⟩
  · rw [hrun] at h
    cases h
  · obtain ⟨rfl, rfl⟩ := exportWindow_toDatetime hwindow
    rw [exportHourShard_loop codec mode htable hwindow hquery] at h
    dsimp only at h
    obtain ⟨totals, htotals⟩ := exists_ok_of_map h
    rw [htotals] at h
    obtain rfl := Except.ok.inj h
    exact ⟨htable, hwindow, hquery, rfl⟩

theorem exportHourShard_hour (mode : Mode) {table : Table}
    (htable : Table.ofName? name = some table)
    (hwindow : exportWindow hour.toDatetime =
      .ok (hour.index * microsPerHour, (hour.index + 1) * microsPerHour))
    (hquery : env.queryFails = none) :
    exportHourShard codec mode env name hour.toDatetime src t =
      let out := exportSymbols codec mode env table (table.hourDir hour)
        (table.hourFrame src hour) 0 (table.hourUnique src hour) ⟨0, 0, 0, []⟩ t
      (out.1.map fun totals => ⟨table, hour.toDatetime, totals⟩, out.2) :=
  exportHourShard_loop codec mode htable hwindow hquery src t

theorem exportHourShard_counts
    (h : (exportHourShard codec .fail env name hour.toDatetime src t).1 = .ok result) :
    result.totals = ⟨(result.table.hourUnique src hour).length, 0,
      ((result.table.hourUnique src hour).map fun sym => fileSize codec
        (t.after (exportHourShard codec .fail env name hour.toDatetime src t).2)
        (shardPath (result.table.hourDir hour) (partName sym))).sum,
      (result.table.hourUnique src hour).map partName⟩ := by
  obtain ⟨htable, hwindow, hquery, -⟩ := exportHourShard_returns h
  have hrun : exportHourShard codec .fail env name hour.toDatetime src t = _ :=
    exportHourShard_hour .fail htable hwindow hquery
  obtain ⟨totals, htotals⟩ := exists_ok_of_map (hrun ▸ h)
  have hcounts := exportSymbols_counts codec env _ _ _ htotals fun sym hsym =>
    Table.withSymbol_ne_nil hsym
  rw [hrun] at h ⊢
  dsimp only at h ⊢
  rw [htotals] at h
  rw [← Except.ok.inj h, hcounts]
  simp only [Nat.zero_add, List.nil_append]

theorem exportHourShard_written
    (h : (exportHourShard codec .fail env name hour.toDatetime src t).1 = .ok result) :
    ∀ sym ∈ result.table.hourSymbols src hour,
      Written codec result.table (result.table.hourDir hour) (result.table.hourFrame src hour)
        (t.after (exportHourShard codec .fail env name hour.toDatetime src t).2) sym := by
  obtain ⟨htable, hwindow, -, -⟩ := exportHourShard_returns h
  intro sym hsym
  obtain ⟨r, hr, rfl⟩ := Table.mem_hourSymbols.mp hsym
  let call : ExportCall β := ⟨name, hour.toDatetime, .fail, src, env⟩
  exact call.run_written codec rfl h htable hwindow r hr

/-- The shards of the hour are those of its symbol values, and hold their rows. -/
theorem exportHourShard_holdsExactly
    (h : (exportHourShard codec .fail env name hour.toDatetime src t).1 = .ok result)
    (hfree : ∀ p, IsParquet p → p.dropLast = result.table.hourDir hour → t.lookup p = none) :
    HoldsExactly codec result.table src hour
      (t.after (exportHourShard codec .fail env name hour.toDatetime src t).2) := by
  obtain ⟨htable, hwindow, -, -⟩ := exportHourShard_returns h
  have hwritten := exportHourShard_written h
  have hsymbol : ∀ r ∈ result.table.hourRows src hour,
      result.table.symbol r ∈ result.table.hourSymbols src hour :=
    fun r hr => Table.mem_hourSymbols.mpr ⟨r, hr, rfl⟩
  constructor
  case named =>
    constructor
    case each =>
      intro r hr
      obtain ⟨part, content, hpart, hlookup, -⟩ := hwritten _ (hsymbol r hr)
      exact ⟨part, content, hpart, hlookup⟩
    case only =>
      intro p content hp hdir hlookup
      have hnone := hfree p hp hdir
      rcases List.mem_cons.mp (Tree.after_mem t _) with hstart | hmem
      · rw [hstart, hnone] at hlookup
        cases hlookup
      · let call : ExportCall β := ⟨name, hour.toDatetime, .fail, src, env⟩
        obtain ⟨table, lo, hi, sym, part, htable', hwindow', hrows, hpart, hpath, -⟩ :=
          call.run_created codec hmem hp hnone hlookup
        obtain rfl : table = result.table := Option.some.inj (htable'.symm.trans htable)
        obtain ⟨rfl, rfl⟩ := Prod.mk.inj (Except.ok.inj (hwindow'.symm.trans hwindow))
        obtain ⟨r, hr⟩ := List.exists_mem_of_ne_nil _ hrows
        obtain ⟨hquery, hsym⟩ := List.mem_filter.mp hr
        refine ⟨r, (result.table.queryWindow_perm src _ _).mem_iff.mp hquery, part, ?_, hpath⟩
        rw [of_decide_eq_true hsym]
        exact hpart
  case stores =>
    intro r hr part content hpart hlookup
    obtain ⟨part', content', hpart', hlookup', hread⟩ := hwritten _ (hsymbol r hr)
    obtain rfl : part = part' := Except.ok.inj (hpart.symm.trans hpart')
    obtain rfl : content = content' := Option.some.inj (hlookup.symm.trans hlookup')
    refine ⟨_, hread, List.Perm.refl _, ?_⟩
    rw [Table.hourFrame, Table.select_withSymbol]
    exact (result.table.queryWindow_perm src _ _).filter _

/-- A successful call in `fail` mode, on a tree without shards of the hour, splits the hour. A
check of the same content then writes nothing, matches every file and changes nothing. -/
theorem exportHourShard_splits
    (h : (exportHourShard codec .fail env name hour.toDatetime src t).1 = .ok result)
    (hfree : ∀ p, IsParquet p → p.dropLast = result.table.hourDir hour → t.lookup p = none) :
    let t' := t.after (exportHourShard codec .fail env name hour.toDatetime src t).2
    name = result.table.name ∧ result.hourUtc = hour.toDatetime ∧
      Splits codec result.table src hour t' result.totals ∧
      ∀ env' : ExportEnv β, env'.queryFails = none →
        exportHourShard codec .check env' name hour.toDatetime src t' =
          (.ok ⟨result.table, hour.toDatetime,
            ⟨0, (result.table.hourSymbols src hour).card, 0, []⟩⟩, []) := by
  intro t'
  obtain ⟨htable, hwindow, hquery, hhour⟩ := exportHourShard_returns h
  have hwritten := exportHourShard_written h
  have hcounts := exportHourShard_counts h
  have haccepted : ∀ sym ∈ result.table.hourSymbols src hour,
      partSym sym = .ok (partName sym) := by
    intro sym hsym
    obtain ⟨part, -, hpart, -⟩ := hwritten sym hsym
    exact partSym_eq hpart ▸ hpart
  refine ⟨Table.eq_name_of_ofName? htable, hhour, ?_, ?_⟩
  · constructor
    case holds => exact exportHourShard_holdsExactly h hfree
    case distinct =>
      intro sym _ sym' _ part part' hpart hpart' hpath
      exact partSym_inj hpart ((shardPath_inj.mp hpath).2 ▸ hpart')
    case filesWritten => rw [hcounts, Table.length_hourUnique]
    case filesMatched => rw [hcounts]
    case listedOnce =>
      rw [hcounts]
      apply List.Nodup.map_on _ (result.table.nodup_uniqueSymbols _)
      intro sym hsym sym' hsym' heq
      exact partSym_inj (haccepted sym (Table.mem_hourUnique.mp hsym))
        (heq ▸ haccepted sym' (Table.mem_hourUnique.mp hsym'))
    case listed =>
      intro part
      rw [hcounts, List.mem_map]
      constructor
      · rintro ⟨sym, hsym, rfl⟩
        have hsym := Table.mem_hourUnique.mp hsym
        exact ⟨sym, hsym, haccepted sym hsym⟩
      · rintro ⟨sym, hsym, hpart⟩
        exact ⟨sym, Table.mem_hourUnique.mpr hsym, (partSym_eq hpart).symm⟩
    case bytesWritten => rw [hcounts, List.map_map]; rfl
  · intro env' hquery'
    have hcheck := @exportSymbols_check_written _ codec env' result.table
      (result.table.hourDir hour) (result.table.hourFrame src hour) 0
      (result.table.hourUnique src hour) ⟨0, 0, 0, []⟩ _
      (fun sym hsym => Table.withSymbol_ne_nil hsym)
      fun sym hsym => hwritten sym (Table.mem_hourUnique.mp hsym)
    rw [exportHourShard_hour .check htable hwindow hquery', hcheck, Table.length_hourUnique]
    simp [Except.map]

end Call

/-- Two rows of one symbol and one without a symbol. -/
theorem exportHourShard_splits_news :
    let start := tenOClock.index * microsPerHour
    let src := newsSource [(start, some "A"), (start, none), (start + 1, some "A")]
    ∃ result : ShardExportResult, result.table = .news ∧
      Splits plainCodec result.table src tenOClock
      ((∅ : Tree Frame).after
        (exportHourShard plainCodec .fail calmEnv "news" tenOClock.toDatetime src ∅).2)
      result.totals := by
  intro start src
  have hok : (exportHourShard plainCodec .fail calmEnv "news" tenOClock.toDatetime src
    ∅).1.isOk = true := by decide
  cases h : (exportHourShard plainCodec .fail calmEnv "news" tenOClock.toDatetime src ∅).1 with
  | error e =>
    rw [h] at hok
    cases hok
  | ok result =>
    obtain ⟨hname, -, hsplits, -⟩ := exportHourShard_splits h fun _ _ _ => AList.lookup_empty _
    exact ⟨result, Table.name_injective hname.symm, hsplits⟩

end Athena
