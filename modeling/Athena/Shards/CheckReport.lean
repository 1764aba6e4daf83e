import Athena.Library.Columns
import Athena.Shards.CheckMode
import Athena.Shards.Filing

/-!
# What "identical" means

A check compares the symbols of the fresh query with their shards. It does not
look for other shards, and a missing one is written and not counted. Its report
is right about the contents and says nothing about which shards there are.
-/

namespace Athena

variable {β : Type}

namespace Table

def hourRows (table : Table) (src : Source) (hour : UtcHour) : List TableRow :=
  table.slice src (hour.index * microsPerHour) ((hour.index + 1) * microsPerHour)

def symbolRows (table : Table) (src : Source) (hour : UtcHour) (sym : Option String) :
    List TableRow :=
  (table.hourRows src hour).filter fun r => table.symbol r = sym

def hourDir (table : Table) (hour : UtcHour) : Path := partitionDir table hour.date hour.hour

theorem columns_nodup (table : Table) : table.columns.Nodup := by
  cases table <;> decide

theorem Conforms.length_eq {table : Table} {r : TableRow} (h : table.Conforms r) :
    r.length = table.columns.length := by
  rw [columns, List.length_map]
  exact (List.Forall₂.length_eq h).symm

end Table

/-- The frame has the columns of the table, in some order, and these rows, in some order. -/
def Frame.Stores (f : Frame) (table : Table) (rows : List TableRow) : Prop :=
  f.columns.Perm table.columns ∧ (f.select table.columns).Perm rows

theorem Frame.select_eq (f : Frame) (cols : List String) :
    f.select cols = f.rows.map (Columns.project .null f.columns cols) := rfl

theorem Table.select_withSymbol {table : Table} {src : Source} (lo hi : Int)
    (sym : Option String) :
    (table.withSymbol (table.queryWindow src lo hi) sym).select table.columns =
      (table.withSymbol (table.queryWindow src lo hi) sym).rows := by
  have hself : ∀ r ∈ (table.withSymbol (table.queryWindow src lo hi) sym).rows,
      Columns.project .null table.columns table.columns r = r := by
    intro r hr
    have hmem := Table.mem_queryWindow.mp (List.mem_filter.mp hr).1
    exact Columns.project_self .null table.columns_nodup (src.conforms table r hmem.1).length_eq
  rw [Frame.select_eq]
  exact (List.map_congr_left hself).trans (List.map_id _)

/-- Equal data is the same rows, whatever the order of columns and rows. -/
theorem Frame.stores_of_dataEquals {existing : Frame} {table : Table} {src : Source} {lo hi : Int}
    {sym : Option String}
    (h : existing.dataEquals (table.withSymbol (table.queryWindow src lo hi) sym) = true) :
    existing.Stores table ((table.slice src lo hi).filter fun r => table.symbol r = sym) := by
  unfold dataEquals at h
  dsimp only at h
  split_ifs at h with hcols hheight
  have hcols := not_not.mp hcols
  have hsort := of_decide_eq_true h
  generalize hsorted : existing.columns.insertionSort (· ≤ ·) = cols at hcols hsort
  have hexisting : cols.Perm existing.columns := hsorted ▸ List.perm_insertionSort _ _
  have hfresh : cols.Perm table.columns := hcols ▸ List.perm_insertionSort _ _
  have hrows : (existing.select cols).Perm
      ((table.withSymbol (table.queryWindow src lo hi) sym).select cols) := by
    have hleft := List.perm_insertionSort RowLe (existing.select cols)
    rw [hsort] at hleft
    exact hleft.symm.trans (List.perm_insertionSort _ _)
  refine ⟨hexisting.symm.trans hfresh, ?_⟩
  rw [Frame.select_eq, Frame.select_eq] at hrows
  have hproject := Columns.perm_project Cell.null (fun c hc => hfresh.mem_iff.mpr hc) hrows
  rw [← Frame.select_eq, ← Frame.select_eq, Table.select_withSymbol] at hproject
  exact hproject.trans ((table.queryWindow_perm src lo hi).filter _)

/-- The files of the hour are one for each symbol value that occurs in the hour. -/
structure NamedExactly (table : Table) (src : Source) (hour : UtcHour) (t : Tree β) : Prop where
  each : ∀ r ∈ table.hourRows src hour, ∃ part content, partSym (table.symbol r) = .ok part ∧
    t.lookup (shardPath (table.hourDir hour) part) = some content
  only : ∀ p content, IsParquet p → p.dropLast = table.hourDir hour → t.lookup p = some content →
    ∃ r ∈ table.hourRows src hour, ∃ part, partSym (table.symbol r) = .ok part ∧
      p = shardPath (table.hourDir hour) part

/-- Moreover each of them holds exactly the rows of its symbol value. -/
structure HoldsExactly (codec : ParquetCodec β) (table : Table) (src : Source) (hour : UtcHour)
    (t : Tree β) : Prop where
  named : NamedExactly table src hour t
  stores : ∀ r ∈ table.hourRows src hour, ∀ part content, partSym (table.symbol r) = .ok part →
    t.lookup (shardPath (table.hourDir hour) part) = some content →
    ∃ f, codec.read content = some f ∧ f.Stores table (table.symbolRows src hour (table.symbol r))

section Plans

variable {codec : ParquetCodec β}

theorem completes_andThen {p q : CheckPlan β} :
    (p.andThen q).completes = true ↔ p.completes = true ∧ q.completes = true := by
  unfold CheckPlan.andThen
  split_ifs with hp <;> simp [hp]

theorem planSymbols_completes {env : ExportEnv β} {table : Table} {dir : Path} {df : Frame}
    {t : Tree β} {i : ℕ} {syms : List (Option String)}
    (h : (planSymbols codec env table dir df t i syms).completes = true) :
    ∀ sym ∈ syms, ∀ part content, partSym sym = .ok part →
      t.lookup (shardPath dir part) = some content → ∃ existing,
        codec.read content = some existing ∧
          existing.dataEquals (table.withSymbol df sym) = true := by
  induction syms generalizing i with
  | nil => exact fun sym hsym => absurd hsym List.not_mem_nil
  | cons sym syms ih =>
    rw [planSymbols, completes_andThen] at h
    intro s hs part content hpart hlookup
    rcases List.mem_cons.mp hs with rfl | hs
    · have hfirst := h.1
      unfold planSymbol at hfirst
      rw [hpart] at hfirst
      dsimp only at hfirst
      rw [hlookup] at hfirst
      exact (Option.any_eq_true _ _).mp hfirst
    · exact ih h.2 s hs part content hpart hlookup

theorem planTables_completes {hour : Datetime} {src : Source} {env : ℕ → ExportEnv β} {t : Tree β}
    {done : List String} {i : ℕ} {names : List String}
    (h : (planTables codec hour src env t done i names).completes = true) :
    ∀ name ∈ names, name ∉ done →
      ∃ j, (planHour codec hour src (env j) name t).completes = true := by
  induction names generalizing done i with
  | nil => exact fun name hname => absurd hname List.not_mem_nil
  | cons name names ih =>
    rw [planTables, completes_andThen] at h
    intro name' hname' hdone
    by_cases heq : name' = name
    · subst heq
      rw [if_neg hdone] at h
      exact ⟨i, h.1⟩
    · refine ih h.2 name' ((List.mem_cons.mp hname').resolve_left heq) ?_
      rw [List.mem_cons, not_or]
      exact ⟨heq, hdone⟩

theorem planHour_completes {hour : Datetime} {src : Source} {env : ExportEnv β} {name : String}
    {t : Tree β} (h : (planHour codec hour src env name t).completes = true) :
    ∃ table lo hi, Table.ofName? name = some table ∧ exportWindow hour = .ok (lo, hi) ∧
      (planSymbols codec env table (partitionDir table hour.date hour.hour)
        (table.queryWindow src lo hi) t 0
        (table.uniqueSymbols (table.queryWindow src lo hi))).completes = true := by
  unfold planHour at h
  split at h
  · rename_i table lo hi htable hwindow _
    exact ⟨table, lo, hi, htable, hwindow, h⟩
  · cases h

theorem checkPlan_completes {args : ExportArgs} {src : Source} {env : ExportMainEnv β} {t : Tree β}
    (h : (checkPlan codec src args env t).completes = true) :
    ∃ hour, args.hour = .ok hour ∧
      (planTables codec hour src env.exports t [] 0 args.tableList).completes = true := by
  unfold checkPlan at h
  split at h
  · rename_i hour hhour _ _
    exact ⟨hour, hhour, h⟩
  · cases h

def checkArgs (hour : UtcHour) (tables : String) : ExportArgs := ⟨.ok hour.toDatetime, tables, true⟩

/-- If the plan of a check completes, the shards that it looked at hold what they should. -/
theorem stores_of_completes {hour : UtcHour} {tables : String} {src : Source}
    {env : ExportMainEnv β} {t : Tree β}
    (h : (checkPlan codec src (checkArgs hour tables) env t).completes = true) {table : Table}
    (hlisted : table.name ∈ (checkArgs hour tables).tableList) :
    ∀ r ∈ table.hourRows src hour, ∀ part content, partSym (table.symbol r) = .ok part →
      t.lookup (shardPath (table.hourDir hour) part) = some content →
      ∃ f, codec.read content = some f ∧
        f.Stores table (table.symbolRows src hour (table.symbol r)) := by
  obtain ⟨start, hstart, htables⟩ := checkPlan_completes h
  obtain rfl := Except.ok.inj hstart
  obtain ⟨j, hhour⟩ := planTables_completes htables table.name hlisted List.not_mem_nil
  obtain ⟨table', lo, hi, htable, hwindow, hsymbols⟩ := planHour_completes hhour
  obtain rfl := Option.some.inj ((Table.ofName?_name table).symm.trans htable)
  obtain ⟨rfl, rfl⟩ := exportWindow_toDatetime hwindow
  intro r hr part content hpart hlookup
  have hquery := (table.queryWindow_perm src _ _).mem_iff.mpr hr
  obtain ⟨existing, hread, hequal⟩ := planSymbols_completes hsymbols (table.symbol r)
    (Table.mem_uniqueSymbols.mpr ⟨r, hquery, rfl⟩) part content hpart hlookup
  exact ⟨existing, hread, Frame.stores_of_dataEquals hequal⟩

end Plans

/-- A check that reports "identical" found exactly the right shards if and only if, where it
gets through, the hour's directories had one shard for each symbol value and no others. -/
theorem check_identical_iff (codec : ParquetCodec β) (hour : UtcHour) (tables : String)
    (env : ExportMainEnv β) (src : Source) (t : Tree β) :
    ((∃ h files, (exportMain codec (checkArgs hour tables) env src t).1 = .identical h files) →
      ∀ table : Table, table.name ∈ (checkArgs hour tables).tableList →
        HoldsExactly codec table src hour t) ↔
    ((checkPlan codec src (checkArgs hour tables) env t).Succeeds →
      ∀ table : Table, table.name ∈ (checkArgs hour tables).tableList →
        NamedExactly table src hour t) := by
  have hreport := (exportMain_describes codec (.ok hour.toDatetime) tables env src t).ok_iff
  constructor
  · intro hexact hsucceeds table hlisted
    exact (hexact (hreport.mpr hsucceeds) table hlisted).named
  · intro hnamed hidentical table hlisted
    have hsucceeds := hreport.mp hidentical
    exact ⟨hnamed hsucceeds table hlisted, stores_of_completes hsucceeds.1 hlisted⟩

/-- A missing shard, a shard whose rows are gone and the shards of an hour that is now empty
are all called identical. -/
theorem check_calls_different_identical :
    let start := tenOClock.index * microsPerHour
    let exported := fun items =>
      Tree.after ∅ (exportMain plainCodec newsArgs calmMainEnv (newsSource items) ∅).2
    let report := fun items t =>
      (exportMain plainCodec (checkArgs tenOClock "news") calmMainEnv (newsSource items) t).1
    let missing := [(start, some "A")]
    let deleted := [(start, some "A"), (start, some "B")]
    (report missing ∅ = .identical tenOClock.toDatetime 0 ∧
        ¬ HoldsExactly plainCodec .news (newsSource missing) tenOClock ∅) ∧
      (report missing (exported deleted) = .identical tenOClock.toDatetime 1 ∧
        ¬ HoldsExactly plainCodec .news (newsSource missing) tenOClock (exported deleted)) ∧
      report [] (exported missing) = .identical tenOClock.toDatetime 0 ∧
        ¬ HoldsExactly plainCodec .news (newsSource []) tenOClock (exported missing) := by
  intro start exported report missing deleted
  let shard := fun part => shardPath (Table.news.hourDir tenOClock) part
  refine ⟨⟨rfl, fun h => ?_⟩, ⟨rfl, fun h => ?_⟩, rfl, fun h => ?_⟩
  · have hrow : newsRow (start, some "A") ∈ Table.news.hourRows (newsSource missing) tenOClock := by
      decide
    obtain ⟨part, content, -, hlookup⟩ := h.named.each _ hrow
    rw [AList.lookup_empty] at hlookup
    cases hlookup
  · obtain ⟨content, hcontent⟩ := Option.isSome_iff_exists.mp
      (show ((exported deleted).lookup (shard "B")).isSome = true by decide)
    obtain ⟨r, hr, part, hpart, hpath⟩ :=
      h.named.only _ content (isParquet_shardPath _ "B") rfl hcontent
    have hrows : Table.news.hourRows (newsSource missing) tenOClock =
        [newsRow (start, some "A")] := by decide
    rw [hrows] at hr
    obtain rfl := List.mem_singleton.mp hr
    obtain rfl : part = "A" := Except.ok.inj (hpart.symm.trans (by decide))
    exact absurd (shardPath_inj.mp hpath).2 (by decide)
  · obtain ⟨content, hcontent⟩ := Option.isSome_iff_exists.mp
      (show ((exported missing).lookup (shard "A")).isSome = true by decide)
    obtain ⟨r, hr, -⟩ := h.named.only _ content (isParquet_shardPath _ "A") rfl hcontent
    have hrows : Table.news.hourRows (newsSource []) tenOClock = [] := by decide
    rw [hrows] at hr
    cases hr

end Athena
