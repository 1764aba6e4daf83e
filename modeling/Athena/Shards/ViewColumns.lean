import Athena.Core.Numerals
import Athena.Shards.Immutability
import Athena.Shards.Reader

/-!
# The columns of the views

A view is bound to its columns when it is created. Over shards it has those of
the files and those of their directories, over an empty tree only those of the
DDL, and the same holds if the last shard goes away between the probe and the
`CREATE VIEW`.
-/

namespace Athena

/-- The columns that the directories of a shard spell out. -/
def partitionColumns : List String := ["year", "month", "day", "hour"]

/-- The predicate columns that the reader documents. -/
def predicateColumns : List String := partitionColumns ++ ["symbol"]

/-- What the attachment of one view finds: the tree at its probe, the tree at its `CREATE VIEW`,
and whether a file of that tree cannot be read. -/
structure Moment (β : Type) where
  probe : Tree β
  create : Tree β
  ioFails : Bool

inductive CreateViewError
  | ioException
  | invalidInput (path : Path)
  deriving DecidableEq, Repr

abbrev ViewColumns := Table → List String

def View.columns (table : Table) : View → List String
  | parquet => table.columns ++ partitionColumns
  | empty => table.columns

section Attach

variable {β : Type} (codec : ParquetCodec β)

/-- `CREATE OR REPLACE VIEW` over `read_parquet(glob, hive_partitioning=true)`: the columns of the
first file and one for each `key=value` directory. -/
def createParquetView (m : Moment β) (table : Table) : Except CreateViewError (List String) :=
  match m.create.glob table with
  | [] => .error .ioException
  | file :: _ =>
    if m.ioFails then .error .ioException
    else match codec.read file.2 with
      | none => .error (.invalidInput file.1)
      | some f => .ok (f.columns ++ (hiveColumns file.1).map Prod.fst)

def createEmptyView (table : Table) : List String := table.columns

/-- The body of the loop in `attach_parquet_views`. -/
def attachView (m : Moment β) (table : Table) : Except CreateViewError (List String) :=
  if hasAnyParquet m.probe table then
    match createParquetView codec m table with
    | .ok columns => .ok columns
    | .error .ioException => .ok (createEmptyView table)
    | .error e => .error e
  else .ok (createEmptyView table)

/-- The loop: an exception leaves the views behind it as they were. -/
def attachTables (m : Table → Moment β) :
    List Table → ViewColumns → Except CreateViewError Unit × ViewColumns
  | [], views => (.ok (), views)
  | table :: tables, views =>
    match attachView codec (m table) table with
    | .error e => (.error e, views)
    | .ok columns => attachTables m tables (Function.update views table columns)

/-- `attach_parquet_views`, which is all that `refresh_views` does. -/
def attachAll (m : Table → Moment β) (views : ViewColumns) :
    Except CreateViewError Unit × ViewColumns :=
  attachTables codec m [.ticks, .quotes, .news] views

/-- The views after each of several calls. -/
def viewsAfterEach : List (Table → Moment β) → ViewColumns → List ViewColumns
  | [], _ => []
  | m :: ms, views => (attachAll codec m views).2 :: viewsAfterEach ms (attachAll codec m views).2

end Attach

/-- A shard of the table is there at the probe and can be read at the `CREATE VIEW`. -/
def Moment.Finds {β : Type} (m : Moment β) (table : Table) : Prop :=
  m.probe.glob table ≠ [] ∧ m.create.glob table ≠ [] ∧ m.ioFails = false

instance {β : Type} (m : Moment β) (table : Table) : Decidable (m.Finds table) :=
  inferInstanceAs (Decidable (_ ≠ List.nil ∧ _ ≠ List.nil ∧ _ = false))

section Hive

theorem hiveColumn?_append {key front value : String} (hfront : front = key ++ "=")
    (hkey : '=' ∉ key.toList) (hne : key ≠ "") (hvalue : '=' ∉ value.toList) :
    hiveColumn? (front ++ value) = some (key, value) := by
  have htext : (front ++ value).toList = key.toList ++ '=' :: value.toList := by
    simp [hfront, String.toList_append]
  have hkeep : ∀ c ∈ key.toList, decide (c ≠ '=') = true := by
    intro c hc
    rw [decide_eq_true_eq]
    intro heq
    exact hkey (heq ▸ hc)
  have htake : (key.toList ++ '=' :: value.toList).takeWhile (· ≠ '=') = key.toList := by
    rw [List.takeWhile_append_of_pos hkeep, List.takeWhile_cons_of_neg (by decide),
      List.append_nil]
  have hdrop : (key.toList ++ '=' :: value.toList).dropWhile (· ≠ '=') = '=' :: value.toList := by
    rw [List.dropWhile_append_of_pos hkeep, List.dropWhile_cons_of_neg (by decide)]
  have hempty : ¬ (key.toList = [] ∨ '=' ∈ value.toList) := by
    rw [not_or]
    exact ⟨fun h => hne (String.toList_eq_nil_iff.mp h), hvalue⟩
  unfold hiveColumn?
  simp only [htext, htake, hdrop]
  rw [if_neg hempty, String.ofList_toList, String.ofList_toList]

theorem equals_notMem_zeroPad (width : ℕ) (n : Int) : '=' ∉ (zeroPad width n).toList := by
  intro hmem
  rw [zeroPad, String.toList_ofList, List.mem_append, List.mem_append] at hmem
  rcases hmem with (hmem | hmem) | hmem
  · split_ifs at hmem <;> simp at hmem
  · exact absurd (List.eq_of_mem_replicate hmem) (by decide)
  · exact absurd (repr_digits _ '=' hmem) (by decide)

/-- The directories of a shard are columns, its table and its name are not. -/
theorem hiveColumns_shardPath (table : Table) (date : Calendar.Date) (hour : Fin 24)
    (part : String) :
    (hiveColumns (shardPath (partitionDir table date hour) part)).map Prod.fst =
      partitionColumns := by
  have hname : hiveColumn? table.name = none := by
    cases table <;> decide
  have hyear := @hiveColumn?_append "year" "year=" (zeroPad 4 date.year) (by decide)
    (by decide) (by decide) (equals_notMem_zeroPad 4 _)
  have hmonth := @hiveColumn?_append "month" "month=" (zeroPad 2 date.month) (by decide)
    (by decide) (by decide) (equals_notMem_zeroPad 2 _)
  have hday := @hiveColumn?_append "day" "day=" (zeroPad 2 date.day) (by decide)
    (by decide) (by decide) (equals_notMem_zeroPad 2 _)
  have hhour := @hiveColumn?_append "hour" "hour=" (zeroPad 2 hour) (by decide)
    (by decide) (by decide) (equals_notMem_zeroPad 2 _)
  rw [hiveColumns, shardPath, List.dropLast_concat, partitionDir, List.filterMap_cons_none hname,
    List.filterMap_cons_some hyear, List.filterMap_cons_some hmonth,
    List.filterMap_cons_some hday, List.filterMap_cons_some hhour]
  rfl

end Hive

variable {β : Type} (codec : ParquetCodec β)

/-- A tree whose shards have all been written by `export_hour_shard`, in whatever selection. -/
def ShardTree (t : Tree β) : Prop :=
  ∀ p content, IsParquet p → t.lookup p = some content →
    ∃ calls history, ExportHistory codec calls history ∧
      ∃ u ∈ history, u.lookup p = some content

/-- Both trees that an attachment of a view finds are shard trees. -/
def Moment.OfShards (m : Moment β) : Prop := ShardTree codec m.probe ∧ ShardTree codec m.create

theorem ShardTree.mono {t u : Tree β} (h : ShardTree codec t)
    (hsub : ∀ p content, u.lookup p = some content → t.lookup p = some content) :
    ShardTree codec u := by
  intro p content hp hlookup
  exact h p content hp (hsub p content hlookup)

theorem ExportHistory.shardTree {calls : List (ExportCall β)} {history : List (Tree β)}
    (h : ExportHistory codec calls history) {t : Tree β} (ht : t ∈ ∅ :: history) :
    ShardTree codec t := by
  intro p content _ hlookup
  rcases List.mem_cons.mp ht with rfl | ht
  · rw [AList.lookup_empty] at hlookup
    cases hlookup
  · exact ⟨calls, history, h, t, ht, hlookup⟩

/-- A shard has the columns of its table, and its directories spell out four more. -/
theorem ShardTree.columns {t : Tree β} (h : ShardTree codec t) {table : Table}
    {file : Σ _ : Path, β} (hfile : file ∈ t.glob table) :
    ∃ f, codec.read file.2 = some f ∧
      f.columns ++ (hiveColumns file.1).map Prod.fst = View.columns table .parquet := by
  obtain ⟨hentry, hglob⟩ := List.mem_filter.mp hfile
  obtain ⟨hhead, hparquet⟩ : InGlob table file.1 := of_decide_eq_true hglob
  have hlookup : t.lookup file.1 = some file.2 := AList.mem_lookup_iff.mpr hentry
  obtain ⟨calls, history, hhistory, u, hu, hlookup⟩ := h file.1 file.2 hparquet hlookup
  have hextends := (List.pairwise_cons.mp
    (WriteOnce.pairwise_extends (hhistory.chain codec))).1 u hu
  obtain ⟨call, -, hslice⟩ :=
    hextends.complete file.1 file.2 hparquet (AList.lookup_empty _) hlookup
  obtain ⟨table', lo, hi, sym, part, -, -, -, hpath, hread⟩ := hslice
  have htable : table' = table := by
    rw [hpath] at hhead
    exact Table.name_injective (by simpa [shardPath, partitionDir] using hhead)
  subst htable
  refine ⟨_, hread, ?_⟩
  rw [hpath, hiveColumns_shardPath]
  rfl

theorem createParquetView_eq {m : Moment β} (h : ShardTree codec m.create) (table : Table) :
    createParquetView codec m table =
      if m.create.glob table = [] ∨ m.ioFails then .error .ioException
      else .ok (View.columns table .parquet) := by
  unfold createParquetView
  cases hglob : m.create.glob table with
  | nil => simp
  | cons file files =>
    obtain ⟨f, hread, hcolumns⟩ := h.columns codec (by rw [hglob]; exact List.mem_cons_self)
    dsimp only
    rw [hread]
    dsimp only
    rw [hcolumns]
    simp

/-- The kind of view that an attachment ends with. -/
def Moment.view (m : Moment β) (table : Table) : View :=
  if m.Finds table then .parquet else .empty

/-- Over shard trees one attachment never fails, and what it finds decides the columns. -/
theorem attachView_eq {m : Moment β} (h : m.OfShards codec) (table : Table) :
    attachView codec m table = .ok ((m.view table).columns table) := by
  unfold attachView Moment.view Moment.Finds
  rw [createParquetView_eq codec h.2]
  by_cases hprobe : m.probe.glob table = []
  · simp [hasAnyParquet, hprobe, createEmptyView, View.columns]
  · by_cases hcreate : m.create.glob table = [] ∨ m.ioFails
    · rw [if_pos hcreate]
      rcases hcreate with hcreate | hcreate <;>
        simp [hasAnyParquet, hprobe, hcreate, createEmptyView, View.columns]
    · rw [if_neg hcreate]
      rw [not_or] at hcreate
      simp [hasAnyParquet, hprobe, hcreate]

/-- The loop sets the views of its tables, by induction on the tables that remain. -/
theorem attachTables_eq {m : Table → Moment β} (h : ∀ table, (m table).OfShards codec)
    (tables : List Table) (views : ViewColumns) :
    attachTables codec m tables views = (.ok (), fun table =>
      if table ∈ tables then ((m table).view table).columns table else views table) := by
  induction tables generalizing views with
  | nil => simp [attachTables]
  | cons first tables ih =>
    rw [attachTables, attachView_eq codec (h first)]
    dsimp only
    rw [ih]
    congr 1
    funext table
    by_cases hmem : table ∈ tables
    · simp [hmem]
    · by_cases hfirst : table = first
      · subst hfirst
        simp [hmem]
      · simp [hmem, hfirst]

theorem attachAll_eq {m : Table → Moment β} (h : ∀ table, (m table).OfShards codec)
    (views : ViewColumns) :
    attachAll codec m views = (.ok (), fun table => ((m table).view table).columns table) := by
  rw [attachAll, attachTables_eq codec h]
  congr 1
  funext table
  cases table <;> simp

/-- The views after a call depend on that call alone, by induction on the calls. -/
theorem viewsAfterEach_eq {ms : List (Table → Moment β)}
    (h : ∀ m ∈ ms, ∀ table, (m table).OfShards codec) (views : ViewColumns) :
    viewsAfterEach codec ms views =
      ms.map fun m table => ((m table).view table).columns table := by
  induction ms generalizing views with
  | nil => rfl
  | cons m ms ih =>
    obtain ⟨hm, hms⟩ := List.forall_mem_cons.mp h
    rw [viewsAfterEach, attachAll_eq codec hm, ih hms]
    rfl

section Kinds

variable {m : Moment β} {table : Table}

theorem year_notMem_columns (table : Table) : "year" ∉ table.columns := by
  cases table <;> decide

theorem year_mem_iff : "year" ∈ (m.view table).columns table ↔ m.Finds table := by
  unfold Moment.view
  by_cases h : m.Finds table
  · rw [if_pos h]
    exact iff_of_true (List.mem_append_right _ List.mem_cons_self) h
  · rw [if_neg h]
    exact iff_of_false (year_notMem_columns table) h

/-- A query that names the predicate columns binds just where the year is a column. -/
theorem predicateColumns_subset_iff :
    predicateColumns ⊆ (m.view table).columns table ↔ m.Finds table := by
  constructor
  · intro h
    exact year_mem_iff.mp (h List.mem_cons_self)
  · intro h
    rw [Moment.view, if_pos h]
    cases table <;> decide

end Kinds

/-- Over shard trees the columns of a view are the same after every call just if all calls found
shards of its table or none did, and the predicate columns bind after every call just if all
calls found some. -/
theorem view_columns_stable_iff (ms : List (Table → Moment β)) (views : ViewColumns)
    (table : Table) (h : ∀ m ∈ ms, ∀ table, (m table).OfShards codec) :
    ((∀ v ∈ viewsAfterEach codec ms views, ∀ v' ∈ viewsAfterEach codec ms views,
        ∀ column, column ∈ v table ↔ column ∈ v' table) ↔
      (∀ m ∈ ms, (m table).Finds table) ∨ ∀ m ∈ ms, ¬ (m table).Finds table) ∧
    ((∀ v ∈ viewsAfterEach codec ms views, predicateColumns ⊆ v table) ↔
      ∀ m ∈ ms, (m table).Finds table) := by
  rw [viewsAfterEach_eq codec h]
  simp only [List.forall_mem_map]
  constructor
  · constructor
    · intro hsame
      by_cases hfound : ∃ m ∈ ms, (m table).Finds table
      · obtain ⟨m, hm, hfinds⟩ := hfound
        left
        intro m' hm'
        exact year_mem_iff.mp ((hsame m hm m' hm' "year").mp (year_mem_iff.mpr hfinds))
      · right
        intro m hm hfinds
        exact hfound ⟨m, hm, hfinds⟩
    · intro hall m hm m' hm' column
      have hview : (m table).view table = (m' table).view table := by
        unfold Moment.view
        rcases hall with hall | hall
        · rw [if_pos (hall m hm), if_pos (hall m' hm')]
        · rw [if_neg (hall m hm), if_neg (hall m' hm')]
      rw [hview]
  · constructor
    · intro hbinds m hm
      exact predicateColumns_subset_iff.mp (hbinds m hm)
    · intro hall m hm
      exact predicateColumns_subset_iff.mpr (hall m hm)

section Sample

def newsExport : ExportCall Frame :=
  newsCall tenOClock.toDatetime [(tenOClock.index * microsPerHour, some "005930")]

def newsTree : Tree Frame := Tree.after ∅ (newsExport.run plainCodec ∅).2

theorem shardTree_newsTree : ShardTree plainCodec newsTree := by
  have hhistory : ExportHistory plainCodec [newsExport] (newsExport.run plainCodec ∅).2 :=
    .call newsExport .start (List.prefix_refl _)
  exact hhistory.shardTree plainCodec (Tree.after_mem ∅ _)

theorem shardTree_empty : ShardTree plainCodec (∅ : Tree Frame) := by
  apply shardTree_newsTree.mono
  intro p content hlookup
  rw [AList.lookup_empty] at hlookup
  cases hlookup

/-- A call that finds a shard, and one that loses it between the probe and the view. -/
theorem view_columns_stable_news :
    let ms : List (Table → Moment Frame) :=
      [fun _ => ⟨newsTree, newsTree, false⟩, fun _ => ⟨newsTree, ∅, false⟩]
    ((∀ v ∈ viewsAfterEach plainCodec ms fun _ => [],
        ∀ v' ∈ viewsAfterEach plainCodec ms fun _ => [],
        ∀ column, column ∈ v .news ↔ column ∈ v' .news) ↔
      (∀ m ∈ ms, (m .news).Finds .news) ∨ ∀ m ∈ ms, ¬ (m .news).Finds .news) ∧
    ((∀ v ∈ viewsAfterEach plainCodec ms fun _ => [], predicateColumns ⊆ v .news) ↔
      ∀ m ∈ ms, (m .news).Finds .news) := by
  intro ms
  apply view_columns_stable_iff
  intro m hm table
  simp only [ms, List.mem_cons, List.not_mem_nil, or_false] at hm
  rcases hm with rfl | rfl
  · exact ⟨shardTree_newsTree, shardTree_newsTree⟩
  · exact ⟨shardTree_newsTree, shardTree_empty⟩

/-- Before the first shard the view of the news has no year, after it one. -/
theorem view_columns_change :
    let start : Table → Moment Frame := fun _ => ⟨∅, ∅, false⟩
    let refresh : Table → Moment Frame := fun _ => ⟨newsTree, newsTree, false⟩
    ∃ before after, viewsAfterEach plainCodec [start, refresh] (fun _ => []) = [before, after] ∧
      "year" ∉ before .news ∧ "year" ∈ after .news ∧ ¬ predicateColumns ⊆ before .news := by
  intro start refresh
  have hshards : ∀ m ∈ [start, refresh], ∀ table, (m table).OfShards plainCodec := by
    intro m hm table
    simp only [List.mem_cons, List.not_mem_nil, or_false] at hm
    rcases hm with rfl | rfl
    · exact ⟨shardTree_empty, shardTree_empty⟩
    · exact ⟨shardTree_newsTree, shardTree_newsTree⟩
  have hstart : ¬ (start .news).Finds .news := by decide
  have hrefresh : (refresh .news).Finds .news := by decide
  refine ⟨_, _, viewsAfterEach_eq plainCodec hshards _, ?_, ?_, ?_⟩
  · exact fun h => hstart (year_mem_iff.mp h)
  · exact year_mem_iff.mpr hrefresh
  · exact fun h => hstart (predicateColumns_subset_iff.mp h)

end Sample

end Athena
