import Athena.Shards.Filing
import Athena.Shards.Reader

/-!
# Reading through the shards is reading the source

After any run of successful exports of full UTC hours, the files of a table hold
each source row of the exported hours as often as the source does, and nothing
else. Both queries of the trading side therefore answer as if they read the
source, restricted to the exported hours.
-/

namespace Athena

theorem count_flatMap_of_unique {ι α : Type*} [BEq α] [LawfulBEq α] {x : α} {parts : List ι}
    (hnodup : parts.Nodup) {g : ι → List α} {a : ι} (ha : a ∈ parts)
    (hunique : ∀ b ∈ parts, x ∈ g b → b = a) : (parts.flatMap g).count x = (g a).count x := by
  induction parts with
  | nil => cases ha
  | cons b parts ih =>
    obtain ⟨hb, hnodup⟩ := List.nodup_cons.mp hnodup
    rw [List.flatMap_cons, List.count_append]
    rcases List.mem_cons.mp ha with rfl | ha
    · have hrest : x ∉ parts.flatMap g := by
        intro hx
        obtain ⟨c, hc, hxc⟩ := List.mem_flatMap.mp hx
        exact hb (hunique c (List.mem_cons_of_mem a hc) hxc ▸ hc)
      rw [List.count_eq_zero_of_not_mem hrest, add_zero]
    · have hx : x ∉ g b := fun hx => hb (hunique b List.mem_cons_self hx ▸ ha)
      rw [List.count_eq_zero_of_not_mem hx, zero_add]
      exact ih hnodup ha fun c hc => hunique c (List.mem_cons_of_mem b hc)

/-- Parts that share no element, each with its elements as often as the whole, make up what the
whole has of them. -/
theorem flatMap_perm_filter {ι α : Type*} [BEq α] [LawfulBEq α] {parts : List ι}
    (hnodup : parts.Nodup) {g : ι → List α} {whole : List α} {P : α → Prop} [DecidablePred P]
    (hcount : ∀ a ∈ parts, ∀ x ∈ g a, (g a).count x = whole.count x ∧ P x)
    (hunique : ∀ a ∈ parts, ∀ b ∈ parts, ∀ x, x ∈ g a → x ∈ g b → b = a)
    (hcover : ∀ x ∈ whole, P x → ∃ a ∈ parts, x ∈ g a) :
    (parts.flatMap g).Perm (whole.filter fun x => P x) := by
  rw [List.perm_iff_count]
  intro x
  by_cases hx : ∃ a ∈ parts, x ∈ g a
  · obtain ⟨a, ha, hx⟩ := hx
    obtain ⟨hsame, hP⟩ := hcount a ha x hx
    calc
      (parts.flatMap g).count x
      _ = (g a).count x :=
        count_flatMap_of_unique hnodup ha fun b hb hx' => hunique a ha b hb x hx hx'
      _ = whole.count x := hsame
      _ = _ := (List.count_filter (p := fun x => P x) (decide_eq_true hP)).symm
  · have hleft : x ∉ parts.flatMap g := fun hmem => hx (List.mem_flatMap.mp hmem)
    have hright : x ∉ whole.filter fun x => P x := by
      intro hmem
      obtain ⟨hwhole, hP⟩ := List.mem_filter.mp hmem
      exact hx (hcover x hwhole (of_decide_eq_true hP))
    rw [List.count_eq_zero_of_not_mem hleft, List.count_eq_zero_of_not_mem hright]

variable {β : Type} (codec : ParquetCodec β)

def fileRows (file : Σ _ : Path, β) : List TableRow :=
  match codec.read file.2 with
  | some f => f.rows
  | none => []

theorem mapM_readFile {files : List (Σ _ : Path, β)}
    (h : ∀ file ∈ files, ∃ f, codec.read file.2 = some f) :
    ∃ parts, files.mapM (readFile codec) = .ok parts ∧
      parts.flatten.map ScanRow.own = files.flatMap (fileRows codec) := by
  induction files with
  | nil => exact ⟨[], rfl, rfl⟩
  | cons file files ih =>
    obtain ⟨parts, hparts, hrows⟩ := ih fun g hg => h g (List.mem_cons_of_mem file hg)
    obtain ⟨f, hf⟩ := h file List.mem_cons_self
    refine ⟨(f.rows.map fun r => ⟨r, hiveColumns file.1⟩) :: parts, ?_, ?_⟩
    · rw [List.mapM_cons, hparts]
      simp only [readFile, hf]
      rfl
    · simp [hrows, fileRows, hf, Function.comp_def]

theorem scan_init {t : Tree β} {table : Table}
    (h : ∀ file ∈ t.glob table, ∃ f, codec.read file.2 = some f) :
    ∃ rows, (FeatureStore.init t).scan codec t table = .ok rows ∧
      rows.map ScanRow.own = (t.glob table).flatMap (fileRows codec) := by
  by_cases hempty : t.glob table = []
  · have hview : (FeatureStore.init t).views table = .empty := by
      simp [FeatureStore.init, attachParquetViews, hasAnyParquet, hempty]
    rw [FeatureStore.scan, hview, hempty]
    exact ⟨[], rfl, rfl⟩
  · have hview : (FeatureStore.init t).views table = .parquet := by
      simp [FeatureStore.init, attachParquetViews, hasAnyParquet, hempty]
    obtain ⟨parts, hparts, hrows⟩ := mapM_readFile codec h
    refine ⟨parts.flatten, ?_, hrows⟩
    rw [FeatureStore.scan, hview]
    dsimp only
    rw [readParquet, if_neg hempty, hparts]
    rfl

/-- The time lies in an hour that a call exported for the table. -/
def ExportedHour (calls : List (ExportCall β)) (table : Table) (instant : Int) : Prop :=
  ∃ call ∈ calls, call.table = table.name ∧ call.hourUtcStart.namedHour.Contains instant

instance (calls : List (ExportCall β)) (table : Table) (instant : Int) :
    Decidable (ExportedHour calls table instant) := inferInstanceAs (Decidable (∃ _ ∈ _, _))

section Run

variable {codec} {src : Source} {calls : List (ExportCall β)} {t : Tree β}

theorem mem_glob {table : Table} {file : Σ _ : Path, β} : file ∈ t.glob table ↔
    InGlob table file.1 ∧ t.lookup file.1 = some file.2 := by
  rw [Tree.glob, List.mem_filter, decide_eq_true_iff, and_comm, ← Option.mem_def,
    AList.mem_lookup_iff]

theorem ExportRun.readable (h : ExportRun codec src calls t) (table : Table) :
    ∀ file ∈ t.glob table, ∃ f, codec.read file.2 = some f := by
  intro file hfile
  obtain ⟨⟨-, hparquet⟩, hlookup⟩ := mem_glob.mp hfile
  obtain ⟨_, -, _, _, _, _, _, -, -, -, -, hread⟩ := h.sliceAt hparquet hlookup
  exact ⟨_, hread⟩

theorem glob_nodup (t : Tree β) (table : Table) : (t.glob table).Nodup :=
  t.nodupKeys.nodup.filter _

theorem ExportRun.holds_of_mem (h : ExportRun codec src calls t) {table : Table}
    {file : Σ _ : Path, β} (hfile : file ∈ t.glob table) {r : TableRow}
    (hr : r ∈ fileRows codec file) : Holds codec t table file.1 r := by
  obtain ⟨⟨hhead, hparquet⟩, hlookup⟩ := mem_glob.mp hfile
  obtain ⟨f, hread⟩ := h.readable table file hfile
  rw [fileRows, hread] at hr
  exact ⟨hparquet, hhead, file.2, f, hlookup, hread, hr⟩

section Hours

variable (h : ExportRun codec src calls t)
  (hhours : ∀ call ∈ calls, ∃ hour : UtcHour, call.hourUtcStart = hour.toDatetime)
include h hhours

theorem ExportRun.file_unique {table : Table} {file other : Σ _ : Path, β}
    (hfile : file ∈ t.glob table) (hother : other ∈ t.glob table) {r : TableRow}
    (hr : r ∈ fileRows codec file) (hr' : r ∈ fileRows codec other) : other = file := by
  have hfiled : FiledByHour codec src t := h.filedByHour codec fun call hcall => by
    obtain ⟨hour, heq⟩ := hhours call hcall
    exact heq ▸ hour.inNamedHour
  have hpath := hfiled.once table r _ _ (h.holds_of_mem hother hr') (h.holds_of_mem hfile hr)
  obtain ⟨path, content⟩ := file
  obtain ⟨path', content'⟩ := other
  obtain rfl : path' = path := hpath
  have hcontent : some content' = some content :=
    (mem_glob.mp hother).2.symm.trans (mem_glob.mp hfile).2
  rw [Option.some.inj hcontent]

/-- A file has a row as often as the source, and the row is of an exported hour. -/
theorem ExportRun.count_file {table : Table} {file : Σ _ : Path, β}
    (hfile : file ∈ t.glob table) {r : TableRow} (hr : r ∈ fileRows codec file) :
    (fileRows codec file).count r = (src.rows table).count r ∧
      ExportedHour calls table (table.time r) := by
  obtain ⟨⟨hhead, hparquet⟩, hlookup⟩ := mem_glob.mp hfile
  obtain ⟨f, hread⟩ := h.readable table file hfile
  obtain ⟨call, hcall, hslice⟩ := h.sliceAt hparquet hlookup
  obtain ⟨lo, hi, part, sym, hname, hwindow, -, -, rfl⟩ := hslice.frame codec hread hhead
  rw [fileRows, hread] at hr ⊢
  obtain ⟨hquery, hsym⟩ := List.mem_filter.mp hr
  have hmem := Table.mem_queryWindow.mp hquery
  constructor
  · calc
      ((table.queryWindow call.source lo hi).rows.filter _).count r
      _ = (table.queryWindow call.source lo hi).rows.count r := List.count_filter hsym
      _ = (table.slice call.source lo hi).count r :=
        (table.queryWindow_perm call.source lo hi).count_eq r
      _ = (call.source.rows table).count r := List.count_filter (decide_eq_true hmem.2)
      _ = (src.rows table).count r := by rw [h.source_eq call hcall]
  · obtain ⟨hour, heq⟩ := hhours call hcall
    refine ⟨call, hcall, Table.eq_name_of_ofName? hname, ?_⟩
    exact heq ▸ hour.inNamedHour lo hi (heq ▸ hwindow) _ hmem.2.1 hmem.2.2

theorem ExportRun.exists_file {table : Table} {r : TableRow} (hr : r ∈ src.rows table)
    (hexported : ExportedHour calls table (table.time r)) :
    ∃ file ∈ t.glob table, r ∈ fileRows codec file := by
  obtain ⟨call, hcall, hname, hcontains⟩ := hexported
  obtain ⟨_, lo, hi, -, hwindow⟩ := h.window call hcall
  obtain ⟨hour, heq⟩ := hhours call hcall
  rw [heq] at hcontains
  obtain ⟨rfl, rfl⟩ := exportWindow_toDatetime (heq ▸ hwindow)
  have hslice : r ∈ table.slice src (hour.index * microsPerHour)
      ((hour.index + 1) * microsPerHour) :=
    List.mem_filter.mpr ⟨hr, decide_eq_true hcontains⟩
  obtain ⟨part, hparquet, hhead, content, f, hlookup, hread, hrow⟩ :=
    h.holds codec hcall (hname ▸ Table.ofName?_name table) hwindow hslice
  refine ⟨⟨_, content⟩, mem_glob.mpr ⟨⟨hhead, hparquet⟩, hlookup⟩, ?_⟩
  rw [fileRows, hread]
  exact hrow

/-- The files of a table hold the source rows of the exported hours, as often as the source. -/
theorem ExportRun.glob_perm (table : Table) :
    ((t.glob table).flatMap (fileRows codec)).Perm
      ((src.rows table).filter fun r => ExportedHour calls table (table.time r)) :=
  flatMap_perm_filter (glob_nodup t table) (fun _ hfile _ hr => h.count_file hhours hfile hr)
    (fun _ hfile _ hother _ hr hr' => h.file_unique hhours hfile hother hr hr')
    fun _ hsrc hexported => h.exists_file hhours hsrc hexported

/-- A query returns the rows of the source that satisfy it and are exported, in time order. -/
theorem ExportRun.select_spec (table : Table) (cond : TableRow → Bool) :
    ∃ rows, (FeatureStore.init t).select codec t table cond = .ok rows ∧
      (rows.map ScanRow.own).Perm ((src.rows table).filter fun r =>
        cond r ∧ ExportedHour calls table (table.time r)) ∧
      (rows.map fun row => table.time row.own).Pairwise (· ≤ ·) := by
  obtain ⟨all, hall, hown⟩ := scan_init codec (h.readable table)
  let le : ScanRow → ScanRow → Prop := fun a b => table.time a.own ≤ table.time b.own
  refine ⟨(all.filter fun row => cond row.own).insertionSort le, ?_, ?_, ?_⟩
  · rw [FeatureStore.select, hall]
    rfl
  · have hfilter : (all.filter fun row => cond row.own).map ScanRow.own =
        ((t.glob table).flatMap (fileRows codec)).filter cond := by
      rw [← hown, List.filter_map]
      rfl
    have hglob := (h.glob_perm hhours table).filter cond
    rw [List.filter_filter] at hglob
    have hsort := (List.perm_insertionSort le (all.filter fun row => cond row.own)).map ScanRow.own
    simpa only [Bool.decide_and, Bool.decide_eq_true] using hsort.trans (hfilter ▸ hglob)
  · have : Std.Total le := ⟨fun a b => le_total _ _⟩
    have : IsTrans ScanRow le := ⟨fun a b c => le_trans⟩
    exact List.pairwise_map.mpr (List.pairwise_insertionSort le _)

end Hours

/-- Both queries of the trading side answer as on the source, within the exported hours. -/
theorem queries_read_source (h : ExportRun codec src calls t)
    (hhours : ∀ call ∈ calls, ∃ hour : UtcHour, call.hourUtcStart = hour.toDatetime) :
    (∀ symbol sinceUtc since, sinceUtc.instant = some since →
      ∃ rows, (FeatureStore.init t).queryNewsForSymbol codec t symbol sinceUtc = .ok rows ∧
        (rows.map ScanRow.own).Perm ((src.rows .news).filter fun r =>
          Table.news.symbol r = some symbol ∧ since ≤ Table.news.time r ∧
            ExportedHour calls .news (Table.news.time r)) ∧
        (rows.map fun row => Table.news.time row.own).Pairwise (· ≤ ·)) ∧
    (∀ symbol lookback now, 0 < lookback → lookback ≤ FeatureStore.maxLookbackMin →
      ∃ rows, (FeatureStore.init t).queryRecentTicks codec t now symbol lookback = .ok rows ∧
        (rows.map ScanRow.own).Perm ((src.rows .ticks).filter fun r =>
          Table.ticks.symbol r = some symbol ∧ now - lookback * 60000000 < Table.ticks.time r ∧
            ExportedHour calls .ticks (Table.ticks.time r)) ∧
        (rows.map fun row => Table.ticks.time row.own).Pairwise (· ≤ ·)) := by
  constructor
  · intro symbol sinceUtc since hsince
    obtain ⟨rows, hrows, hperm, hsorted⟩ := h.select_spec hhours .news fun r =>
      Table.news.symbol r = some symbol ∧ since ≤ Table.news.time r
    refine ⟨rows, ?_, ?_, hsorted⟩
    · rw [FeatureStore.queryNewsForSymbol, hsince]
      exact hrows
    · simpa only [decide_eq_true_eq, and_assoc] using hperm
  · intro symbol lookback now hpos hmax
    obtain ⟨rows, hrows, hperm, hsorted⟩ := h.select_spec hhours .ticks fun r =>
      Table.ticks.symbol r = some symbol ∧ now - lookback * 60000000 < Table.ticks.time r
    refine ⟨rows, ?_, ?_, hsorted⟩
    · rw [FeatureStore.queryRecentTicks, if_neg (not_not.mpr ⟨hpos, hmax⟩)]
      exact hrows
    · simpa only [decide_eq_true_eq, and_assoc] using hperm

end Run

theorem queries_read_source_news :
    let start := tenOClock.index * microsPerHour
    let items := [(start, some "005930"), (start + 7, none), (start - 1, some "005930")]
    let call := newsCall tenOClock.toDatetime items
    let t := Tree.after ∅ (call.run plainCodec ∅).2
    (∀ symbol sinceUtc since, sinceUtc.instant = some since →
      ∃ rows, (FeatureStore.init t).queryNewsForSymbol plainCodec t symbol sinceUtc = .ok rows ∧
        (rows.map ScanRow.own).Perm ((items.map newsRow).filter fun r =>
          Table.news.symbol r = some symbol ∧ since ≤ Table.news.time r ∧
            ExportedHour [call] .news (Table.news.time r)) ∧
        (rows.map fun row => Table.news.time row.own).Pairwise (· ≤ ·)) ∧
    (∀ symbol lookback now, 0 < lookback → lookback ≤ FeatureStore.maxLookbackMin →
      ∃ rows, (FeatureStore.init t).queryRecentTicks plainCodec t now symbol lookback = .ok rows ∧
        (rows.map ScanRow.own).Perm (([] : List TableRow).filter fun r =>
          Table.ticks.symbol r = some symbol ∧ now - lookback * 60000000 < Table.ticks.time r ∧
            ExportedHour [call] .ticks (Table.ticks.time r)) ∧
        (rows.map fun row => Table.ticks.time row.own).Pairwise (· ≤ ·)) := by
  intro start items call t
  have hrun : ExportRun plainCodec (newsSource items) [call] t :=
    ExportRun.start.call_isOk call rfl rfl (by decide)
  exact queries_read_source hrun fun c hc => ⟨tenOClock, List.mem_singleton.mp hc ▸ rfl⟩

end Athena
