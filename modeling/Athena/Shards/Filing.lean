import Athena.Shards.Runs

/-!
# Rows are filed once and under their hour

The query window of a call is computed on instants, its directory from the
wall-clock fields. The two agree if every instant of the window lies in the hour
that the fields name, and then no row is exported twice or misfiled. A start
for which they disagree has a content on which it misfiles.
-/

namespace Athena

variable {β : Type} (codec : ParquetCodec β)

def Holds (t : Tree β) (table : Table) (p : Path) (r : TableRow) : Prop :=
  IsParquet p ∧ p.head? = some table.name ∧
    ∃ content f, t.lookup p = some content ∧ codec.read content = some f ∧ r ∈ f.rows

/-- No row is exported twice and none is filed under the wrong hour. -/
structure FiledByHour (src : Source) (t : Tree β) : Prop where
  once : ∀ table r p q, Holds codec t table p r → Holds codec t table q r → p = q
  count_le : ∀ table p content f, IsParquet p → p.head? = some table.name →
    t.lookup p = some content → codec.read content = some f →
    ∀ r, f.rows.count r ≤ (src.rows table).count r
  hour : ∀ table r p, Holds codec t table p r → ∃ (hour : UtcHour) (part : String),
    p = shardPath (partitionDir table hour.date hour.hour) part ∧ hour.Contains (table.time r)

/-- Every instant of the query window lies in the UTC hour that the wall-clock fields name. -/
def Datetime.InNamedHour (start : Datetime) : Prop :=
  ∀ lo hi, exportWindow start = .ok (lo, hi) →
    ∀ instant, lo ≤ instant → instant < hi → start.namedHour.Contains instant

theorem exportWindow_toDatetime {h : UtcHour} {lo hi : Int}
    (hwindow : exportWindow h.toDatetime = .ok (lo, hi)) :
    lo = h.index * microsPerHour ∧ hi = (h.index + 1) * microsPerHour := by
  unfold exportWindow at hwindow
  rw [h.instant_toDatetime] at hwindow
  dsimp only at hwindow
  cases hlater : h.toDatetime.hourLater with
  | none =>
    rw [hlater] at hwindow
    cases hwindow
  | some later =>
    rw [hlater] at hwindow
    cases hwindow
    exact ⟨rfl, UtcHour.hourLater_toDatetime hlater⟩

theorem UtcHour.inNamedHour (h : UtcHour) : h.toDatetime.InNamedHour := by
  intro lo hi hwindow instant hlo hhi
  obtain ⟨rfl, rfl⟩ := exportWindow_toDatetime hwindow
  exact ⟨hlo, hhi⟩

theorem ExportCall.SliceAt.frame {call : ExportCall β} {p : Path} {content : β}
    (h : call.SliceAt codec p content) {f : Frame} (hread : codec.read content = some f)
    {table : Table} (htable : p.head? = some table.name) :
    ∃ lo hi part sym, Table.ofName? call.table = some table ∧
      exportWindow call.hourUtcStart = .ok (lo, hi) ∧ partSym sym = .ok part ∧
      p = shardPath (call.dir table) part ∧
      f = table.withSymbol (table.queryWindow call.source lo hi) sym := by
  obtain ⟨table', lo, hi, sym, part, hname, hwindow, hpart, rfl, hcontent⟩ := h
  have htable : table' = table :=
    Table.name_injective (by simpa [shardPath, partitionDir] using htable)
  subst htable
  exact ⟨lo, hi, part, sym, hname, hwindow, hpart, rfl,
    Option.some.inj (hread.symm.trans hcontent)⟩

/-- Where a run of calls whose windows lie in their named hours puts a row. -/
theorem ExportRun.path_of_holds {src : Source} {calls : List (ExportCall β)} {t : Tree β}
    (h : ExportRun codec src calls t) (hcalls : ∀ call ∈ calls, call.hourUtcStart.InNamedHour)
    {table : Table} {p : Path} {r : TableRow} (hholds : Holds codec t table p r) :
    ∃ (hour : UtcHour) (part : String), partSym (table.symbol r) = .ok part ∧
      hour.Contains (table.time r) ∧
      p = shardPath (partitionDir table hour.date hour.hour) part := by
  obtain ⟨hparquet, hhead, content, f, hlookup, hread, hr⟩ := hholds
  obtain ⟨call, hcall, hslice⟩ := h.sliceAt hparquet hlookup
  obtain ⟨lo, hi, part, sym, -, hwindow, hpart, rfl, rfl⟩ := hslice.frame codec hread hhead
  obtain ⟨hquery, hsym⟩ := List.mem_filter.mp hr
  obtain ⟨-, hlo, hhi⟩ := Table.mem_queryWindow.mp hquery
  rw [← of_decide_eq_true hsym] at hpart
  exact ⟨_, part, hpart, hcalls call hcall lo hi hwindow _ hlo hhi, rfl⟩

theorem ExportRun.filedByHour {src : Source} {calls : List (ExportCall β)} {t : Tree β}
    (h : ExportRun codec src calls t) (hcalls : ∀ call ∈ calls, call.hourUtcStart.InNamedHour) :
    FiledByHour codec src t where
  once table r p q hp hq := by
    obtain ⟨hour, part, hpart, hcontains, rfl⟩ := h.path_of_holds codec hcalls hp
    obtain ⟨hour', part', hpart', hcontains', rfl⟩ := h.path_of_holds codec hcalls hq
    rw [hcontains.unique hcontains', Except.ok.inj (hpart.symm.trans hpart')]
  count_le table p content f hparquet hhead hlookup hread r := by
    obtain ⟨call, hcall, hslice⟩ := h.sliceAt hparquet hlookup
    obtain ⟨lo, hi, part, sym, -, -, -, -, rfl⟩ := hslice.frame codec hread hhead
    rw [h.source_eq call hcall]
    calc
      _ ≤ (table.queryWindow src lo hi).rows.count r := List.filter_sublist.count_le r
      _ = (table.slice src lo hi).count r := (table.queryWindow_perm src lo hi).count_eq r
      _ ≤ _ := List.filter_sublist.count_le r
  hour table r p hp := by
    obtain ⟨hour, part, -, hcontains, rfl⟩ := h.path_of_holds codec hcalls hp
    exact ⟨hour, part, rfl, hcontains⟩

theorem ExportRun.holds {src : Source} {calls : List (ExportCall β)} {t : Tree β}
    (h : ExportRun codec src calls t) {call : ExportCall β} (hcall : call ∈ calls)
    {table : Table} {lo hi : Int} (htable : Table.ofName? call.table = some table)
    (hwindow : exportWindow call.hourUtcStart = .ok (lo, hi)) {r : TableRow}
    (hr : r ∈ table.slice src lo hi) :
    ∃ part, Holds codec t table (shardPath (call.dir table) part) r := by
  obtain ⟨part, content, -, hlookup, hread⟩ := h.written hcall htable hwindow r hr
  refine ⟨part, isParquet_shardPath _ _, rfl, content, _, hlookup, hread, ?_⟩
  exact List.mem_filter.mpr
    ⟨(table.queryWindow_perm src lo hi).mem_iff.mpr hr, decide_eq_true rfl⟩

def singleCall (start : Datetime) (instant : Int) : ExportCall β :=
  ⟨"news", start, .fail, newsSource [(instant, some "005930")],
    ⟨0, none, fun _ => ⟨0, [], none⟩⟩⟩

theorem singleCall_succeeds {start : Datetime} {lo hi instant : Int}
    (hwindow : exportWindow start = .ok (lo, hi)) (hlo : lo ≤ instant) (hhi : instant < hi) :
    ∃ result, ((singleCall start instant).run codec ∅).1 = .ok result := by
  let r := newsRow (instant, some "005930")
  have htime : Table.news.time r = instant := rfl
  have hquery : Table.news.queryWindow (newsSource [(instant, some "005930")]) lo hi =
      ⟨Table.news.columns, [r]⟩ := by
    have hslice : Table.news.slice (newsSource [(instant, some "005930")]) lo hi = [r] := by
      rw [Table.slice]
      exact List.filter_cons_of_pos (decide_eq_true (htime.symm ▸ ⟨hlo, hhi⟩))
    rw [Table.queryWindow, hslice]
    rfl
  have hnews : Table.ofName? "news" = some .news := Table.ofName?_name .news
  unfold ExportCall.run exportHourShard singleCall
  dsimp only
  rw [hnews]
  dsimp only
  rw [hwindow]
  dsimp only
  rw [hquery]
  exact ⟨_, rfl⟩

/-- A set of starts never misfiles, on any content and in any run, if and only if each of
them has a window inside its named hour. -/
theorem rows_filed_by_hour_iff (starts : Set Datetime) :
    (∀ src calls t, ExportRun codec src calls t →
      (∀ call ∈ calls, call.hourUtcStart ∈ starts) → FiledByHour codec src t) ↔
    ∀ start ∈ starts, start.InNamedHour := by
  constructor
  · intro hfiled start hstart lo hi hwindow instant hlo hhi
    let call : ExportCall β := singleCall start instant
    obtain ⟨result, hok⟩ := singleCall_succeeds codec hwindow hlo hhi
    have hrun : ExportRun codec call.source [call] (Tree.after ∅ (call.run codec ∅).2) :=
      .call call .start rfl rfl hok
    have hr : newsRow (instant, some "005930") ∈ Table.news.slice call.source lo hi :=
      List.mem_filter.mpr ⟨List.mem_singleton_self _, decide_eq_true ⟨hlo, hhi⟩⟩
    obtain ⟨part, hholds⟩ :=
      hrun.holds codec List.mem_cons_self (Table.ofName?_name .news) hwindow hr
    obtain ⟨hour, part', hpath, hcontains⟩ :=
      (hfiled _ _ _ hrun (by simpa [call, singleCall] using hstart)).hour _ _ _ hholds
    have hdir : start.namedHour = hour :=
      (partitionDir_inj (List.append_inj_left' hpath rfl)).2
    exact hdir ▸ hcontains
  · intro hnamed src calls t hrun hcalls
    exact hrun.filedByHour codec fun call hcall => hnamed _ (hcalls call hcall)

def halfPastTen : Datetime := { tenOClock.toDatetime with minute := ⟨30, by decide⟩ }

/-- The half-hour start takes a row of the next hour into its directory, and the export of
that hour writes it again. -/
theorem half_hour_start_misfiles :
    let row := (tenOClock.index * microsPerHour + 4500000000, some "005930")
    let eleven : UtcHour := { tenOClock with hour := 11 }
    let calls := [newsCall halfPastTen [row], newsCall eleven.toDatetime [row]]
    ∃ t, ExportRun plainCodec (newsSource [row]) calls t ∧
      ¬ FiledByHour plainCodec (newsSource [row]) t := by
  intro row eleven calls
  have hrun : ExportRun plainCodec (newsSource [row]) calls _ :=
    (ExportRun.start.call_isOk (newsCall halfPastTen [row]) rfl rfl (by decide)).call_isOk
      (newsCall eleven.toDatetime [row]) rfl rfl (by decide)
  refine ⟨_, hrun, fun hfiled => ?_⟩
  have hnews : Table.ofName? "news" = some .news := Table.ofName?_name .news
  have hslice : ∀ lo hi, lo ≤ row.1 → row.1 < hi →
      newsRow row ∈ Table.news.slice (newsSource [row]) lo hi := fun lo hi hlo hhi =>
    List.mem_filter.mpr ⟨List.mem_singleton_self _, decide_eq_true ⟨hlo, hhi⟩⟩
  have htenWindow : exportWindow halfPastTen =
      .ok (halfPastTen.wall, halfPastTen.wall + microsPerHour) := by decide
  have helevenWindow : exportWindow eleven.toDatetime =
      .ok (eleven.toDatetime.wall, eleven.toDatetime.wall + microsPerHour) := by decide
  obtain ⟨part, hten⟩ := hrun.holds plainCodec List.mem_cons_self hnews htenWindow
    (hslice _ _ (by decide) (by decide))
  obtain ⟨part', heleven⟩ := hrun.holds plainCodec
    (List.mem_cons_of_mem _ List.mem_cons_self) hnews helevenWindow
    (hslice _ _ (by decide) (by decide))
  have hdirs := List.append_inj_left' (hfiled.once .news _ _ _ hten heleven) rfl
  exact absurd (partitionDir_inj (g := tenOClock) (h := eleven) hdirs).2 (by decide)

end Athena
