import Athena.Core.Dto
import Athena.Shards.CheckRun
import Athena.Shards.FailedExport

/-!
# What the storage models admit and the exporter accepts

`TickRow`, `QuoteRow` and `NewsRow` ask little of a symbol. The exporter asks
for a file name, of every symbol of the hour, and stops at the first one that
is not fit for it.
-/

namespace Athena

variable {β : Type}

namespace Table

/-- A text field whose value passes the check. -/
def textField (t : Table) (r : TableRow) (column : String) (check : String → Bool) :
    String × Bool :=
  (column, match t.cell r column with
    | .varchar s => check s
    | _ => false)

/-- A `datetime` field; TIMESTAMPTZ values are aware. -/
def awareField (t : Table) (r : TableRow) (column : String) : String × Bool :=
  (column, match t.cell r column with
    | .timestamptz micros => (requireUtc (.aware micros)).toBool
    | _ => false)

def naturalField (t : Table) (r : TableRow) (column : String) : String × Bool :=
  (column, match t.cell r column with
    | .integer n => 0 ≤ n
    | _ => false)

def nonemptyField (t : Table) (r : TableRow) (column : String) : String × Bool :=
  t.textField r column fun s => s ≠ ""

def literalField (t : Table) (r : TableRow) (column : String) (values : List String) :
    String × Bool :=
  t.textField r column fun s => s ∈ values

/-- The checks of `BaseDTO` and that of `user_id`. -/
def commonChecks (t : Table) (r : TableRow) : List (String × Bool) :=
  [t.awareField r "timestamp", t.textField r "module_version" isModuleVersion,
    t.textField r "policy_version_git_sha" isPolicySha, t.naturalField r "user_id"]

/-- The checked fields of `TickRow`, `QuoteRow` and `NewsRow`. Those left out, `symbol` of news
among them, accept every value of their type. -/
def dtoChecks : Table → TableRow → List (String × Bool)
  | ticks, r => ticks.commonChecks r ++
      [ticks.nonemptyField r "symbol", ticks.literalField r "trade_side" ["B", "S", "_"]]
  | quotes, r => quotes.commonChecks r ++
      [quotes.nonemptyField r "symbol", quotes.literalField r "interval" ["1m", "1d"]]
  | news, r => news.commonChecks r ++
      [news.awareField r "published_at_utc",
        news.literalField r "source" ["DART", "naver", "daum", "yna", "mk", "hankyung"],
        news.nonemptyField r "headline", news.nonemptyField r "url",
        news.textField r "dedup_hash" fun s => IsHex64 s]

/-- The row is a valid value of the storage model of its table. -/
def Accepts (t : Table) (r : TableRow) : Prop := rejectedFields (t.dtoChecks r) = []

instance (t : Table) (r : TableRow) : Decidable (t.Accepts r) := inferInstanceAs (Decidable (_ = _))

theorem Accepts.check {t : Table} {r : TableRow} (h : t.Accepts r) :
    ∀ check ∈ t.dtoChecks r, check.2 = true := by
  intro check hcheck
  have hnot := List.filter_eq_nil_iff.mp (List.map_eq_nil_iff.mp h) check hcheck
  simpa using hnot

theorem Accepts.symbol_ne_empty {t : Table} {r : TableRow} (h : t.Accepts r) (hnews : t ≠ .news)
    {sym : String} (hsym : t.symbol r = some sym) : sym ≠ "" := by
  have hmem : t.nonemptyField r "symbol" ∈ t.dtoChecks r := by
    cases t with
    | ticks => simp [dtoChecks]
    | quotes => simp [dtoChecks]
    | news => exact absurd rfl hnews
  have hcheck := h.check _ hmem
  unfold nonemptyField textField at hcheck
  unfold symbol at hsym
  cases hcell : t.cell r "symbol" with
  | varchar s =>
    rw [hcell] at hcheck hsym
    obtain rfl := Option.some.inj hsym
    exact of_decide_eq_true hcheck
  | null | timestamptz _ | integer _ | decimal _ | boolean _ =>
    rw [hcell] at hsym
    cases hsym

end Table

/-- What a file name needs beyond what the storage models guarantee. -/
def Exportable (table : Table) (sym : String) : Prop :=
  sym.toList.length ≤ 32 ∧ (∀ c ∈ sym.toList, isSymbolChar c) ∧ sym ≠ symbolNullSentinel ∧
    (table = .news → sym ≠ "")

theorem symbolValid_of_chars {sym : String} (hne : sym ≠ "") (hlen : sym.toList.length ≤ 32)
    (hchars : ∀ c ∈ sym.toList, isSymbolChar c) : symbolValid sym = true := by
  have htake : sym.toList.takeWhile isSymbolChar = sym.toList :=
    List.takeWhile_eq_self_iff.mpr hchars
  have hdrop : sym.toList.dropWhile isSymbolChar = [] := List.dropWhile_eq_nil_iff.mpr hchars
  have hpos : 1 ≤ sym.toList.length := by
    rw [Nat.one_le_iff_ne_zero, ne_eq, List.length_eq_zero_iff, String.toList_eq_nil_iff]
    exact hne
  unfold symbolValid
  rw [htake, hdrop]
  simp [hpos, hlen, atEnd]

/-- The symbol of a valid row is a file name if it is exportable. -/
theorem Exportable.validateSymbol {table : Table} {r : TableRow} {sym : String}
    (h : Exportable table sym) (hr : table.Accepts r) (hsym : table.symbol r = some sym) :
    validateSymbol sym = .ok () := by
  obtain ⟨hlen, hchars, hsentinel, hnews⟩ := h
  have hne : sym ≠ "" := by
    by_cases htable : table = .news
    · exact hnews htable
    · exact hr.symbol_ne_empty htable hsym
  exact validateSymbol_eq_ok_iff.mpr ⟨hsentinel, symbolValid_of_chars hne hlen hchars⟩

/-- The `ValueError`s of `_validate_symbol`. -/
def ShardError.ForSymbol : ShardError → Prop
  | .symbolIsSentinel => True
  | .symbolUnsupported _ => True
  | _ => False

def RaisesForSymbol {α : Type} (out : Except ShardError α × List (Tree β)) : Prop :=
  ∃ e, out.1 = .error e ∧ e.ForSymbol

theorem raisesForSymbol_followed {α γ : Type} {out : Except ShardError α × List (Tree β)}
    {rest : α → Except ShardError γ × List (Tree β)} :
    RaisesForSymbol (followed out rest) ↔
      RaisesForSymbol out ∨ ∃ a, out.1 = .ok a ∧ RaisesForSymbol (rest a) := by
  obtain ⟨result, trace⟩ := out
  cases result <;> simp [followed, RaisesForSymbol]

theorem partSym_error {sym : Option String} {e : ShardError} (h : partSym sym = .error e) :
    e.ForSymbol := by
  cases sym with
  | none => cases h
  | some sym =>
    have hmap : partSym (some sym) = (validateSymbol sym).map fun _ => sym := rfl
    rw [hmap] at h
    unfold validateSymbol at h
    split_ifs at h <;> cases h <;> trivial

theorem partSym_isOk_iff {sym : Option String} :
    (∃ part, partSym sym = .ok part) ↔ ∀ s, sym = some s → validateSymbol s = .ok () := by
  cases sym with
  | none => simp [partSym]
  | some sym => simp [partSym_some_iff]

theorem writeShard_error (codec : ParquetCodec β) {env : WriteEnv β} {tmpFile outFile : Path}
    {f : Frame} {t : Tree β} {e : ShardError}
    (h : (writeShard codec env tmpFile outFile f t).1 = .error e) : e = .os := by
  unfold writeShard at h
  split at h <;> cases h
  all_goals rfl

section Loop

variable (codec : ParquetCodec β) (mode : Mode) (env : ExportEnv β) (table : Table) (dir : Path)
  (df : Frame)

theorem exportSymbol_raises_iff (i : ℕ) {sym : Option String} (acc : Totals) (t : Tree β)
    (hrows : (table.withSymbol df sym).rows ≠ []) :
    RaisesForSymbol (exportSymbol codec mode env table dir df i sym acc t) ↔
      ¬ ∃ part, partSym sym = .ok part := by
  unfold exportSymbol
  dsimp only
  rw [if_neg hrows]
  cases hpart : partSym sym with
  | error e => simpa [RaisesForSymbol] using partSym_error hpart
  | ok part =>
    have hnot : ¬ ¬ ∃ part', (Except.ok part : Except ShardError String) = .ok part' :=
      not_not.mpr ⟨part, rfl⟩
    rw [iff_false_right hnot]
    dsimp only
    cases t.lookup (shardPath dir part) with
    | some content =>
      dsimp only
      split_ifs
      · rintro ⟨e, ⟨⟩, hsymbol⟩
        exact hsymbol
      · cases codec.read content with
        | none =>
          rintro ⟨e, ⟨⟩, hsymbol⟩
          exact hsymbol
        | some existing =>
          dsimp only
          split_ifs
          · rintro ⟨e, ⟨⟩, -⟩
          · rintro ⟨e, ⟨⟩, hsymbol⟩
            exact hsymbol
    | none =>
      have herror : ∀ e, (writeShard codec (env.writes i) (tmpPath dir part env.pid)
          (shardPath dir part) (table.withSymbol df sym) t).1 = .error e → e = .os :=
        fun e => writeShard_error codec
      dsimp only
      generalize writeShard codec (env.writes i) _ _ _ t = out at herror
      obtain ⟨result, trace⟩ := out
      cases result with
      | error e =>
        rintro ⟨e', ⟨⟩, hsymbol⟩
        rw [herror e rfl] at hsymbol
        exact hsymbol
      | ok size =>
        rintro ⟨e, ⟨⟩, -⟩

theorem exportSymbol_isOk (i : ℕ) {sym : Option String} (acc : Totals) {t : Tree β} {part : String}
    (hpart : partSym sym = .ok part) (hfree : t.lookup (shardPath dir part) = none)
    (hfault : (env.writes i).fault = none) :
    ∃ acc', (exportSymbol codec mode env table dir df i sym acc t).1 = .ok acc' := by
  have hwrite : ∃ size, (writeShard codec (env.writes i) (tmpPath dir part env.pid)
      (shardPath dir part) (table.withSymbol df sym) t).1 = .ok size :=
    (writeShard_isOk_iff codec).mpr hfault
  obtain ⟨size, hsize⟩ := hwrite
  unfold exportSymbol
  dsimp only
  by_cases hrows : (table.withSymbol df sym).rows = []
  · rw [if_pos hrows]
    exact ⟨acc, rfl⟩
  · rw [if_neg hrows, hpart]
    dsimp only
    rw [hfree]
    dsimp only
    generalize writeShard codec (env.writes i) _ _ _ t = out at hsize
    obtain ⟨result, trace⟩ := out
    obtain rfl : result = .ok size := hsize
    exact ⟨_, rfl⟩

theorem exists_of_exportSymbols_raises {i : ℕ} {syms : List (Option String)} {acc : Totals}
    {t : Tree β} (hrows : ∀ sym ∈ syms, (table.withSymbol df sym).rows ≠ [])
    (h : RaisesForSymbol (exportSymbols codec mode env table dir df i syms acc t)) :
    ∃ sym ∈ syms, ¬ ∃ part, partSym sym = .ok part := by
  induction syms generalizing i acc t with
  | nil =>
    obtain ⟨e, he, -⟩ := h
    cases he
  | cons sym syms ih =>
    rw [exportSymbols_cons, raisesForSymbol_followed,
      exportSymbol_raises_iff codec mode env table dir df i acc t (hrows sym List.mem_cons_self)]
      at h
    rcases h with hbad | ⟨acc', -, hrest⟩
    · exact ⟨sym, List.mem_cons_self, hbad⟩
    · obtain ⟨s, hs, hbad⟩ := ih (fun s hs => hrows s (List.mem_cons_of_mem sym hs)) hrest
      exact ⟨s, List.mem_cons_of_mem sym hs, hbad⟩

/-- In fair weather and without shards, a loop comes to every symbol without a file name, by
induction on the symbols that remain. -/
theorem exportSymbols_raises {i : ℕ} {syms : List (Option String)} {acc : Totals} {t : Tree β}
    (hcalm : ∀ j, (env.writes j).fault = none) (hnodup : syms.Nodup)
    (hrows : ∀ sym ∈ syms, (table.withSymbol df sym).rows ≠ [])
    (hfree : ∀ sym ∈ syms, ∀ part, partSym sym = .ok part → t.lookup (shardPath dir part) = none)
    (hbad : ∃ sym ∈ syms, ¬ ∃ part, partSym sym = .ok part) :
    RaisesForSymbol (exportSymbols codec mode env table dir df i syms acc t) := by
  induction syms generalizing i acc t with
  | nil =>
    obtain ⟨sym, hsym, -⟩ := hbad
    cases hsym
  | cons sym syms ih =>
    obtain ⟨hsym, hnodup⟩ := List.nodup_cons.mp hnodup
    rw [exportSymbols_cons, raisesForSymbol_followed,
      exportSymbol_raises_iff codec mode env table dir df i acc t (hrows sym List.mem_cons_self)]
    by_cases hfirst : ∃ part, partSym sym = .ok part
    · obtain ⟨part, hpart⟩ := hfirst
      obtain ⟨acc', hok⟩ := exportSymbol_isOk codec mode env table dir df i acc hpart
        (hfree sym List.mem_cons_self part hpart) (hcalm i)
      refine .inr ⟨acc', hok, ih hnodup (fun s hs => hrows s (List.mem_cons_of_mem sym hs))
        (fun s hs part' hpart' => ?_) ?_⟩
      · rw [exportSymbol_frame codec env table dir df mode i acc t (isParquet_shardPath dir part')]
        · exact hfree s (List.mem_cons_of_mem sym hs) part' hpart'
        · intro part'' hpart'' heq
          rw [(shardPath_inj.mp heq).2] at hpart'
          exact hsym (partSym_inj hpart'' hpart' ▸ hs)
      · obtain ⟨s, hs, hnot⟩ := hbad
        rcases List.mem_cons.mp hs with rfl | hs
        · exact absurd ⟨part, hpart⟩ hnot
        · exact ⟨s, hs, hnot⟩
    · exact .inl hfirst

end Loop

theorem exportHourShard_raises_iff (codec : ParquetCodec β) (mode : Mode) (env : ExportEnv β)
    (table : Table) (hour : Datetime) (src : Source) (t : Tree β) :
    RaisesForSymbol (exportHourShard codec mode env table.name hour src t) ↔
      ∃ lo hi, exportWindow hour = .ok (lo, hi) ∧ env.queryFails = none ∧
        RaisesForSymbol (exportSymbols codec mode env table
          (partitionDir table hour.date hour.hour) (table.queryWindow src lo hi) 0
          (table.uniqueSymbols (table.queryWindow src lo hi)) ⟨0, 0, 0, []⟩ t) := by
  unfold exportHourShard
  rw [Table.ofName?_name]
  dsimp only
  cases hwindow : exportWindow hour with
  | error e =>
    have he : ¬ e.ForSymbol := by
      unfold exportWindow at hwindow
      split at hwindow
      · cases hwindow
        exact id
      · split at hwindow <;> cases hwindow
        exact id
    simpa [RaisesForSymbol] using he
  | ok window =>
    obtain ⟨lo, hi⟩ := window
    cases env.queryFails with
    | some ioException => simp [RaisesForSymbol, ShardError.ForSymbol]
    | none =>
      dsimp only
      have hwindow' : (∃ lo' hi', (Except.ok (lo, hi) : Except ShardError (Int × Int)) =
          .ok (lo', hi') ∧ (none : Option Bool) = none ∧
          RaisesForSymbol (exportSymbols codec mode env table
            (partitionDir table hour.date hour.hour) (table.queryWindow src lo' hi') 0
            (table.uniqueSymbols (table.queryWindow src lo' hi')) ⟨0, 0, 0, []⟩ t)) ↔
          RaisesForSymbol (exportSymbols codec mode env table
            (partitionDir table hour.date hour.hour) (table.queryWindow src lo hi) 0
            (table.uniqueSymbols (table.queryWindow src lo hi)) ⟨0, 0, 0, []⟩ t) := by
        constructor
        · rintro ⟨lo', hi', ⟨⟩, -, h⟩
          exact h
        · exact fun h => ⟨lo, hi, rfl, rfl, h⟩
      rw [hwindow']
      generalize table.queryWindow src lo hi = df
      by_cases hrows : df.rows = []
      · rw [if_pos hrows, Table.uniqueSymbols_eq_nil_iff.mpr hrows]
        simp [RaisesForSymbol, exportSymbols]
      · rw [if_neg hrows]
        generalize exportSymbols codec mode env table _ df 0 _ _ t = out
        obtain ⟨result, trace⟩ := out
        cases result <;> simp [RaisesForSymbol, Except.map]

theorem exists_unnamed_iff (table : Table) (src : Source) (lo hi : Int) :
    (∃ s ∈ table.uniqueSymbols (table.queryWindow src lo hi), ¬ ∃ part, partSym s = .ok part) ↔
      ∃ r ∈ table.slice src lo hi, ∃ sym, table.symbol r = some sym ∧
        validateSymbol sym ≠ .ok () := by
  simp only [Table.mem_uniqueSymbols, (table.queryWindow_perm src lo hi).mem_iff, partSym_isOk_iff]
  constructor
  · rintro ⟨_, ⟨r, hr, rfl⟩, hnot⟩
    push Not at hnot
    exact ⟨r, hr, hnot⟩
  · rintro ⟨r, hr, sym, hsym, hnot⟩
    exact ⟨_, ⟨r, hr, rfl⟩, fun h => hnot (h sym hsym)⟩

/-- Valid rows can be exported as far as their symbols are exportable, which the models do not
ask for; any other symbol of the hour makes a call in fair weather raise. -/
theorem storable_rows_exportable (codec : ParquetCodec β) (mode : Mode) (env : ExportEnv β)
    (table : Table) (hour : Datetime) (src : Source) (t : Tree β)
    (hvalid : ∀ r ∈ src.rows table, table.Accepts r)
    (hfree : ∀ p, IsParquet p → p.dropLast = partitionDir table hour.date hour.hour →
      t.lookup p = none) :
    ((∀ lo hi, exportWindow hour = .ok (lo, hi) → ∀ r ∈ table.slice src lo hi, ∀ sym,
        table.symbol r = some sym → Exportable table sym) →
      ¬ RaisesForSymbol (exportHourShard codec mode env table.name hour src t)) ∧
    ∀ lo hi, exportWindow hour = .ok (lo, hi) → env.queryFails = none →
      (∀ i, (env.writes i).fault = none) →
      (RaisesForSymbol (exportHourShard codec mode env table.name hour src t) ↔
        ∃ r ∈ table.slice src lo hi, ∃ sym, table.symbol r = some sym ∧
          validateSymbol sym ≠ .ok ()) := by
  have honly : ∀ lo hi, exportWindow hour = .ok (lo, hi) →
      RaisesForSymbol (exportHourShard codec mode env table.name hour src t) →
      ∃ r ∈ table.slice src lo hi, ∃ sym, table.symbol r = some sym ∧
        validateSymbol sym ≠ .ok () := by
    intro lo hi hwindow hraises
    obtain ⟨lo', hi', hwindow', -, hloop⟩ :=
      (exportHourShard_raises_iff codec mode env table hour src t).mp hraises
    obtain ⟨rfl, rfl⟩ := Prod.mk.inj (Except.ok.inj (hwindow'.symm.trans hwindow))
    exact (exists_unnamed_iff table src lo' hi').mp (exists_of_exportSymbols_raises codec mode env
      table _ _ (fun _ hs => Table.withSymbol_ne_nil hs) hloop)
  constructor
  · intro hexportable hraises
    obtain ⟨lo, hi, hwindow, -⟩ :=
      (exportHourShard_raises_iff codec mode env table hour src t).mp hraises
    obtain ⟨r, hr, sym, hsym, hnot⟩ := honly lo hi hwindow hraises
    have hsource : r ∈ src.rows table := (List.mem_filter.mp hr).1
    exact hnot ((hexportable lo hi hwindow r hr sym hsym).validateSymbol (hvalid r hsource) hsym)
  · intro lo hi hwindow hquery hcalm
    refine ⟨honly lo hi hwindow, fun hrow => ?_⟩
    refine (exportHourShard_raises_iff codec mode env table hour src t).mpr
      ⟨lo, hi, hwindow, hquery, ?_⟩
    have hunnamed := (exists_unnamed_iff table src lo hi).mpr hrow
    refine exportSymbols_raises codec mode env table _ _ hcalm (table.nodup_uniqueSymbols _)
      (fun _ hs => Table.withSymbol_ne_nil hs) (fun _ _ part _ => ?_) hunnamed
    exact hfree _ (isParquet_shardPath _ part) List.dropLast_concat

section Sample

def quoteRow (item : Int × String) : TableRow :=
  [.timestamptz item.1, .varchar "core.v0.1.0", .varchar "0123456", .integer 1, .varchar item.2,
    .varchar "1m", .decimal 10000, .decimal 10000, .decimal 10000, .decimal 10000, .integer 1,
    .boolean false]

def quoteSource (items : List (Int × String)) : Source where
  rows
    | .quotes => items.map quoteRow
    | _ => []
  conforms := by
    rintro (_ | _ | _) r hr
    · cases hr
    · obtain ⟨⟨time, symbol⟩, -, rfl⟩ := List.mem_map.mp hr
      simp [Table.Conforms, Table.schema, Table.commonColumns, quoteRow, Column.Admits,
        ColumnType.Admits]
    · cases hr

/-- A valid row with a dotted ticker keeps the other symbol of its hour from being exported. -/
theorem dotted_ticker_blocks_hour :
    let start := tenOClock.index * microsPerHour
    let src := quoteSource [(start, "005930.KS"), (start, "035720")]
    (∀ r ∈ src.rows .quotes, Table.quotes.Accepts r) ∧
      let out := exportHourShard plainCodec .fail calmEnv "quotes" tenOClock.toDatetime src ∅
      (out.1.map fun result => result.totals) = .error (.symbolUnsupported "005930.KS") ∧
        out.2 = [] := by
  intro start src
  exact ⟨by decide, by decide, by decide⟩

/-- Two plain tickers go through, a plain and a dotted one do not. -/
theorem storable_rows_exportable_quotes :
    let start := tenOClock.index * microsPerHour
    let plain := quoteSource [(start, "005930"), (start, "035720")]
    let dotted := quoteSource [(start, "005930.KS"), (start, "035720")]
    ¬ RaisesForSymbol (exportHourShard plainCodec .fail calmEnv Table.quotes.name
        tenOClock.toDatetime plain ∅) ∧
      RaisesForSymbol (exportHourShard plainCodec .fail calmEnv Table.quotes.name
        tenOClock.toDatetime dotted ∅) := by
  intro start plain dotted
  constructor
  · refine (storable_rows_exportable plainCodec .fail calmEnv .quotes tenOClock.toDatetime plain ∅
      (by decide) fun p _ _ => AList.lookup_empty p).1 fun lo hi _ r hr sym hsym => ?_
    have hmem : r ∈ [quoteRow (start, "005930"), quoteRow (start, "035720")] :=
      (List.mem_filter.mp hr).1
    simp only [List.mem_cons, List.not_mem_nil, or_false] at hmem
    obtain ⟨hfirst, hsecond⟩ : Exportable .quotes "005930" ∧ Exportable .quotes "035720" := by
      constructor <;> exact ⟨by decide, List.all_eq_true.mp (by decide), by decide, nofun⟩
    rcases hmem with rfl | rfl
    · obtain rfl : sym = "005930" := Option.some.inj (hsym.symm.trans rfl)
      exact hfirst
    · obtain rfl : sym = "035720" := Option.some.inj (hsym.symm.trans rfl)
      exact hsecond
  · have hwindow : exportWindow tenOClock.toDatetime = .ok (start, start + microsPerHour) := by
      decide
    exact ((storable_rows_exportable plainCodec .fail calmEnv .quotes tenOClock.toDatetime dotted ∅
      (by decide) fun p _ _ => AList.lookup_empty p).2 _ _ hwindow rfl fun _ => rfl).mpr
        ⟨quoteRow (start, "005930.KS"), by decide, "005930.KS", rfl, by decide⟩

end Sample

end Athena
