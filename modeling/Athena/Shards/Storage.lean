import Athena.Core.Text

/-!
# The logger tables

The tables of `schemas.py` with the two columns the exporter looks at, the time
column and `symbol`. A `Source` is a content that the DDL admits, so every row
has a time and, outside `news`, a symbol.
-/

namespace Athena

/-- A value in a column; decimals are scaled by 10000. -/
inductive Cell
  | null
  | timestamptz (micros : Int)
  | varchar (text : String)
  | integer (n : Int)
  | decimal (scaled : Int)
  | boolean (b : Bool)
  deriving DecidableEq, Repr

inductive ColumnType
  | timestamptz
  | varchar
  | integer
  | bigint
  | decimal
  | boolean
  deriving DecidableEq, Repr

/-- The values of a column type. -/
def ColumnType.Admits : ColumnType → Cell → Prop
  | timestamptz, .timestamptz _ => True
  | varchar, .varchar _ => True
  | integer, .integer n => -2 ^ 31 ≤ n ∧ n < 2 ^ 31
  | bigint, .integer n => -2 ^ 63 ≤ n ∧ n < 2 ^ 63
  | decimal, .decimal n => -10 ^ 18 < n ∧ n < 10 ^ 18
  | boolean, .boolean _ => True
  | _, _ => False

structure Column where
  name : String
  type : ColumnType
  nullable : Bool
  deriving DecidableEq, Repr

def Column.Admits (c : Column) (x : Cell) : Prop :=
  (x = .null ∧ c.nullable = true) ∨ c.type.Admits x

/-- The keys of `_TIME_COL`. -/
inductive Table
  | ticks
  | quotes
  | news
  deriving DecidableEq, Repr

abbrev TableRow := List Cell

namespace Table

def name : Table → String
  | ticks => "ticks"
  | quotes => "quotes"
  | news => "news"

def ofName? (s : String) : Option Table := [ticks, quotes, news].find? fun t => t.name = s

theorem ofName?_name (t : Table) : ofName? t.name = some t := by cases t <;> decide

theorem eq_name_of_ofName? {s : String} {t : Table} (h : ofName? s = some t) : s = t.name := by
  have hname := List.find?_some (show [ticks, quotes, news].find? _ = some t from h)
  exact (of_decide_eq_true hname).symm

theorem name_injective : Function.Injective name := by
  intro s t h
  cases s <;> cases t <;> first | rfl | exact absurd h (by decide)

def timeCol : Table → String
  | ticks => "timestamp"
  | quotes => "timestamp"
  | news => "published_at_utc"

/-- The columns of `BaseDTO` and `user_id`, with which every table starts. -/
def commonColumns : List Column :=
  [⟨"timestamp", .timestamptz, false⟩, ⟨"module_version", .varchar, false⟩,
    ⟨"policy_version_git_sha", .varchar, false⟩, ⟨"user_id", .integer, false⟩]

def levels (stem : String) (type : ColumnType) : List Column :=
  (List.range 10).map fun i => ⟨stem ++ Nat.repr (i + 1), type, false⟩

/-- `_TICKS_COLUMNS`, `_QUOTES_COLUMNS` and `_NEWS_COLUMNS`. -/
def schema : Table → List Column
  | ticks => commonColumns ++ [⟨"symbol", .varchar, false⟩] ++ levels "bid_px_" .decimal ++
      levels "bid_qty_" .bigint ++ levels "ask_px_" .decimal ++ levels "ask_qty_" .bigint ++
      [⟨"last_px", .decimal, false⟩, ⟨"last_qty", .bigint, false⟩, ⟨"trade_side", .varchar, false⟩,
        ⟨"seq_no", .bigint, false⟩]
  | quotes => commonColumns ++
      [⟨"symbol", .varchar, false⟩, ⟨"interval", .varchar, false⟩, ⟨"open", .decimal, false⟩,
        ⟨"high", .decimal, false⟩, ⟨"low", .decimal, false⟩, ⟨"close", .decimal, false⟩,
        ⟨"volume", .bigint, false⟩, ⟨"vi_active", .boolean, false⟩]
  | news => commonColumns ++
      [⟨"published_at_utc", .timestamptz, false⟩, ⟨"source", .varchar, false⟩,
        ⟨"symbol", .varchar, true⟩, ⟨"headline", .varchar, false⟩, ⟨"body_text", .varchar, false⟩,
        ⟨"url", .varchar, false⟩, ⟨"dedup_hash", .varchar, false⟩]

def columns (t : Table) : List String := t.schema.map Column.name

def cell (t : Table) (r : TableRow) (column : String) : Cell :=
  ((t.columns.zip r).lookup column).getD .null

def time (t : Table) (r : TableRow) : Int :=
  match t.cell r t.timeCol with
  | .timestamptz micros => micros
  | _ => 0

def symbol (t : Table) (r : TableRow) : Option String :=
  match t.cell r "symbol" with
  | .varchar s => some s
  | _ => none

/-- A row that the DDL admits. -/
def Conforms (t : Table) (r : TableRow) : Prop := List.Forall₂ Column.Admits t.schema r

end Table

structure Source where
  rows : Table → List TableRow
  conforms : ∀ t, ∀ r ∈ rows t, t.Conforms r

structure Frame where
  columns : List String
  rows : List TableRow
  deriving DecidableEq, Repr

theorem nodup_eraseDups {α : Type*} [BEq α] [LawfulBEq α] (l : List α) : l.eraseDups.Nodup := by
  induction hn : l.length using Nat.strong_induction_on generalizing l with
  | _ n ih =>
    cases l with
    | nil => exact List.nodup_nil
    | cons a l =>
      rw [List.eraseDups_cons, List.nodup_cons, List.mem_eraseDups]
      refine ⟨by simp, ih _ ?_ _ rfl⟩
      rw [← hn, List.length_cons]
      exact Nat.lt_succ_of_le (List.length_filter_le _ _)

namespace Table

/-- `ORDER BY symbol NULLS LAST, <time column>`. -/
def QueryLe (t : Table) (a b : TableRow) : Prop :=
  match t.symbol a, t.symbol b with
  | some s, some s' => s < s' ∨ (s = s' ∧ t.time a ≤ t.time b)
  | some _, none => True
  | none, some _ => False
  | none, none => t.time a ≤ t.time b

instance (t : Table) : DecidableRel t.QueryLe := fun a b => by
  unfold QueryLe
  split <;> infer_instance

/-- The rows of the window `[lo, hi)`. -/
def slice (t : Table) (src : Source) (lo hi : Int) : List TableRow :=
  (src.rows t).filter fun r => lo ≤ t.time r ∧ t.time r < hi

/-- The query of `export_hour_shard`. -/
def queryWindow (t : Table) (src : Source) (lo hi : Int) : Frame :=
  ⟨t.columns, (t.slice src lo hi).insertionSort t.QueryLe⟩

theorem queryWindow_perm (t : Table) (src : Source) (lo hi : Int) :
    (t.queryWindow src lo hi).rows.Perm (t.slice src lo hi) :=
  List.perm_insertionSort _ _

theorem mem_queryWindow {t : Table} {src : Source} {lo hi : Int} {r : TableRow} :
    r ∈ (t.queryWindow src lo hi).rows ↔ r ∈ src.rows t ∧ lo ≤ t.time r ∧ t.time r < hi := by
  rw [(t.queryWindow_perm src lo hi).mem_iff, slice, List.mem_filter, decide_eq_true_iff]

/-- The rows of a frame with one symbol value. -/
def withSymbol (t : Table) (f : Frame) (s : Option String) : Frame :=
  ⟨f.columns, f.rows.filter fun r => t.symbol r = s⟩

/-- `df.select("symbol").unique(maintain_order=True)`. -/
def uniqueSymbols (t : Table) (f : Frame) : List (Option String) := (f.rows.map t.symbol).eraseDups

theorem mem_uniqueSymbols {t : Table} {f : Frame} {s : Option String} :
    s ∈ t.uniqueSymbols f ↔ ∃ r ∈ f.rows, t.symbol r = s := by
  rw [uniqueSymbols, List.mem_eraseDups, List.mem_map]

theorem uniqueSymbols_eq_nil_iff {t : Table} {f : Frame} :
    t.uniqueSymbols f = [] ↔ f.rows = [] := by
  constructor
  · intro h
    refine List.eq_nil_iff_forall_not_mem.mpr fun r hr => ?_
    have hsym : t.symbol r ∈ t.uniqueSymbols f := mem_uniqueSymbols.mpr ⟨r, hr, rfl⟩
    rw [h] at hsym
    cases hsym
  · intro h
    simp [uniqueSymbols, h]

theorem nodup_uniqueSymbols (t : Table) (f : Frame) : (t.uniqueSymbols f).Nodup :=
  nodup_eraseDups _

theorem withSymbol_ne_nil {t : Table} {f : Frame} {s : Option String}
    (h : s ∈ t.uniqueSymbols f) : (t.withSymbol f s).rows ≠ [] := by
  obtain ⟨r, hr, hs⟩ := mem_uniqueSymbols.mp h
  exact List.ne_nil_of_mem (List.mem_filter.mpr ⟨hr, decide_eq_true hs⟩)

end Table

namespace Cell

/-- The place of a value among its column's values, NULL last. -/
def rank : Cell → ℕ
  | boolean _ => 0
  | integer _ => 1
  | decimal _ => 2
  | timestamptz _ => 3
  | varchar _ => 4
  | null => 5

/-- The order that sorting a column uses. -/
def Le : Cell → Cell → Prop
  | boolean a, boolean b => a ≤ b
  | integer a, integer b => a ≤ b
  | decimal a, decimal b => a ≤ b
  | timestamptz a, timestamptz b => a ≤ b
  | varchar a, varchar b => a ≤ b
  | x, y => x.rank ≤ y.rank

instance : DecidableRel Le := fun a b => by
  unfold Le
  split <;> infer_instance

end Cell

namespace Frame

def select (f : Frame) (cols : List String) : List TableRow :=
  f.rows.map fun r => cols.map fun c => ((f.columns.zip r).lookup c).getD .null

/-- `sort(cols, nulls_last=True)`: lexicographic, column by column. -/
def RowLe : TableRow → TableRow → Prop
  | [], _ => True
  | _ :: _, [] => False
  | a :: as, b :: bs => a.Le b ∧ (a = b → RowLe as bs)

instance decidableRowLe : DecidableRel RowLe
  | [], _ => .isTrue trivial
  | _ :: _, [] => .isFalse id
  | a :: as, b :: bs =>
    have := decidableRowLe as bs
    inferInstanceAs (Decidable (a.Le b ∧ (a = b → RowLe as bs)))

def dataEquals (existing fresh : Frame) : Bool :=
  let cols := existing.columns.insertionSort (· ≤ ·)
  if fresh.columns.insertionSort (· ≤ ·) ≠ cols then false
  else if existing.rows.length ≠ fresh.rows.length then false
  else (existing.select cols).insertionSort RowLe = (fresh.select cols).insertionSort RowLe

end Frame

end Athena
