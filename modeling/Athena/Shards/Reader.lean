import Athena.Shards.Paths

/-!
# Reading the shards

The views that the trading side attaches over a shard tree, and its two queries.
A view over an empty tree is an empty table; any other is a glob scan, which
returns the rows of all matching files with the columns that their directories
spell out.
-/

namespace Athena

/-- The files that `{table}/**/*.parquet` matches. -/
def InGlob (table : Table) (p : Path) : Prop := p.head? = some table.name ∧ IsParquet p

instance (table : Table) (p : Path) : Decidable (InGlob table p) :=
  inferInstanceAs (Decidable (_ ∧ _))

inductive QueryError
  | naiveDatetime
  | lookbackMinutes (n : Int)
  | noFiles
  | invalidParquet (path : Path)
  deriving DecidableEq, Repr

/-- A row of a scan: the columns of the file and those of its directories. -/
structure ScanRow where
  own : TableRow
  hive : List (String × String)
  deriving DecidableEq, Repr

def hiveColumn? (component : String) : Option (String × String) :=
  let key := component.toList.takeWhile (· ≠ '=')
  match component.toList.dropWhile (· ≠ '=') with
  | _ :: value =>
    if key = [] ∨ '=' ∈ value then none else some (String.ofList key, String.ofList value)
  | [] => none

/-- The columns that `hive_partitioning=true` adds for a file. -/
def hiveColumns (p : Path) : List (String × String) := p.dropLast.filterMap hiveColumn?

/-- A view of `attach_parquet_views`. -/
inductive View
  | parquet
  | empty
  deriving DecidableEq, Repr

section Reader

variable {β : Type} (codec : ParquetCodec β)

/-- The files of a table, in the order of the tree. -/
def Tree.glob (t : Tree β) (table : Table) : List (Σ _ : Path, β) :=
  t.entries.filter fun file => InGlob table file.1

def readFile (file : Σ _ : Path, β) : Except QueryError (List ScanRow) :=
  match codec.read file.2 with
  | none => .error (.invalidParquet file.1)
  | some f => .ok (f.rows.map fun r => ⟨r, hiveColumns file.1⟩)

/-- `read_parquet(glob, hive_partitioning=true)`. -/
def readParquet (t : Tree β) (table : Table) : Except QueryError (List ScanRow) :=
  if t.glob table = [] then .error .noFiles
  else ((t.glob table).mapM (readFile codec)).map List.flatten

def hasAnyParquet (t : Tree β) (table : Table) : Bool := t.glob table ≠ []

def attachParquetViews (t : Tree β) (table : Table) : View :=
  if hasAnyParquet t table then .parquet else .empty

end Reader

structure FeatureStore where
  views : Table → View

namespace FeatureStore

variable {β : Type} (codec : ParquetCodec β)

def init (t : Tree β) : FeatureStore := ⟨attachParquetViews t⟩

def refreshViews (_ : FeatureStore) (t : Tree β) : FeatureStore := ⟨attachParquetViews t⟩

def scan (store : FeatureStore) (t : Tree β) (table : Table) : Except QueryError (List ScanRow) :=
  match store.views table with
  | .parquet => readParquet codec t table
  | .empty => .ok []

/-- `SELECT * FROM {table} WHERE … ORDER BY` the time column. -/
def select (store : FeatureStore) (t : Tree β) (table : Table) (cond : TableRow → Bool) :
    Except QueryError (List ScanRow) :=
  (store.scan codec t table).map fun rows =>
    (rows.filter fun row => cond row.own).insertionSort fun a b =>
      table.time a.own ≤ table.time b.own

def maxLookbackMin : Int := 24 * 60

def queryRecentTicks (store : FeatureStore) (t : Tree β) (now : Int) (symbol : String)
    (lookbackMinutes : Int) : Except QueryError (List ScanRow) :=
  if ¬ (0 < lookbackMinutes ∧ lookbackMinutes ≤ maxLookbackMin) then
    .error (.lookbackMinutes lookbackMinutes)
  else
    store.select codec t .ticks fun r =>
      Table.ticks.symbol r = some symbol ∧ now - lookbackMinutes * 60000000 < Table.ticks.time r

def queryNewsForSymbol (store : FeatureStore) (t : Tree β) (symbol : String)
    (sinceUtc : Datetime) : Except QueryError (List ScanRow) :=
  match sinceUtc.instant with
  | none => .error .naiveDatetime
  | some since =>
    store.select codec t .news fun r =>
      Table.news.symbol r = some symbol ∧ since ≤ Table.news.time r

end FeatureStore

end Athena
