import Athena.Shards.Export

/-!
# The export command

`exportMain` is `export_parquet_shard.main` behind its argument parser. Like the
exporter it returns the trees it passes through. What `parse_hour` made of
`--hour` and whether the database opens are arguments.
-/

namespace Athena

/-- The parsed arguments; `hour` is the outcome of `parse_hour`. -/
structure ExportArgs where
  hour : Except String Datetime
  tables : String
  checkOnly : Bool

/-- `[t.strip() for t in args.tables.split(",") if t.strip()]`. -/
def ExportArgs.tableList (args : ExportArgs) : List String :=
  ((args.tables.toList.splitOn ',').map strip).filterMap fun name =>
    if name = [] then none else some (String.ofList name)

/-- `sorted(set(tables) - _VALID_TABLES)`. -/
def invalidTables (tables : List String) : List String :=
  ((tables.filter fun name => Table.ofName? name = none).eraseDups).insertionSort (· ≤ ·)

/-- The circumstances of a run: whether the database fails to open, and with a
`duckdb.IOException` or not, and those of the export of the i-th table. -/
structure ExportMainEnv (β : Type) where
  openFails : Option Bool
  exports : ℕ → ExportEnv β

structure ExportProgress where
  perTableCount : List (String × ℕ)
  totalBytes : ℕ
  deriving DecidableEq, Repr

inductive ExportReport
  | badHour (detail : String)
  | badTables (invalid : List String)
  | failed (e : ShardError)
  | identical (hour : Datetime) (files : ℕ)
  | exported (hour : Datetime) (progress : ExportProgress)

/-- The handlers of `main`. -/
def ShardError.exitCode : ShardError → ℕ
  | .alreadyExists _ _ => 1
  | .drift _ _ => 1
  | .database true => 3
  | _ => 4

def ExportReport.exitCode : ExportReport → ℕ
  | .badHour _ => 2
  | .badTables _ => 2
  | .failed e => e.exitCode
  | .identical _ _ => 0
  | .exported _ _ => 0

section Command

variable {β : Type} (codec : ParquetCodec β)

/-- The count that `main` keeps of one table. -/
def tableCount (mode : Mode) (result : ShardExportResult) : ℕ :=
  match mode with
  | .check => result.totals.filesMatched
  | .fail => result.totals.filesWritten

/-- The loop over `tables`. -/
def exportTables (mode : Mode) (hour : Datetime) (src : Source) (env : ℕ → ExportEnv β) :
    ℕ → List String → ExportProgress → Tree β →
      Except ShardError ExportProgress × List (Tree β)
  | _, [], acc, _ => (.ok acc, [])
  | i, name :: names, acc, t =>
    match exportHourShard codec mode (env i) name hour src t with
    | (.error e, trace) => (.error e, trace)
    | (.ok result, trace) =>
      let acc' : ExportProgress :=
        ⟨dictSet acc.perTableCount name (tableCount mode result),
          acc.totalBytes + result.totals.bytesWritten⟩
      let rest := exportTables mode hour src env (i + 1) names acc' (t.after trace)
      (rest.1, trace ++ rest.2)

theorem exportTables_cons (mode : Mode) (hour : Datetime) (src : Source) (env : ℕ → ExportEnv β)
    (i : ℕ) (name : String) (names : List String) (acc : ExportProgress) (t : Tree β) :
    exportTables codec mode hour src env i (name :: names) acc t =
      followed (exportHourShard codec mode (env i) name hour src t) fun result =>
        exportTables codec mode hour src env (i + 1) names
          ⟨dictSet acc.perTableCount name (tableCount mode result),
            acc.totalBytes + result.totals.bytesWritten⟩
          (t.after (exportHourShard codec mode (env i) name hour src t).2) := by
  rw [exportTables]
  generalize exportHourShard codec mode (env i) name hour src t = out
  obtain ⟨result, trace⟩ := out
  cases result <;> rfl

/-- `main` with the trees it passes through. -/
def exportMain (args : ExportArgs) (env : ExportMainEnv β) (src : Source) (t : Tree β) :
    ExportReport × List (Tree β) :=
  match args.hour with
  | .error detail => (.badHour detail, [])
  | .ok hour =>
    let mode := if args.checkOnly then .check else .fail
    let invalid := invalidTables args.tableList
    if invalid ≠ [] then (.badTables invalid, [])
    else
      match env.openFails with
      | some ioException => (.failed (.database ioException), [])
      | none =>
        match exportTables codec mode hour src env.exports 0 args.tableList ⟨[], 0⟩ t with
        | (.error e, trace) => (.failed e, trace)
        | (.ok progress, trace) =>
          if args.checkOnly then
            (.identical hour (progress.perTableCount.map Prod.snd).sum, trace)
          else (.exported hour progress, trace)

end Command

end Athena
