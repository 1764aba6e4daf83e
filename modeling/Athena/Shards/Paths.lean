import Athena.Core.Datetime
import Athena.Shards.Storage
import Mathlib.Data.List.AList

/-!
# The shard tree

Paths are component lists below `out_root`. A tree maps the paths of its files
to contents of an arbitrary type; Parquet is a codec between frames and
contents, of which only the round trip is known.
-/

namespace Athena

abbrev Path := List String

abbrev Tree (β : Type) := AList fun _ : Path => β

/-- Writing and reading Parquet. A write also depends on a nonce, since the bytes of two
writes of one frame may differ. -/
structure ParquetCodec (β : Type) where
  write : ℕ → Frame → β
  read : β → Option Frame
  read_write : ∀ nonce f, read (write nonce f) = some f
  size : β → ℕ
  sha256File : β → String

def symbolNullSentinel : String := "__NULL__"

def isSymbolChar (c : Char) : Bool :=
  ('A' ≤ c && c ≤ 'Z') || ('a' ≤ c && c ≤ 'z') || ('0' ≤ c && c ≤ '9') || c = '_' || c = '-'

/-- `_SYMBOL_VALID_RE`, which also lets one final newline through. -/
def symbolValid (s : String) : Bool :=
  let run := s.toList.takeWhile isSymbolChar
  1 ≤ run.length && run.length ≤ 32 && atEnd (s.toList.dropWhile isSymbolChar)

/-- `_partition_dir`, from the wall-clock fields of the hour. -/
def partitionDir (table : Table) (date : Calendar.Date) (hour : Fin 24) : Path :=
  [table.name, "year=" ++ zeroPad 4 date.year, "month=" ++ zeroPad 2 date.month,
    "day=" ++ zeroPad 2 date.day, "hour=" ++ zeroPad 2 hour]

theorem partitionDir_inj {table table' : Table} {g h : UtcHour}
    (heq : partitionDir table g.date g.hour = partitionDir table' h.date h.hour) :
    table = table' ∧ g = h := by
  simp only [partitionDir, List.cons.injEq, String.append_right_inj, and_true] at heq
  obtain ⟨hname, hyear, hmonth, hday, hhour⟩ := heq
  have hgy := Int.toNat_of_nonneg (zero_le_one.trans g.year_bounds.1)
  have hhy := Int.toNat_of_nonneg (zero_le_one.trans h.year_bounds.1)
  rw [← hgy, ← hhy] at hyear
  have hyear : g.date.year = h.date.year := by rw [← hgy, zeroPad_inj hyear, hhy]
  have hdate : g.date = h.date := by
    have hmonth := zeroPad_inj hmonth
    have hday := zeroPad_inj hday
    cases hg : g.date
    cases hh : h.date
    simp_all
  refine ⟨Table.name_injective hname, ?_⟩
  have hhour : g.hour = h.hour := Fin.ext (zeroPad_inj hhour)
  cases g
  cases h
  simp_all

def shardName (partSym : String) : String := "symbol=" ++ partSym ++ ".parquet"

def shardPath (dir : Path) (partSym : String) : Path := dir ++ [shardName partSym]

theorem shardPath_inj {dir dir' : Path} {partSym partSym' : String} :
    shardPath dir partSym = shardPath dir' partSym' ↔ dir = dir' ∧ partSym = partSym' := by
  constructor
  · intro h
    obtain ⟨hdir, hname⟩ := List.append_inj' h rfl
    refine ⟨hdir, ?_⟩
    simpa [shardName] using hname
  · rintro ⟨rfl, rfl⟩
    rfl

/-- `out_file.with_suffix(f"{out_file.suffix}.tmp.{os.getpid()}")`. -/
def tmpPath (dir : Path) (partSym : String) (pid : ℕ) : Path :=
  dir ++ [shardName partSym ++ ".tmp." ++ Nat.repr pid]

/-- The name matches `*.parquet`. -/
def IsParquet (p : Path) : Prop := ".parquet".toList <:+ (p.getLast?.getD "").toList

instance (p : Path) : Decidable (IsParquet p) :=
  inferInstanceAs (Decidable (".parquet".toList <:+ (p.getLast?.getD "").toList))

theorem isParquet_shardPath (dir : Path) (partSym : String) :
    IsParquet (shardPath dir partSym) := by
  have hlast : (shardPath dir partSym).getLast?.getD "" = shardName partSym := by
    simp [shardPath]
  rw [IsParquet, hlast, shardName, String.toList_append]
  exact List.suffix_append _ _

theorem not_isParquet_tmpPath (dir : Path) (partSym : String) (pid : ℕ) :
    ¬ IsParquet (tmpPath dir partSym pid) := by
  intro h
  have hlast : (tmpPath dir partSym pid).getLast?.getD "" =
      shardName partSym ++ ".tmp." ++ Nat.repr pid := by
    simp [tmpPath]
  rw [IsParquet, hlast, String.toList_append] at h
  have hdigits : (Nat.repr pid).toList ≠ [] := by
    simp
  have hends : (shardName partSym ++ ".tmp.").toList ++ (Nat.repr pid).toList ≠ [] :=
    List.append_ne_nil_of_right_ne_nil _ hdigits
  have hlast : ('t' : Char) = (Nat.repr pid).toList.getLast hdigits :=
    (List.IsSuffix.getLast h (by decide)).trans (List.getLast_append_of_right_ne_nil _ _ hdigits)
  have hmem : 't' ∈ Nat.toDigits 10 pid := by
    rw [← Nat.toList_repr, hlast]
    exact List.getLast_mem hdigits
  exact absurd (Nat.isDigit_of_mem_toDigits (by omega) le_rfl hmem) (by decide)

theorem tmpPath_ne_shardPath (dir dir' : Path) (partSym partSym' : String) (pid : ℕ) :
    tmpPath dir partSym pid ≠ shardPath dir' partSym' := by
  intro h
  exact not_isParquet_tmpPath dir partSym pid (h ▸ isParquet_shardPath dir' partSym')

end Athena
