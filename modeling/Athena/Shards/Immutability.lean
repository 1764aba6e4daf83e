import Athena.Library.WriteOnce
import Athena.Shards.Export

/-!
# Published shards are complete and stay

Every file operation of the exporter is a step of a write-once writer: it
either touches a temporary file, which no reader matches, or publishes a
complete slice under a name that was free. This holds for every trace, hence at
every moment of every sequence of calls, however they end.
-/

namespace Athena

variable {β : Type} (codec : ParquetCodec β)

structure ExportCall (β : Type) where
  table : String
  hourUtcStart : Datetime
  mode : Mode
  source : Source
  env : ExportEnv β

namespace ExportCall

def run (call : ExportCall β) (t : Tree β) : Except ShardError ShardExportResult × List (Tree β) :=
  exportHourShard codec call.mode call.env call.table call.hourUtcStart call.source t

/-- The content is the complete row slice of one symbol in the window of the call, and the
path is where the call files it. -/
def SliceAt (call : ExportCall β) (p : Path) (content : β) : Prop :=
  ∃ table lo hi sym part, Table.ofName? call.table = some table ∧
    exportWindow call.hourUtcStart = .ok (lo, hi) ∧ partSym sym = .ok part ∧
    p = shardPath (partitionDir table call.hourUtcStart.date call.hourUtcStart.hour) part ∧
    codec.read content = some (table.withSymbol (table.queryWindow call.source lo hi) sym)

end ExportCall

section Traces

variable {complete : Path → β → Prop}

/-- A shard is written through its temporary file and published at once. -/
theorem writeShard_chain (env : WriteEnv β) {tmpFile outFile : Path} (htmp : ¬ IsParquet tmpFile)
    (hne : tmpFile ≠ outFile) (f : Frame) {t : Tree β} (hfresh : t.lookup outFile = none)
    (hcomplete : complete outFile (codec.write env.nonce f)) :
    (t :: (writeShard codec env tmpFile outFile f t).2).IsChain
      (WriteOnce.Step IsParquet complete) := by
  by_cases hfault : env.fault = none ∨ env.fault = some .stat
  · rw [writeShard_trace codec hfault]
    have hhidden : ∀ u ∈ t :: (env.chunks.map (fun chunk => t.insert tmpFile chunk) ++
        [t.insert tmpFile (codec.write env.nonce f)]), ∀ j ≠ tmpFile, u.lookup j = t.lookup j := by
      intro u hu j hj
      simp only [List.mem_cons, List.mem_append, List.mem_map, List.not_mem_nil, or_false] at hu
      rcases hu with rfl | ⟨chunk, -, rfl⟩ | rfl
      · rfl
      · exact AList.lookup_insert_ne hj
      · exact AList.lookup_insert_ne hj
    have hchain := WriteOnce.isChain_publish htmp hhidden hne.symm hfresh hcomplete
      (AList.lookup_insert (t.erase tmpFile)) fun j hj hjo => by
        have hjt : j ≠ tmpFile := fun heq => htmp (heq ▸ hj)
        rw [AList.lookup_insert_ne hjo, AList.lookup_erase_ne hjt]
    simpa using hchain
  · have hhidden := (writeShard_hidden codec env tmpFile outFile f t hfault).2
    have hagree : ∀ u ∈ t :: (writeShard codec env tmpFile outFile f t).2, ∀ j ≠ tmpFile,
        u.lookup j = t.lookup j := by
      intro u hu
      rcases List.mem_cons.mp hu with rfl | hu
      · exact fun _ _ => rfl
      · exact hhidden u hu
    exact WriteOnce.isChain_of_agree htmp hagree

theorem followed_chain {α γ : Type} {R : Tree β → Tree β → Prop} {t : Tree β}
    {out : Except ShardError α × List (Tree β)} {rest : α → Except ShardError γ × List (Tree β)}
    (hout : (t :: out.2).IsChain R)
    (hrest : ∀ a, out.1 = .ok a → (t.after out.2 :: (rest a).2).IsChain R) :
    (t :: (followed out rest).2).IsChain R := by
  obtain ⟨result, trace⟩ := out
  cases result with
  | error e => exact hout
  | ok a => exact WriteOnce.isChain_cons_append hout (hrest a rfl)

variable (mode : Mode) (env : ExportEnv β) (table : Table) (dir : Path) (df : Frame)

theorem exportSymbol_chain (i : ℕ) (sym : Option String) (acc : Totals) (t : Tree β)
    (hcomplete : ∀ part nonce, (table.withSymbol df sym).rows ≠ [] → partSym sym = .ok part →
      complete (shardPath dir part) (codec.write nonce (table.withSymbol df sym))) :
    (t :: (exportSymbol codec mode env table dir df i sym acc t).2).IsChain
      (WriteOnce.Step IsParquet complete) := by
  rcases exportSymbol_cases codec mode env table dir df i sym acc t with
    ⟨htrace, -⟩ | ⟨part, hrows, hpart, hfree, hwrite⟩
  · rw [htrace]
    exact List.isChain_singleton t
  · rw [hwrite]
    exact writeShard_chain codec (env.writes i) (not_isParquet_tmpPath dir part env.pid)
      (tmpPath_ne_shardPath dir dir part part env.pid) (table.withSymbol df sym) hfree
      (hcomplete part _ hrows hpart)

/-- The loop, by induction on the symbols that remain. -/
theorem exportSymbols_chain (i : ℕ) (syms : List (Option String)) (acc : Totals) (t : Tree β)
    (hcomplete : ∀ sym part nonce, (table.withSymbol df sym).rows ≠ [] → partSym sym = .ok part →
      complete (shardPath dir part) (codec.write nonce (table.withSymbol df sym))) :
    (t :: (exportSymbols codec mode env table dir df i syms acc t).2).IsChain
      (WriteOnce.Step IsParquet complete) := by
  induction syms generalizing i acc t with
  | nil => exact List.isChain_singleton t
  | cons sym syms ih =>
    rw [exportSymbols_cons]
    exact followed_chain (exportSymbol_chain codec mode env table dir df i sym acc t
      (hcomplete sym)) fun acc' _ => ih (i + 1) acc' _

end Traces

/-- The trees a call passes through, for any property that the files it writes have. -/
theorem ExportCall.run_isChain {complete : Path → β → Prop} (call : ExportCall β) (t : Tree β)
    (hcomplete : ∀ table lo hi sym part nonce, Table.ofName? call.table = some table →
      exportWindow call.hourUtcStart = .ok (lo, hi) →
      (table.withSymbol (table.queryWindow call.source lo hi) sym).rows ≠ [] →
      partSym sym = .ok part →
      complete (shardPath (partitionDir table call.hourUtcStart.date call.hourUtcStart.hour) part)
        (codec.write nonce (table.withSymbol (table.queryWindow call.source lo hi) sym))) :
    (t :: (call.run codec t).2).IsChain (WriteOnce.Step IsParquet complete) := by
  rcases exportHourShard_cases codec call.mode call.env call.table call.hourUtcStart call.source t
    with ⟨-, e, hrun⟩ | ⟨table, lo, hi, htable, hwindow, -, hrun⟩
  · rw [run, hrun]
    exact List.isChain_singleton t
  · rw [run, hrun]
    dsimp only
    split_ifs
    · exact List.isChain_singleton t
    · refine exportSymbols_chain codec _ _ _ _ _ _ _ _ _ fun sym part nonce hrows hpart => ?_
      exact hcomplete table lo hi sym part nonce htable hwindow hrows hpart

theorem ExportCall.run_chain (call : ExportCall β) (t : Tree β) :
    (t :: (call.run codec t).2).IsChain (WriteOnce.Step IsParquet (call.SliceAt codec)) := by
  apply call.run_isChain
  intro table lo hi sym part nonce htable hwindow _ hpart
  exact ⟨table, lo, hi, sym, part, htable, hwindow, hpart, rfl, codec.read_write _ _⟩

/-- Sequences of calls and the trees after each of their file operations, from an empty
tree. A call that raises has a shorter trace, and one whose process dies stops anywhere
in it. -/
inductive ExportHistory : List (ExportCall β) → List (Tree β) → Prop
  | start : ExportHistory [] []
  | call {calls history trace} (call : ExportCall β) :
      ExportHistory calls history → trace <+: (call.run codec (Tree.after ∅ history)).2 →
      ExportHistory (calls ++ [call]) (history ++ trace)

theorem ExportHistory.chain {calls : List (ExportCall β)} {history : List (Tree β)}
    (h : ExportHistory codec calls history) :
    (∅ :: history).IsChain
      (WriteOnce.Step IsParquet fun p content => ∃ call ∈ calls, call.SliceAt codec p content) := by
  induction h with
  | start => exact List.isChain_singleton ∅
  | @call calls history trace call _ hdone ih =>
    obtain ⟨rest, hrest⟩ := hdone
    have hrun := call.run_chain codec (Tree.after ∅ history)
    rw [← hrest, ← List.cons_append] at hrun
    have hrun := hrun.left_of_append
    refine WriteOnce.isChain_cons_append (ih.imp fun _ _ hstep => hstep.mono ?_)
      (hrun.imp fun _ _ hstep => hstep.mono ?_)
    · rintro p content ⟨c, hc, hslice⟩
      exact ⟨c, List.mem_append_left _ hc, hslice⟩
    · exact fun p content hslice => ⟨call, by simp, hslice⟩

/-- After every file operation of every sequence of exports, a path a reader matches holds
the complete slice of one symbol as it was when written, and no later file operation
changes or removes it. -/
theorem shards_complete_and_immutable {calls : List (ExportCall β)} {history : List (Tree β)}
    (h : ExportHistory codec calls history) :
    (∀ t ∈ history, ∀ p content, IsParquet p → t.lookup p = some content →
      ∃ call ∈ calls, call.SliceAt codec p content) ∧
    history.Pairwise fun t t' => ∀ p content, IsParquet p →
      t.lookup p = some content → t'.lookup p = some content := by
  obtain ⟨hstart, hpairs⟩ := List.pairwise_cons.mp (WriteOnce.pairwise_extends (h.chain codec))
  refine ⟨fun t ht p content hp hcontent => ?_, hpairs.imp fun hextends => hextends.kept⟩
  exact (hstart t ht).complete p content hp (AList.lookup_empty p) hcontent

section Sample

def newsRow (item : Int × Option String) : TableRow :=
  [.timestamptz item.1, .varchar "1", .varchar "0123456", .integer 1, .timestamptz item.1,
    .varchar "kind", item.2.elim .null .varchar, .varchar "h", .varchar "b", .varchar "u",
    .varchar "d"]

def newsSource (items : List (Int × Option String)) : Source where
  rows
    | .news => items.map newsRow
    | _ => []
  conforms := by
    rintro (_ | _ | _) r hr
    · cases hr
    · cases hr
    · obtain ⟨⟨time, symbol⟩, -, rfl⟩ := List.mem_map.mp hr
      cases symbol <;> simp [Table.Conforms, Table.schema, Table.commonColumns, newsRow,
        Column.Admits, ColumnType.Admits]

def plainCodec : ParquetCodec Frame where
  write _ f := f
  read := some
  read_write _ _ := rfl
  size f := f.rows.length
  sha256File f := Nat.repr f.rows.length

/-- Nothing fails, and every temporary file is empty first. -/
def calmEnv : ExportEnv Frame := ⟨4711, none, fun i => ⟨i, [⟨[], []⟩], none⟩⟩

/-- 21 April 2026, 10:00 UTC. -/
def tenOClock : UtcHour := ⟨⟨2026, 4, 21, by decide, by decide⟩, by decide, 10⟩

/-- An export of `news` from a content with one row in its hour. -/
def newsCall (start : Datetime) (items : List (Int × Option String)) : ExportCall Frame :=
  ⟨"news", start, .fail, newsSource items, calmEnv⟩

theorem shards_complete_and_immutable_news :
    let call := newsCall tenOClock.toDatetime [(tenOClock.index * microsPerHour, some "005930")]
    let history := (call.run plainCodec ∅).2
    history.length = 3 ∧
    (∀ t ∈ history, ∀ p content, IsParquet p → t.lookup p = some content →
      ∃ c ∈ [call], c.SliceAt plainCodec p content) ∧
    history.Pairwise fun t t' => ∀ p content, IsParquet p →
      t.lookup p = some content → t'.lookup p = some content :=
  ⟨by decide, shards_complete_and_immutable plainCodec
    (.call _ .start (List.prefix_refl _))⟩

end Sample

end Athena
