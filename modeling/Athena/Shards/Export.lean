import Athena.Shards.Paths

/-!
# The exporter

`exportHourShard` returns its result or exception together with its trace, the
trees that its file operations pass through one after the other. A process that
dies leaves one of these behind. What may go wrong while a shard is written is
an argument, as is every content the temporary file has on the way.
-/

namespace Athena

inductive Mode
  | fail
  | check
  deriving DecidableEq, Repr

inductive ShardError
  | unknownTable (table : String)
  | naiveDatetime
  | overflow
  | database (ioException : Bool)
  | symbolIsSentinel
  | symbolUnsupported (symbol : String)
  | alreadyExists (path : Path) (existingSha256 : String)
  | drift (path : Path) (existingSha256 : String)
  | unreadable (path : Path)
  | os
  deriving DecidableEq, Repr

/-- Where writing one shard fails: creating the directory, writing the temporary file,
renaming it, or reading the size of the published file. After the second and third the
temporary file is removed, unless that fails too. -/
inductive WriteFault
  | mkdir
  | write (unlinkFails : Bool)
  | replace (unlinkFails : Bool)
  | stat
  deriving DecidableEq, Repr

/-- The circumstances of writing one shard; `chunks` are the contents the temporary file
has before it is complete. -/
structure WriteEnv (β : Type) where
  nonce : ℕ
  chunks : List β
  fault : Option WriteFault

/-- The circumstances of one call. `writes i` belongs to the i-th symbol. -/
structure ExportEnv (β : Type) where
  pid : ℕ
  queryFails : Option Bool
  writes : ℕ → WriteEnv β

structure Totals where
  filesWritten : ℕ
  filesMatched : ℕ
  bytesWritten : ℕ
  symbolsWritten : List String
  deriving DecidableEq, Repr

structure ShardExportResult where
  table : Table
  hourUtc : Datetime
  totals : Totals

def validateSymbol (sym : String) : Except ShardError Unit :=
  if sym = symbolNullSentinel then .error .symbolIsSentinel
  else if ¬ symbolValid sym then .error (.symbolUnsupported sym)
  else .ok ()

def partSym : Option String → Except ShardError String
  | none => .ok symbolNullSentinel
  | some sym => (validateSymbol sym).map fun _ => sym

theorem validateSymbol_eq_ok_iff {sym : String} :
    validateSymbol sym = .ok () ↔ sym ≠ symbolNullSentinel ∧ symbolValid sym = true := by
  unfold validateSymbol
  split_ifs <;> simp_all

theorem partSym_some_iff {sym part : String} :
    partSym (some sym) = .ok part ↔ validateSymbol sym = .ok () ∧ sym = part := by
  have hmap : partSym (some sym) = (validateSymbol sym).map fun _ => sym := rfl
  rw [hmap]
  cases validateSymbol sym <;> simp [Except.map]

theorem partSym_inj {s s' : Option String} {part : String} (h : partSym s = .ok part)
    (h' : partSym s' = .ok part) : s = s' := by
  cases s with
  | none =>
    cases s' with
    | none => rfl
    | some sym' =>
      obtain ⟨hvalid, rfl⟩ := partSym_some_iff.mp h'
      exact absurd (Except.ok.inj h).symm (validateSymbol_eq_ok_iff.mp hvalid).1
  | some sym =>
    obtain ⟨hvalid, rfl⟩ := partSym_some_iff.mp h
    cases s' with
    | none => exact absurd (Except.ok.inj h').symm (validateSymbol_eq_ok_iff.mp hvalid).1
    | some sym' => rw [(partSym_some_iff.mp h').2]

/-- The query window, from the checks on `hour_utc_start`. -/
def exportWindow (hourUtcStart : Datetime) : Except ShardError (Int × Int) :=
  match hourUtcStart.instant with
  | none => .error .naiveDatetime
  | some lo =>
    match hourUtcStart.hourLater with
    | none => .error .overflow
    | some hi => .ok (lo, hi)

section Export

variable {β : Type} (codec : ParquetCodec β)

def Tree.after (t : Tree β) (trace : List (Tree β)) : Tree β := trace.getLast?.getD t

/-- The block from `mkdir` to `stat`: the size of the published file. -/
def writeShard (env : WriteEnv β) (tmpFile outFile : Path) (f : Frame) (t : Tree β) :
    Except ShardError ℕ × List (Tree β) :=
  let content := codec.write env.nonce f
  let writing := env.chunks.map fun chunk => t.insert tmpFile chunk
  let complete := t.insert tmpFile content
  let published := (t.erase tmpFile).insert outFile content
  match env.fault with
  | some .mkdir => (.error .os, [])
  | some (.write unlinkFails) =>
    (.error .os, writing ++ if unlinkFails then [] else [t.erase tmpFile])
  | some (.replace unlinkFails) =>
    (.error .os, writing ++ complete :: if unlinkFails then [] else [t.erase tmpFile])
  | some .stat => (.error .os, writing ++ [complete, published])
  | none => (.ok (codec.size content), writing ++ [complete, published])

variable (mode : Mode) (env : ExportEnv β) (table : Table) (dir : Path) (df : Frame)

/-- One round of the loop over `unique_syms`. -/
def exportSymbol (i : ℕ) (sym : Option String) (acc : Totals) (t : Tree β) :
    Except ShardError Totals × List (Tree β) :=
  let sub := table.withSymbol df sym
  if sub.rows = [] then (.ok acc, [])
  else
    match partSym sym with
    | .error e => (.error e, [])
    | .ok part =>
      let outFile := shardPath dir part
      match t.lookup outFile with
      | some content =>
        if mode = .fail then (.error (.alreadyExists outFile (codec.sha256File content)), [])
        else
          match codec.read content with
          | none => (.error (.unreadable outFile), [])
          | some existing =>
            if existing.dataEquals sub then
              (.ok { acc with filesMatched := acc.filesMatched + 1 }, [])
            else (.error (.drift outFile (codec.sha256File content)), [])
      | none =>
        match writeShard codec (env.writes i) (tmpPath dir part env.pid) outFile sub t with
        | (.error e, trace) => (.error e, trace)
        | (.ok size, trace) =>
          (.ok
            { acc with
              filesWritten := acc.filesWritten + 1
              bytesWritten := acc.bytesWritten + size
              symbolsWritten := acc.symbolsWritten ++ [part] }, trace)

/-- The loop over `unique_syms`. -/
def exportSymbols : ℕ → List (Option String) → Totals → Tree β →
    Except ShardError Totals × List (Tree β)
  | _, [], acc, _ => (.ok acc, [])
  | i, sym :: syms, acc, t =>
    match exportSymbol codec mode env table dir df i sym acc t with
    | (.error e, trace) => (.error e, trace)
    | (.ok acc, trace) =>
      let rest := exportSymbols (i + 1) syms acc (t.after trace)
      (rest.1, trace ++ rest.2)

end Export

theorem Tree.after_append {β : Type} (t : Tree β) (trace rest : List (Tree β)) :
    t.after (trace ++ rest) = (t.after trace).after rest := by
  unfold Tree.after
  cases h : rest.getLast? with
  | none => simp [List.getLast?_eq_none_iff.mp h]
  | some u => simp [List.getLast?_append, h]

theorem Tree.after_mem {β : Type} (t : Tree β) (trace : List (Tree β)) :
    t.after trace ∈ t :: trace := by
  unfold Tree.after
  cases h : trace.getLast? with
  | none => exact List.mem_cons_self
  | some u => exact List.mem_cons_of_mem t (List.mem_of_getLast? h)

theorem Tree.after_of {β : Type} {P : Tree β → Prop} {t : Tree β} {trace : List (Tree β)}
    (ht : P t) (h : ∀ u ∈ trace, P u) : P (t.after trace) := by
  rcases List.mem_cons.mp (t.after_mem trace) with heq | hmem
  · rw [heq]
    exact ht
  · exact h _ hmem

/-- An execution that goes on with the result of another one, if there is a result. -/
def followed {β α γ : Type} (out : Except ShardError α × List (Tree β))
    (rest : α → Except ShardError γ × List (Tree β)) : Except ShardError γ × List (Tree β) :=
  match out.1 with
  | .error e => (.error e, out.2)
  | .ok a => ((rest a).1, out.2 ++ (rest a).2)

theorem followed_ok {β α γ : Type} {out : Except ShardError α × List (Tree β)}
    {rest : α → Except ShardError γ × List (Tree β)} {c : γ} (h : (followed out rest).1 = .ok c) :
    ∃ a, out.1 = .ok a ∧ (rest a).1 = .ok c ∧ (followed out rest).2 = out.2 ++ (rest a).2 := by
  obtain ⟨result, trace⟩ := out
  cases result with
  | error e => cases h
  | ok a => exact ⟨a, rfl, h, rfl⟩

/-- `export_hour_shard` with the trees it passes through. -/
def exportHourShard {β : Type} (codec : ParquetCodec β) (mode : Mode) (env : ExportEnv β)
    (tableName : String) (hourUtcStart : Datetime) (src : Source) (t : Tree β) :
    Except ShardError ShardExportResult × List (Tree β) :=
  match Table.ofName? tableName with
  | none => (.error (.unknownTable tableName), [])
  | some table =>
    match exportWindow hourUtcStart with
    | .error e => (.error e, [])
    | .ok (lo, hi) =>
      match env.queryFails with
      | some ioException => (.error (.database ioException), [])
      | none =>
        let df := table.queryWindow src lo hi
        let dir := partitionDir table hourUtcStart.date hourUtcStart.hour
        if df.rows = [] then (.ok ⟨table, hourUtcStart, ⟨0, 0, 0, []⟩⟩, [])
        else
          let out := exportSymbols codec mode env table dir df 0 (table.uniqueSymbols df)
            ⟨0, 0, 0, []⟩ t
          (out.1.map fun totals => ⟨table, hourUtcStart, totals⟩, out.2)

section Cases

variable {β : Type} (codec : ParquetCodec β)

theorem writeShard_trace {env : WriteEnv β} (hfault : env.fault = none ∨ env.fault = some .stat)
    (tmpFile outFile : Path) (f : Frame) (t : Tree β) :
    (writeShard codec env tmpFile outFile f t).2 =
      env.chunks.map (fun chunk => t.insert tmpFile chunk) ++
        [t.insert tmpFile (codec.write env.nonce f),
          (t.erase tmpFile).insert outFile (codec.write env.nonce f)] := by
  unfold writeShard
  rcases hfault with hfault | hfault <;> rw [hfault]

theorem mem_writeShard_published {env : WriteEnv β}
    (hfault : env.fault = none ∨ env.fault = some .stat) (tmpFile outFile : Path) (f : Frame)
    (t : Tree β) : (t.erase tmpFile).insert outFile (codec.write env.nonce f) ∈
      (writeShard codec env tmpFile outFile f t).2 := by
  rw [writeShard_trace codec hfault]
  exact List.mem_append_right _ (List.mem_cons_of_mem _ List.mem_cons_self)

theorem writeShard_isOk_iff {env : WriteEnv β} {tmpFile outFile : Path} {f : Frame}
    {t : Tree β} :
    (∃ size, (writeShard codec env tmpFile outFile f t).1 = .ok size) ↔ env.fault = none := by
  unfold writeShard
  cases hfault : env.fault with
  | none => simp
  | some fault => cases fault <;> simp

/-- A write that fails before the rename touches the temporary file only. -/
theorem writeShard_hidden (env : WriteEnv β) (tmpFile outFile : Path) (f : Frame) (t : Tree β)
    (hfault : ¬ (env.fault = none ∨ env.fault = some .stat)) :
    (∃ e, (writeShard codec env tmpFile outFile f t).1 = .error e) ∧
      ∀ u ∈ (writeShard codec env tmpFile outFile f t).2, ∀ j ≠ tmpFile,
        u.lookup j = t.lookup j := by
  have hwriting : ∀ u ∈ env.chunks.map (fun chunk => t.insert tmpFile chunk),
      ∀ j ≠ tmpFile, u.lookup j = t.lookup j := by
    intro u hu j hj
    obtain ⟨chunk, -, rfl⟩ := List.mem_map.mp hu
    exact AList.lookup_insert_ne hj
  have hcomplete : ∀ j ≠ tmpFile,
      (t.insert tmpFile (codec.write env.nonce f)).lookup j = t.lookup j :=
    fun j hj => AList.lookup_insert_ne hj
  have herase : ∀ j ≠ tmpFile, (t.erase tmpFile).lookup j = t.lookup j :=
    fun j hj => AList.lookup_erase_ne hj
  unfold writeShard
  cases hcase : env.fault with
  | none => exact absurd (.inl hcase) hfault
  | some fault =>
    cases fault with
    | stat => exact absurd (.inr hcase) hfault
    | mkdir => exact ⟨⟨_, rfl⟩, fun u hu => absurd hu List.not_mem_nil⟩
    | write unlinkFails =>
      refine ⟨⟨_, rfl⟩, fun u hu => ?_⟩
      rcases List.mem_append.mp hu with hu | hu
      · exact hwriting u hu
      · cases unlinkFails with
        | true => cases hu
        | false => exact List.mem_singleton.mp hu ▸ herase
    | replace unlinkFails =>
      refine ⟨⟨_, rfl⟩, fun u hu => ?_⟩
      rcases List.mem_append.mp hu with hu | hu
      · exact hwriting u hu
      · rcases List.mem_cons.mp hu with rfl | hu
        · exact hcomplete
        · cases unlinkFails with
          | true => cases hu
          | false => exact List.mem_singleton.mp hu ▸ herase

theorem writeShard_frame (env : WriteEnv β) (tmpFile outFile : Path) (f : Frame) (t : Tree β) :
    ∀ u ∈ (writeShard codec env tmpFile outFile f t).2, ∀ p ≠ tmpFile, p ≠ outFile →
      u.lookup p = t.lookup p := by
  intro u hu p htmp hout
  by_cases hfault : env.fault = none ∨ env.fault = some .stat
  · rw [writeShard_trace codec hfault] at hu
    simp only [List.mem_append, List.mem_map, List.mem_cons, List.not_mem_nil, or_false] at hu
    rcases hu with ⟨chunk, -, rfl⟩ | rfl | rfl
    · exact AList.lookup_insert_ne htmp
    · exact AList.lookup_insert_ne htmp
    · rw [AList.lookup_insert_ne hout, AList.lookup_erase_ne htmp]
  · exact (writeShard_hidden codec env tmpFile outFile f t hfault).2 u hu p htmp

/-- A round leaves the tree alone, in `fail` mode for an error if there are rows to write,
or writes one shard under a free name. -/
theorem exportSymbol_cases (mode : Mode) (env : ExportEnv β) (table : Table) (dir : Path)
    (df : Frame) (i : ℕ) (sym : Option String) (acc : Totals) (t : Tree β) :
    ((exportSymbol codec mode env table dir df i sym acc t).2 = [] ∧
      (mode = .fail → (table.withSymbol df sym).rows ≠ [] →
        (∃ e, (exportSymbol codec mode env table dir df i sym acc t).1 = .error e) ∧
        ∀ part, partSym sym = .ok part → t.lookup (shardPath dir part) ≠ none)) ∨
    ∃ part, (table.withSymbol df sym).rows ≠ [] ∧ partSym sym = .ok part ∧
      t.lookup (shardPath dir part) = none ∧
      exportSymbol codec mode env table dir df i sym acc t =
        let out := writeShard codec (env.writes i) (tmpPath dir part env.pid) (shardPath dir part)
          (table.withSymbol df sym) t
        (out.1.map fun size =>
          { acc with
            filesWritten := acc.filesWritten + 1
            bytesWritten := acc.bytesWritten + size
            symbolsWritten := acc.symbolsWritten ++ [part] }, out.2) := by
  unfold exportSymbol
  dsimp only
  by_cases hrows : (table.withSymbol df sym).rows = []
  · rw [if_pos hrows]
    exact .inl ⟨rfl, fun _ h => absurd hrows h⟩
  rw [if_neg hrows]
  cases partSym sym with
  | error e => exact .inl ⟨rfl, fun _ _ => ⟨⟨e, rfl⟩, fun _ h => nomatch h⟩⟩
  | ok part =>
    dsimp only
    cases hlookup : t.lookup (shardPath dir part) with
    | some content =>
      have hexists : ∀ part', (Except.ok part : Except ShardError String) = .ok part' →
          t.lookup (shardPath dir part') ≠ none := by
        intro part' h
        obtain rfl := Except.ok.inj h
        simp [hlookup]
      refine .inl ?_
      dsimp only
      by_cases hmode : mode = .fail
      · rw [if_pos hmode]
        exact ⟨rfl, fun _ _ => ⟨⟨_, rfl⟩, hexists⟩⟩
      · rw [if_neg hmode]
        refine ⟨?_, fun h => absurd h hmode⟩
        cases codec.read content with
        | none => rfl
        | some existing =>
          dsimp only
          split <;> rfl
    | none =>
      refine .inr ⟨part, hrows, rfl, hlookup, ?_⟩
      dsimp only
      generalize writeShard codec (env.writes i) _ _ _ t = out
      obtain ⟨result, trace⟩ := out
      cases result <;> rfl

theorem exportSymbols_cons (mode : Mode) (env : ExportEnv β) (table : Table) (dir : Path)
    (df : Frame) (i : ℕ) (sym : Option String) (syms : List (Option String)) (acc : Totals)
    (t : Tree β) :
    exportSymbols codec mode env table dir df i (sym :: syms) acc t =
      followed (exportSymbol codec mode env table dir df i sym acc t) fun acc' =>
        exportSymbols codec mode env table dir df (i + 1) syms acc'
          (t.after (exportSymbol codec mode env table dir df i sym acc t).2) := by
  rw [exportSymbols]
  generalize exportSymbol codec mode env table dir df i sym acc t = out
  obtain ⟨result, trace⟩ := out
  cases result <;> rfl

/-- A call fails before it looks at the tree, or runs the loop on the rows of its window. -/
theorem exportHourShard_cases (mode : Mode) (env : ExportEnv β) (tableName : String)
    (hourUtcStart : Datetime) (src : Source) (t : Tree β) :
    ((∀ table lo hi, Table.ofName? tableName = some table →
        exportWindow hourUtcStart = .ok (lo, hi) → env.queryFails ≠ none) ∧
      ∃ e, exportHourShard codec mode env tableName hourUtcStart src t = (.error e, [])) ∨
    ∃ table lo hi, Table.ofName? tableName = some table ∧
      exportWindow hourUtcStart = .ok (lo, hi) ∧ env.queryFails = none ∧
      exportHourShard codec mode env tableName hourUtcStart src t =
        let df := table.queryWindow src lo hi
        if df.rows = [] then (.ok ⟨table, hourUtcStart, ⟨0, 0, 0, []⟩⟩, [])
        else
          let out := exportSymbols codec mode env table
            (partitionDir table hourUtcStart.date hourUtcStart.hour) df 0
            (table.uniqueSymbols df) ⟨0, 0, 0, []⟩ t
          (out.1.map fun totals => ⟨table, hourUtcStart, totals⟩, out.2) := by
  unfold exportHourShard
  cases Table.ofName? tableName with
  | none => exact .inl ⟨fun _ _ _ h => (nomatch h), _, rfl⟩
  | some table =>
    cases exportWindow hourUtcStart with
    | error e => exact .inl ⟨fun _ _ _ _ h => (nomatch h), _, rfl⟩
    | ok window =>
      cases env.queryFails with
      | some ioException => exact .inl ⟨fun _ _ _ _ _ h => (nomatch h), _, rfl⟩
      | none => exact .inr ⟨table, window.1, window.2, rfl, rfl, rfl, rfl⟩

end Cases

end Athena
