import Athena.Shards.Immutability

/-!
# Runs of successful exports

In `fail` mode a call that returns has written every row of its window. Together
with the immutability of shards this says what a tree holds after any number of
successful calls on one content.
-/

namespace Athena

variable {β : Type} (codec : ParquetCodec β)

/-- What is published at the start of a trace of file operations is there at its end. -/
theorem Tree.lookup_after {complete : Path → β → Prop} {t : Tree β} {trace : List (Tree β)}
    (h : (t :: trace).IsChain (WriteOnce.Step IsParquet complete)) {p : Path} (hp : IsParquet p)
    {content : β} (hlookup : t.lookup p = some content) :
    (t.after trace).lookup p = some content := by
  have hextends := (List.pairwise_cons.mp (WriteOnce.pairwise_extends h)).1
  exact Tree.after_of hlookup fun u hu => (hextends u hu).kept p content hp hlookup

theorem Tree.lookup_after_of_mem {complete : Path → β → Prop} {t u : Tree β}
    {trace : List (Tree β)} (h : (t :: trace).IsChain (WriteOnce.Step IsParquet complete))
    (hu : u ∈ trace) {p : Path} (hp : IsParquet p) {content : β}
    (hlookup : u.lookup p = some content) : (t.after trace).lookup p = some content := by
  obtain ⟨before, rest, rfl⟩ := List.append_of_mem hu
  have hafter : t.after (before ++ u :: rest) = u.after rest := by
    rw [t.after_append]
    simp only [Tree.after, List.getLast?_cons, Option.getD_some]
  rw [← List.cons_append] at h
  rw [hafter]
  exact Tree.lookup_after h.right_of_append hp hlookup

theorem exists_ok_of_map {ε α γ : Type*} {f : α → γ} {x : Except ε α} {y : γ}
    (h : x.map f = .ok y) : ∃ a, x = .ok a := by
  cases x with
  | error e => cases h
  | ok a => exact ⟨a, rfl⟩

/-- The shard of one symbol is in the tree. -/
def Written (table : Table) (dir : Path) (df : Frame) (t : Tree β) (sym : Option String) : Prop :=
  ∃ part content, partSym sym = .ok part ∧ t.lookup (shardPath dir part) = some content ∧
    codec.read content = some (table.withSymbol df sym)

section Loop

variable (env : ExportEnv β) (table : Table) (dir : Path) (df : Frame)

theorem exportSymbol_written {i : ℕ} {sym : Option String} {acc acc' : Totals} {t : Tree β}
    (h : (exportSymbol codec .fail env table dir df i sym acc t).1 = .ok acc')
    (hrows : (table.withSymbol df sym).rows ≠ []) :
    Written codec table dir df
      (t.after (exportSymbol codec .fail env table dir df i sym acc t).2) sym := by
  rcases exportSymbol_cases codec .fail env table dir df i sym acc t with
    ⟨-, hfails⟩ | ⟨part, -, hpart, -, hwrite⟩
  · obtain ⟨⟨e, herror⟩, -⟩ := hfails rfl hrows
    rw [herror] at h
    cases h
  · rw [hwrite] at h ⊢
    obtain ⟨size, hsize⟩ := exists_ok_of_map h
    have hfault := (writeShard_isOk_iff codec).mp ⟨size, hsize⟩
    refine ⟨part, codec.write (env.writes i).nonce (table.withSymbol df sym), hpart, ?_,
      codec.read_write _ _⟩
    dsimp only
    rw [writeShard_trace codec (.inl hfault)]
    simp [Tree.after, List.getLast?_append]

theorem exportSymbols_cons_ok {mode : Mode} {i : ℕ} {sym : Option String}
    {syms : List (Option String)} {acc acc' : Totals} {t : Tree β}
    (h : (exportSymbols codec mode env table dir df i (sym :: syms) acc t).1 = .ok acc') :
    ∃ mid, (exportSymbol codec mode env table dir df i sym acc t).1 = .ok mid ∧
      (exportSymbols codec mode env table dir df (i + 1) syms mid
        (t.after (exportSymbol codec mode env table dir df i sym acc t).2)).1 = .ok acc' ∧
      t.after (exportSymbols codec mode env table dir df i (sym :: syms) acc t).2 =
        (t.after (exportSymbol codec mode env table dir df i sym acc t).2).after
          (exportSymbols codec mode env table dir df (i + 1) syms mid
            (t.after (exportSymbol codec mode env table dir df i sym acc t).2)).2 := by
  rw [exportSymbols_cons] at h ⊢
  obtain ⟨mid, hfirst, hrest, htrace⟩ := followed_ok h
  exact ⟨mid, hfirst, hrest, by rw [htrace, t.after_append]⟩

theorem exportSymbols_written {i : ℕ} {syms : List (Option String)} {acc acc' : Totals}
    {t : Tree β} (h : (exportSymbols codec .fail env table dir df i syms acc t).1 = .ok acc') :
    ∀ sym ∈ syms, (table.withSymbol df sym).rows ≠ [] → Written codec table dir df
      (t.after (exportSymbols codec .fail env table dir df i syms acc t).2) sym := by
  induction syms generalizing i acc t with
  | nil =>
    intro sym hsym
    cases hsym
  | cons sym syms ih =>
    obtain ⟨mid, hfirst, hrest, hafter⟩ := exportSymbols_cons_ok codec env table dir df h
    intro s hs hrows
    rw [hafter]
    rcases List.mem_cons.mp hs with rfl | hs
    · obtain ⟨part, content, hpart, hlookup, hread⟩ :=
        exportSymbol_written codec env table dir df hfirst hrows
      let t' := t.after (exportSymbol codec .fail env table dir df i s acc t).2
      let rest := exportSymbols codec .fail env table dir df (i + 1) syms mid t'
      have hchain : (t' :: rest.2).IsChain (WriteOnce.Step IsParquet fun _ _ => True) :=
        exportSymbols_chain codec .fail env table dir df (i + 1) syms mid t'
          fun _ _ _ _ _ => trivial
      exact ⟨part, content, hpart,
        Tree.lookup_after hchain (isParquet_shardPath dir part) hlookup, hread⟩
    · exact ih hrest s hs hrows

end Loop

namespace ExportCall

def dir (call : ExportCall β) (table : Table) : Path :=
  partitionDir table call.hourUtcStart.namedHour.date call.hourUtcStart.namedHour.hour

theorem run_written {call : ExportCall β} (hmode : call.mode = .fail) {t : Tree β}
    {result : ShardExportResult} (hok : (call.run codec t).1 = .ok result) {table : Table}
    {lo hi : Int} (htable : Table.ofName? call.table = some table)
    (hwindow : exportWindow call.hourUtcStart = .ok (lo, hi)) :
    ∀ r ∈ table.slice call.source lo hi,
      Written codec table (call.dir table) (table.queryWindow call.source lo hi)
        (t.after (call.run codec t).2) (table.symbol r) := by
  intro r hr
  have hr' : r ∈ (table.queryWindow call.source lo hi).rows :=
    (table.queryWindow_perm call.source lo hi).mem_iff.mpr hr
  rcases exportHourShard_cases codec call.mode call.env call.table call.hourUtcStart call.source t
    with ⟨-, e, hrun⟩ | ⟨table', lo', hi', htable', hwindow', -, hrun⟩
  · rw [run, hrun] at hok
    cases hok
  · obtain rfl : table' = table := Option.some.inj (htable'.symm.trans htable)
    obtain ⟨rfl, rfl⟩ : lo' = lo ∧ hi' = hi :=
      Prod.mk.inj (Except.ok.inj (hwindow'.symm.trans hwindow))
    dsimp only at hrun
    rw [if_neg (List.ne_nil_of_mem hr')] at hrun
    rw [run, hrun, hmode] at hok ⊢
    obtain ⟨acc, hloop⟩ := exists_ok_of_map hok
    have hsym : table'.symbol r ∈ table'.uniqueSymbols (table'.queryWindow call.source lo' hi') :=
      Table.mem_uniqueSymbols.mpr ⟨r, hr', rfl⟩
    exact exportSymbols_written codec call.env table' (call.dir table') _ hloop _ hsym
      (Table.withSymbol_ne_nil hsym)

end ExportCall

/-- Sequences of successful calls in `fail` mode on one content, and the tree they leave. -/
inductive ExportRun (src : Source) : List (ExportCall β) → Tree β → Prop
  | start : ExportRun src [] ∅
  | call {calls t result} (call : ExportCall β) : ExportRun src calls t → call.mode = .fail →
      call.source = src → (call.run codec t).1 = .ok result →
      ExportRun src (calls ++ [call]) (t.after (call.run codec t).2)

namespace ExportRun

variable {codec} {src : Source} {calls : List (ExportCall β)} {t : Tree β}

theorem call_isOk (h : ExportRun codec src calls t) (call : ExportCall β)
    (hmode : call.mode = .fail) (hsource : call.source = src)
    (hok : (call.run codec t).1.isOk = true) :
    ExportRun codec src (calls ++ [call]) (t.after (call.run codec t).2) := by
  cases hresult : (call.run codec t).1 with
  | error e =>
    rw [hresult] at hok
    cases hok
  | ok result => exact .call call h hmode hsource hresult

theorem history (h : ExportRun codec src calls t) :
    ∃ history, ExportHistory codec calls history ∧ Tree.after ∅ history = t := by
  induction h with
  | start => exact ⟨[], .start, rfl⟩
  | @call calls t result call _ _ _ _ ih =>
    obtain ⟨history, hhistory, rfl⟩ := ih
    exact ⟨_, .call call hhistory (List.prefix_refl _), Tree.after_append _ _ _⟩

theorem source_eq (h : ExportRun codec src calls t) : ∀ call ∈ calls, call.source = src := by
  induction h with
  | start => exact fun _ hmem => absurd hmem List.not_mem_nil
  | call call _ _ hsource _ ih =>
    intro c hc
    rcases List.mem_append.mp hc with hc | hc
    · exact ih c hc
    · rw [List.mem_singleton.mp hc, hsource]

theorem sliceAt (h : ExportRun codec src calls t) {p : Path} {content : β} (hp : IsParquet p)
    (hlookup : t.lookup p = some content) : ∃ call ∈ calls, call.SliceAt codec p content := by
  obtain ⟨history, hhistory, rfl⟩ := h.history
  rcases List.mem_cons.mp (Tree.after_mem ∅ history) with heq | hmem
  · rw [heq, AList.lookup_empty] at hlookup
    cases hlookup
  · have hextends := (List.pairwise_cons.mp
      (WriteOnce.pairwise_extends (hhistory.chain codec))).1 _ hmem
    exact hextends.complete p content hp (AList.lookup_empty p) hlookup

theorem written (h : ExportRun codec src calls t) {call : ExportCall β} (hcall : call ∈ calls)
    {table : Table} {lo hi : Int} (htable : Table.ofName? call.table = some table)
    (hwindow : exportWindow call.hourUtcStart = .ok (lo, hi)) :
    ∀ r ∈ table.slice src lo hi, Written codec table (call.dir table)
      (table.queryWindow src lo hi) t (table.symbol r) := by
  induction h with
  | start => cases hcall
  | @call calls t result last _ hmode hsource hok ih =>
    intro r hr
    rcases List.mem_append.mp hcall with hcall | hcall
    · obtain ⟨part, content, hpart, hlookup, hread⟩ := ih hcall r hr
      exact ⟨part, content, hpart, Tree.lookup_after (last.run_chain codec t)
        (isParquet_shardPath _ part) hlookup, hread⟩
    · rw [List.mem_singleton.mp hcall] at htable hwindow ⊢
      rw [← hsource] at hr ⊢
      exact last.run_written codec hmode hok htable hwindow r hr

theorem window (h : ExportRun codec src calls t) : ∀ call ∈ calls, ∃ table lo hi,
    Table.ofName? call.table = some table ∧ exportWindow call.hourUtcStart = .ok (lo, hi) := by
  induction h with
  | start => exact fun _ hmem => absurd hmem List.not_mem_nil
  | @call calls t result last _ _ _ hok ih =>
    intro c hc
    rcases List.mem_append.mp hc with hc | hc
    · exact ih c hc
    · rw [List.mem_singleton.mp hc]
      rcases exportHourShard_cases codec last.mode last.env last.table last.hourUtcStart
        last.source t with ⟨-, e, hrun⟩ | ⟨table, lo, hi, htable, hwindow, -, -⟩
      · rw [ExportCall.run, hrun] at hok
        cases hok
      · exact ⟨table, lo, hi, htable, hwindow⟩

end ExportRun

end Athena
