import Athena.Library.Replica
import Athena.Shards.ReadBack

/-!
# The trading side reads a copy

The logger exports into its tree while `athena-logger-sync.service` copies the
tree over and over: files arrive under a hidden name and are renamed, files that
are there already are passed over, what the logger does not list is removed at
the end of a pass, and every pass may be cut off anywhere. The queries of the
trading side read the copy, at any moment.
-/

namespace Athena

variable {β : Type} {codec : ParquetCodec β}

/-- The trees of both sides while the logger's goes through a history, the latest first. -/
abbrev SyncRun (history : List (Tree β)) (states : List (Replica.State Path β)) : Prop :=
  Replica.Run IsParquet history states

section Queries

theorem subperm_flatMap {α γ : Type*} {l₁ l₂ : List α} (h : l₁.Subperm l₂) (f : α → List γ) :
    (l₁.flatMap f).Subperm (l₂.flatMap f) := by
  obtain ⟨l, hperm, hsub⟩ := h
  exact ⟨l.flatMap f, hperm.flatMap_right f, hsub.flatMap f⟩

theorem subperm_fileRows {t u : Tree β} (h : ∀ p content, IsParquet p →
    t.lookup p = some content → u.lookup p = some content) (table : Table) :
    ((t.glob table).flatMap (fileRows codec)).Subperm
      ((u.glob table).flatMap (fileRows codec)) := by
  apply subperm_flatMap
  apply (glob_nodup t table).subperm
  intro file hfile
  obtain ⟨hglob, hlookup⟩ := mem_glob.mp hfile
  exact mem_glob.mpr ⟨hglob, h file.1 file.2 hglob.2 hlookup⟩

theorem select_init {t : Tree β} {table : Table}
    (hread : ∀ file ∈ t.glob table, ∃ f, codec.read file.2 = some f) (cond : TableRow → Bool) :
    ∃ rows, (FeatureStore.init t).select codec t table cond = .ok rows ∧
      (rows.map ScanRow.own).Perm (((t.glob table).flatMap (fileRows codec)).filter cond) ∧
      (rows.map fun row => table.time row.own).Pairwise (· ≤ ·) := by
  obtain ⟨all, hall, hown⟩ := scan_init codec hread
  let le : ScanRow → ScanRow → Prop := fun a b => table.time a.own ≤ table.time b.own
  refine ⟨(all.filter fun row => cond row.own).insertionSort le, ?_, ?_, ?_⟩
  · rw [FeatureStore.select, hall]
    rfl
  · rw [← hown, List.filter_map]
    exact (List.perm_insertionSort le _).map ScanRow.own
  · have : Std.Total le := ⟨fun a b => le_total _ _⟩
    have : IsTrans ScanRow le := ⟨fun a b c => le_trans⟩
    exact List.pairwise_map.mpr (List.pairwise_insertionSort le _)

end Queries

/-- Every call names a full UTC hour, as `parse_hour` makes them. -/
def OnTheHour (calls : List (ExportCall β)) : Prop :=
  ∀ call ∈ calls, ∃ hour : UtcHour, call.hourUtcStart = hour.toDatetime

/-- The shard of the hour and symbol of the row is in the tree. -/
def Arrived (u : Tree β) (table : Table) (r : TableRow) : Prop :=
  ∃ (hour : UtcHour) (part : String), hour.Contains (table.time r) ∧
    partSym (table.symbol r) = .ok part ∧
    shardPath (partitionDir table hour.date hour.hour) part ∈ u

/-- What a query on the copy returns: in time order, the rows of the source whose shard has
arrived. They are exported by then, and all are there that were exported when a pass that has
since finished began. -/
structure Current (codec : ParquetCodec β) (src : Source) (calls : List (ExportCall β))
    (copy : Tree β) (states : List (Replica.State Path β)) (table : Table)
    (cond : TableRow → Bool) (rows : List ScanRow) : Prop where
  sorted : (rows.map fun row => table.time row.own).Pairwise (· ≤ ·)
  arrived : ∀ [DecidablePred (Arrived copy table)], (rows.map ScanRow.own).Perm
    ((src.rows table).filter fun r => cond r ∧ Arrived copy table r)
  exported : (rows.map ScanRow.own).Subperm
    ((src.rows table).filter fun r => cond r ∧ ExportedHour calls table (table.time r))
  synced : ∀ s ∈ states, ∀ earlier listed, ExportRun codec src earlier listed →
    OnTheHour earlier → Replica.Finished IsParquet s listed →
    ((src.rows table).filter fun r => cond r ∧ ExportedHour earlier table (table.time r)).Subperm
      (rows.map ScanRow.own)

section Arrival

variable {src : Source} {calls : List (ExportCall β)} {t u : Tree β}

theorem ExportRun.mem_fileRows (h : ExportRun codec src calls t) (hhours : OnTheHour calls)
    {table : Table} {r : TableRow} (hr : r ∈ src.rows table) {hour : UtcHour} {part : String}
    (hcontains : hour.Contains (table.time r)) (hpart : partSym (table.symbol r) = .ok part)
    {content : β} (hlookup :
      t.lookup (shardPath (partitionDir table hour.date hour.hour) part) = some content) :
    r ∈ fileRows codec ⟨shardPath (partitionDir table hour.date hour.hour) part, content⟩ := by
  obtain ⟨call, hcall, hslice⟩ := h.sliceAt (isParquet_shardPath _ part) hlookup
  obtain ⟨_, _, _, _, _, -, -, -, -, hread⟩ := id hslice
  obtain ⟨lo, hi, part', sym, -, hwindow, hpart', hpath, hframe⟩ :=
    hslice.frame codec hread (rfl : (shardPath _ part).head? = some table.name)
  obtain ⟨hour', heq⟩ := hhours call hcall
  obtain ⟨hdir, rfl⟩ := shardPath_inj.mp hpath
  rw [ExportCall.dir, heq] at hdir
  obtain ⟨-, rfl⟩ := partitionDir_inj (g := hour) (h := hour'.toDatetime.namedHour) hdir
  rw [heq] at hwindow
  obtain ⟨rfl, rfl⟩ := exportWindow_toDatetime hwindow
  rw [fileRows, hread, hframe]
  refine List.mem_filter.mpr ⟨Table.mem_queryWindow.mpr ⟨?_, hcontains⟩,
    decide_eq_true (partSym_inj hpart hpart')⟩
  rw [h.source_eq call hcall]
  exact hr

/-- A tree with some of the shards holds the rows of the source whose shard it has. -/
theorem ExportRun.subtree_perm (h : ExportRun codec src calls t) (hhours : OnTheHour calls)
    (hsubset : ∀ p content, IsParquet p → u.lookup p = some content →
      t.lookup p = some content) (table : Table) [DecidablePred (Arrived u table)] :
    ((Tree.glob u table).flatMap (fileRows codec)).Perm
      ((src.rows table).filter fun r => Arrived u table r) := by
  have hglob : ∀ file ∈ Tree.glob u table, file ∈ Tree.glob t table := by
    intro file hfile
    obtain ⟨hmatch, hlookup⟩ := mem_glob.mp hfile
    exact mem_glob.mpr ⟨hmatch, hsubset _ _ hmatch.2 hlookup⟩
  refine flatMap_perm_filter (glob_nodup u table) (fun file hfile r hr => ?_)
    (fun file hfile other hother _ hr hr' =>
      h.file_unique hhours (hglob file hfile) (hglob other hother) hr hr') fun r hr harrived => ?_
  · refine ⟨(h.count_file hhours (hglob file hfile) hr).1, ?_⟩
    have hnamed : ∀ call ∈ calls, call.hourUtcStart.InNamedHour := fun call hcall => by
      obtain ⟨hour, heq⟩ := hhours call hcall
      exact heq ▸ hour.inNamedHour
    obtain ⟨hour, part, hpart, hcontains, hpath⟩ :=
      h.path_of_holds codec hnamed (h.holds_of_mem (hglob file hfile) hr)
    exact ⟨hour, part, hcontains, hpart, hpath ▸ Replica.mem_of_lookup (mem_glob.mp hfile).2⟩
  · obtain ⟨hour, part, hcontains, hpart, hmem⟩ := harrived
    obtain ⟨content, hlookup⟩ := Option.isSome_iff_exists.mp (AList.lookup_isSome.mpr hmem)
    have hparquet := isParquet_shardPath (partitionDir table hour.date hour.hour) part
    exact ⟨⟨_, content⟩, mem_glob.mpr ⟨⟨rfl, hparquet⟩, hlookup⟩,
      h.mem_fileRows hhours hr hcontains hpart (hsubset _ _ hparquet hlookup)⟩

end Arrival

section Sync

variable {src : Source} {calls : List (ExportCall β)} {t : Tree β} {history seen : List (Tree β)}
  {s : Replica.State Path β} {states : List (Replica.State Path β)}

theorem copy_subset (hhistory : ExportHistory codec calls history)
    (hlast : Tree.after ∅ history = t) (hseen : seen <+: history)
    (hrun : SyncRun seen (s :: states)) : ∀ p content, IsParquet p →
      s.copy.lookup p = some content → t.lookup p = some content := by
  intro p content hp hcopy
  obtain ⟨rest, rfl⟩ := hseen
  have hchain := hhistory.chain codec
  have hfront := hchain
  rw [← List.cons_append] at hfront
  have horigin := ((hrun.faithful hfront.left_of_append).1 s List.mem_cons_self).copied
    p content hp hcopy
  rw [← hlast]
  rcases List.mem_cons.mp (hrun.mem_origin s List.mem_cons_self) with heq | hmem
  · rw [heq] at horigin
    exact Tree.lookup_after hchain hp horigin
  · exact Tree.lookup_after_of_mem hchain (List.mem_append_left rest hmem) hp horigin

theorem listed_subset (hhistory : ExportHistory codec calls history) (hseen : seen <+: history)
    (hrun : SyncRun seen (s :: states)) {s' : Replica.State Path β} (hs' : s' ∈ s :: states)
    {listed : Tree β} (hdone : Replica.Finished IsParquet s' listed) : ∀ p content,
      IsParquet p → listed.lookup p = some content → s.copy.lookup p = some content := by
  intro p content hp hlisted
  obtain ⟨rest, rfl⟩ := hseen
  have hfront := hhistory.chain codec
  rw [← List.cons_append] at hfront
  obtain ⟨hall, hkept⟩ := hrun.faithful hfront.left_of_append
  have harrived := (hall s' hs').finished hdone hp hlisted
  rcases List.mem_cons.mp hs' with rfl | hs'
  · exact harrived
  · exact (List.pairwise_cons.mp hkept).1 s' hs' p content hp harrived

/-- A selection on the copy, at any moment of a run. -/
theorem select_current (h : ExportRun codec src calls t) (hhours : OnTheHour calls)
    (hhistory : ExportHistory codec calls history) (hlast : Tree.after ∅ history = t)
    (hseen : seen <+: history) (hrun : SyncRun seen (s :: states)) (table : Table)
    (cond : TableRow → Bool) :
    ∃ rows, (FeatureStore.init s.copy).select codec s.copy table cond = .ok rows ∧
      Current codec src calls s.copy (s :: states) table cond rows := by
  have hsubset := copy_subset hhistory hlast hseen hrun
  have hread : ∀ file ∈ Tree.glob s.copy table, ∃ f, codec.read file.2 = some f := by
    intro file hfile
    obtain ⟨hglob, hlookup⟩ := mem_glob.mp hfile
    exact h.readable table file (mem_glob.mpr ⟨hglob, hsubset _ _ hglob.2 hlookup⟩)
  obtain ⟨rows, hrows, hperm, hsorted⟩ := select_init hread cond
  refine ⟨rows, hrows, hsorted, ?_, ?_, ?_⟩
  · intro hdecidable
    have hexact := hperm.trans ((h.subtree_perm hhours hsubset table).filter cond)
    rw [List.filter_filter] at hexact
    simpa only [Bool.decide_and, Bool.decide_eq_true] using hexact
  · have hupper := ((subperm_fileRows hsubset table).filter cond).trans
      ((h.glob_perm hhours table).filter cond).subperm
    rw [List.filter_filter] at hupper
    simpa only [Bool.decide_and, Bool.decide_eq_true] using hperm.subperm.trans hupper
  · intro s' hs' earlier listed hearlier hhours' hdone
    have hlower := (((hearlier.glob_perm hhours' table).filter cond).symm.subperm).trans
      ((subperm_fileRows (listed_subset hhistory hseen hrun hs' hdone) table).filter cond)
    rw [List.filter_filter] at hlower
    simpa only [Bool.decide_and, Bool.decide_eq_true] using hlower.trans hperm.symm.subperm

end Sync

section Sample

def tenCall : ExportCall Frame :=
  newsCall tenOClock.toDatetime [(tenOClock.index * microsPerHour, some "005930")]

def tenShard : Path := shardPath (partitionDir .news tenOClock.date tenOClock.hour) "005930"

/-- The logger exports, then a pass lists its tree and copies the shard. -/
theorem tenCall_synced : ∃ s states, SyncRun (tenCall.run plainCodec ∅).2 (s :: states) ∧
    Replica.Finished IsParquet s (Tree.after ∅ (tenCall.run plainCodec ∅).2) ∧
    (s.copy.lookup tenShard).isSome := by
  obtain ⟨t₁, t₂, t₃, htrace⟩ : ∃ t₁ t₂ t₃, (tenCall.run plainCodec ∅).2 = [t₁, t₂, t₃] :=
    List.length_eq_three.mp (by decide)
  have hlast : Tree.after ∅ (tenCall.run plainCodec ∅).2 = t₃ := by rw [htrace]; rfl
  have hkeys : t₃.keys = [tenShard] := by rw [← hlast]; decide
  have hmem : tenShard ∈ t₃ := AList.mem_keys.mpr (hkeys ▸ List.mem_singleton.mpr rfl)
  obtain ⟨content, hcontent⟩ := Option.isSome_iff_exists.mp (AList.lookup_isSome.mpr hmem)
  have hwritten : SyncRun [t₁, t₂, t₃] [⟨t₃, ∅, none, [], none⟩, _, _, _] :=
    .write t₃ (.write t₂ (.write t₁ .start))
  have hlisted : SyncRun [t₁, t₂, t₃] (⟨t₃, ∅, some t₃, [], none⟩ :: _) :=
    hwritten.copier .list rfl
  have hfetch : Replica.step IsParquet ⟨t₃, ∅, some t₃, [], none⟩ (.fetch tenShard) =
      some ⟨t₃, ∅, some t₃, [], some (tenShard, content)⟩ := by
    simp [Replica.step, hmem, hcontent]
  have hplaced := (hlisted.copier (.fetch tenShard) hfetch).copier .place rfl
  refine ⟨_, _, htrace ▸ hplaced, ⟨by rw [hlast], fun k _ hk => ?_⟩, ?_⟩
  · rw [hlast] at hk
    exact hkeys ▸ AList.mem_keys.mp hk
  · exact AList.lookup_isSome.mpr ((AList.mem_insert _).mpr (.inl rfl))

end Sample

/-- Whenever the trading side looks, each shard it finds is the logger's and is a complete slice
of an export, and no shard it has once seen is lost or changed. -/
theorem synced_shards_complete_and_stay {calls : List (ExportCall β)} {history : List (Tree β)}
    (h : ExportHistory codec calls history) {states : List (Replica.State Path β)}
    (hrun : SyncRun history states) :
    (∀ s ∈ states, ∀ p content, IsParquet p → s.copy.lookup p = some content →
      s.origin.lookup p = some content ∧ ∃ call ∈ calls, call.SliceAt codec p content) ∧
    states.Pairwise fun later s => ∀ p content, IsParquet p →
      s.copy.lookup p = some content → later.copy.lookup p = some content := by
  obtain ⟨hall, hkept⟩ := hrun.faithful (h.chain codec)
  refine ⟨fun s hs p content hp hcopy => ?_, hkept⟩
  have horigin := (hall s hs).copied p content hp hcopy
  refine ⟨horigin, ?_⟩
  rcases List.mem_cons.mp (hrun.mem_origin s hs) with heq | hmem
  · rw [heq, AList.lookup_empty] at horigin
    cases horigin
  · have hextends := (List.pairwise_cons.mp
      (WriteOnce.pairwise_extends (h.chain codec))).1 _ hmem
    exact hextends.complete p content hp (AList.lookup_empty p) horigin

theorem synced_shards_complete_and_stay_news : ∃ states : List (Replica.State Path Frame),
    (∃ s ∈ states, (s.copy.lookup tenShard).isSome) ∧
    (∀ s ∈ states, ∀ p content, IsParquet p → s.copy.lookup p = some content →
      s.origin.lookup p = some content ∧
        ∃ call ∈ [tenCall], call.SliceAt plainCodec p content) ∧
    states.Pairwise fun later s => ∀ p content, IsParquet p →
      s.copy.lookup p = some content → later.copy.lookup p = some content := by
  obtain ⟨s, states, hrun, -, hcopied⟩ := tenCall_synced
  exact ⟨s :: states, ⟨s, List.mem_cons_self, hcopied⟩,
    synced_shards_complete_and_stay (.call tenCall .start (List.prefix_refl _)) hrun⟩

/-- At any moment, whatever the logger and the copier have done by then, both queries of the
trading side answer from the copy with the rows of the source whose shard has arrived: all of
them once a pass that began after the last export has finished. -/
theorem queries_read_synced {src : Source} {calls : List (ExportCall β)} {t : Tree β}
    {history seen : List (Tree β)} {s : Replica.State Path β}
    {states : List (Replica.State Path β)} (h : ExportRun codec src calls t)
    (hhours : OnTheHour calls) (hhistory : ExportHistory codec calls history)
    (hlast : Tree.after ∅ history = t) (hseen : seen <+: history)
    (hrun : SyncRun seen (s :: states)) :
    (∀ symbol sinceUtc since, sinceUtc.instant = some since →
      ∃ rows, (FeatureStore.init s.copy).queryNewsForSymbol codec s.copy symbol sinceUtc =
          .ok rows ∧
        Current codec src calls s.copy (s :: states) .news
          (fun r => Table.news.symbol r = some symbol ∧ since ≤ Table.news.time r) rows) ∧
    (∀ symbol lookback now, 0 < lookback → lookback ≤ FeatureStore.maxLookbackMin →
      ∃ rows, (FeatureStore.init s.copy).queryRecentTicks codec s.copy now symbol lookback =
          .ok rows ∧
        Current codec src calls s.copy (s :: states) .ticks
          (fun r => Table.ticks.symbol r = some symbol ∧
            now - lookback * 60000000 < Table.ticks.time r) rows) := by
  constructor
  · intro symbol sinceUtc since hsince
    rw [FeatureStore.queryNewsForSymbol, hsince]
    exact select_current h hhours hhistory hlast hseen hrun .news _
  · intro symbol lookback now hpos hmax
    rw [FeatureStore.queryRecentTicks, if_neg (not_not.mpr ⟨hpos, hmax⟩)]
    exact select_current h hhours hhistory hlast hseen hrun .ticks _

theorem queries_read_synced_news : ∃ s states,
    Replica.Finished IsParquet s (Tree.after ∅ (tenCall.run plainCodec ∅).2) ∧
    (∀ symbol sinceUtc since, sinceUtc.instant = some since →
      ∃ rows, (FeatureStore.init s.copy).queryNewsForSymbol plainCodec s.copy symbol sinceUtc =
          .ok rows ∧
        Current plainCodec tenCall.source [tenCall] s.copy (s :: states) .news
          (fun r => Table.news.symbol r = some symbol ∧ since ≤ Table.news.time r) rows) ∧
    (∀ symbol lookback now, 0 < lookback → lookback ≤ FeatureStore.maxLookbackMin →
      ∃ rows, (FeatureStore.init s.copy).queryRecentTicks plainCodec s.copy now symbol lookback =
          .ok rows ∧
        Current plainCodec tenCall.source [tenCall] s.copy (s :: states) .ticks
          (fun r => Table.ticks.symbol r = some symbol ∧
            now - lookback * 60000000 < Table.ticks.time r) rows) := by
  obtain ⟨s, states, hrun, hdone, -⟩ := tenCall_synced
  exact ⟨s, states, hdone, queries_read_synced (ExportRun.start.call_isOk tenCall rfl rfl
    (by decide)) (fun c hc => ⟨tenOClock, List.mem_singleton.mp hc ▸ rfl⟩)
    (.call tenCall .start (List.prefix_refl _)) rfl (List.prefix_refl _) hrun⟩

end Athena
