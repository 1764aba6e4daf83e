import Athena.Shards.CheckRun
import Athena.Shards.FailedExport

/-!
# When a check writes nothing

A check that comes to a missing shard writes it. The tree stays as it was if
there is none to come to, or if the first one fails to be written and nothing
is left of the attempt.
-/

namespace Athena

variable {β : Type}

/-- The temporary file after a write that fails before the rename, from what was there before. -/
def WriteEnv.tmpLeft (env : WriteEnv β) (content : β) (before : Option β) : Option β :=
  match env.fault with
  | some (.write unlinkFails) => if unlinkFails then env.chunks.getLast?.or before else none
  | some (.replace unlinkFails) => if unlinkFails then some content else none
  | _ => before

/-- The write of the shard fails before the rename, and its temporary file is as before. -/
def MissingShard.Traceless (codec : ParquetCodec β) (m : MissingShard β) (t : Tree β) : Prop :=
  ¬ (m.env.fault = none ∨ m.env.fault = some .stat) ∧
    m.env.tmpLeft (codec.write m.env.nonce m.frame) (t.lookup m.tmpFile) = t.lookup m.tmpFile

/-- The plan has no missing shard, or the first one leaves no trace. -/
def CheckPlan.LeavesTree (codec : ParquetCodec β) (p : CheckPlan β) (t : Tree β) : Prop :=
  ∀ m ∈ p.missing.head?, m.Traceless codec t

/-- The same files with the same contents. The directories that `mkdir(parents=True)` makes for a
write are not part of the tree. -/
def SameTree (t t' : Tree β) : Prop := ∀ p, t'.lookup p = t.lookup p

variable (codec : ParquetCodec β)

theorem lookup_after_failed_write {env : WriteEnv β} (tmpFile outFile : Path) (f : Frame)
    (t : Tree β) (hfault : ¬ (env.fault = none ∨ env.fault = some .stat)) (p : Path) :
    (t.after (writeShard codec env tmpFile outFile f t).2).lookup p =
      if p = tmpFile then env.tmpLeft (codec.write env.nonce f) (t.lookup tmpFile)
      else t.lookup p := by
  by_cases hp : p = tmpFile
  · subst hp
    rw [if_pos rfl]
    unfold writeShard WriteEnv.tmpLeft Tree.after
    cases hcase : env.fault with
    | none => exact absurd (.inl hcase) hfault
    | some fault =>
      cases fault with
      | stat => exact absurd (.inr hcase) hfault
      | mkdir => rfl
      | write unlinkFails =>
        cases unlinkFails with
        | false => simp
        | true =>
          simp only [if_true, List.append_nil, List.getLast?_map]
          cases env.chunks.getLast? <;> simp
      | replace unlinkFails => cases unlinkFails <;> simp [List.getLast?_append]
  · rw [if_neg hp]
    apply Tree.after_of (P := fun u => u.lookup p = t.lookup p) rfl
    intro u hu
    exact (writeShard_hidden codec env tmpFile outFile f t hfault).2 u hu p hp

variable {codec}

/-- What a plan says about the tree, for executions that are chains of file operations. -/
theorem CheckPlan.Describes.sameTree_iff {complete : Path → β → Prop} {plan : CheckPlan β}
    {t : Tree β} {ok : Prop} {trace : List (Tree β)} (h : plan.Describes codec t ok trace)
    (hchain : (t :: trace).IsChain (WriteOnce.Step IsParquet complete)) :
    SameTree t (t.after trace) ↔ plan.LeavesTree codec t := by
  unfold LeavesTree
  cases hmissing : plan.missing with
  | nil =>
    obtain rfl := h.idle hmissing
    exact ⟨fun _ _ hm => (nomatch hm), fun _ _ => rfl⟩
  | cons m rest =>
    obtain ⟨hfree, later, rfl, hlater⟩ := h.first m rest hmissing
    have hhead : (∀ m' ∈ (m :: rest).head?, m'.Traceless codec t) ↔ m.Traceless codec t := by
      simp
    rw [hhead]
    by_cases hfault : m.env.fault = none ∨ m.env.fault = some .stat
    · refine iff_of_false (fun hsame => ?_) fun htraceless => htraceless.1 hfault
      have hpublished := mem_writeShard_published codec hfault m.tmpFile m.outFile m.frame t
      have hparquet : IsParquet m.outFile := isParquet_shardPath m.dir m.part
      have hkept := Tree.lookup_after_of_mem hchain (List.mem_append_left _ hpublished) hparquet
        (AList.lookup_insert _)
      rw [hsame, hfree] at hkept
      cases hkept
    · obtain rfl := hlater fun hnone => hfault (.inl hnone)
      have hlookup := lookup_after_failed_write codec m.tmpFile m.outFile m.frame t hfault
      rw [List.append_nil]
      unfold SameTree MissingShard.write
      simp only [hlookup]
      constructor
      · intro hsame
        refine ⟨hfault, ?_⟩
        have htmp := hsame m.tmpFile
        rwa [if_pos rfl] at htmp
      · rintro ⟨-, htmp⟩ p
        split_ifs with hp
        · rw [hp, htmp]
        · rfl

variable (codec)

theorem exportMain_chain (args : ExportArgs) (env : ExportMainEnv β) (src : Source) (t : Tree β) :
    (t :: (exportMain codec args env src t).2).IsChain
      (WriteOnce.Step IsParquet fun _ _ => True) := by
  unfold exportMain
  cases args.hour with
  | error detail => exact List.isChain_singleton t
  | ok hour =>
    dsimp only
    generalize (if args.checkOnly then Mode.check else Mode.fail) = mode
    split_ifs
    · exact List.isChain_singleton t
    all_goals
      cases env.openFails with
      | some ioException => exact List.isChain_singleton t
      | none =>
        have hchain := exportTables_chain codec hour src env.exports mode 0 args.tableList ⟨[], 0⟩ t
        dsimp only
        generalize exportTables codec mode hour src env.exports 0 args.tableList _ t = out
          at hchain
        obtain ⟨result, trace⟩ := out
        cases result <;> exact hchain

/-- A call in check mode, and a run of the command with `--check-only`, leave the tree as it
was if and only if they come to no missing shard or the first one leaves no trace. -/
theorem check_leaves_tree_iff :
    (∀ env name hour src t,
      SameTree t (t.after (exportHourShard codec .check env name hour src t).2) ↔
        (planHour codec hour src env name t).LeavesTree codec t) ∧
    ∀ hour tables env src t,
      SameTree t (t.after (exportMain codec ⟨hour, tables, true⟩ env src t).2) ↔
        (checkPlan codec src ⟨hour, tables, true⟩ env t).LeavesTree codec t :=
  ⟨fun env name hour src t => (exportHourShard_describes codec hour src env name t).sameTree_iff
      ((ExportCall.mk name hour .check src env).run_chain codec t),
    fun hour tables env src t => (exportMain_describes codec hour tables env src t).sameTree_iff
      (exportMain_chain codec ⟨hour, tables, true⟩ env src t)⟩

/-- A check of an empty tree writes the one shard of the hour, with and without the command. -/
theorem check_writes_missing_shard :
    let src := newsSource [(tenOClock.index * microsPerHour, some "005930")]
    let args : ExportArgs := ⟨.ok tenOClock.toDatetime, "news", true⟩
    ¬ SameTree ∅ (Tree.after ∅
        (exportHourShard plainCodec .check calmEnv "news" tenOClock.toDatetime src ∅).2) ∧
      ¬ SameTree ∅ (Tree.after ∅ (exportMain plainCodec args calmMainEnv src ∅).2) := by
  intro src args
  let path := shardPath (partitionDir .news tenOClock.date tenOClock.hour) "005930"
  constructor
  · intro hsame
    have hnone := hsame path
    rw [AList.lookup_empty] at hnone
    exact absurd hnone (by decide)
  · intro hsame
    have hnone := hsame path
    rw [AList.lookup_empty] at hnone
    exact absurd hnone (by decide)

end Athena
