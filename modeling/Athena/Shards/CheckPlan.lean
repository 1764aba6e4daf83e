import Athena.Shards.ExportMain
import Athena.Shards.Runs

/-!
# What a check does

Both modes share one loop, and its branch for a missing shard does not ask for
the mode. A `CheckPlan` is read off the inputs: the missing shards that a check
comes to, and whether it gets through if all of them can be written.
-/

namespace Athena

variable {β : Type}

/-- A shard that is not there, with all that its write depends on. -/
structure MissingShard (β : Type) where
  dir : Path
  part : String
  pid : ℕ
  frame : Frame
  env : WriteEnv β

namespace MissingShard

def tmpFile (m : MissingShard β) : Path := tmpPath m.dir m.part m.pid

def outFile (m : MissingShard β) : Path := shardPath m.dir m.part

def write (codec : ParquetCodec β) (m : MissingShard β) (t : Tree β) :
    Except ShardError ℕ × List (Tree β) :=
  writeShard codec m.env m.tmpFile m.outFile m.frame t

end MissingShard

structure CheckPlan (β : Type) where
  missing : List (MissingShard β)
  completes : Bool

namespace CheckPlan

/-- The second plan after the first, unless that one stops. -/
def andThen (p q : CheckPlan β) : CheckPlan β :=
  if p.completes then ⟨p.missing ++ q.missing, q.completes⟩ else p

/-- The check gets through, writing what is missing. -/
def Succeeds (p : CheckPlan β) : Prop :=
  p.completes = true ∧ ∀ m ∈ p.missing, m.env.fault = none

instance (p : CheckPlan β) : Decidable p.Succeeds := inferInstanceAs (Decidable (_ ∧ _))

theorem succeeds_andThen {p q : CheckPlan β} :
    (p.andThen q).Succeeds ↔ p.Succeeds ∧ q.Succeeds := by
  unfold andThen Succeeds
  by_cases hp : p.completes = true
  · rw [if_pos hp]
    simp only [hp, true_and, List.mem_append, or_imp, forall_and]
    tauto
  · rw [if_neg hp]
    simp [hp]

/-- The plan describes an execution from a tree: whether it succeeds, and its trace up to the
first write. -/
structure Describes (codec : ParquetCodec β) (p : CheckPlan β) (t : Tree β) (ok : Prop)
    (trace : List (Tree β)) : Prop where
  ok_iff : ok ↔ p.Succeeds
  idle : p.missing = [] → trace = []
  first : ∀ m rest, p.missing = m :: rest → t.lookup m.outFile = none ∧
    ∃ later, trace = (m.write codec t).2 ++ later ∧ (m.env.fault ≠ none → later = [])

end CheckPlan

namespace CheckPlan.Describes

theorem stop (codec : ParquetCodec β) (t : Tree β) :
    (⟨[], false⟩ : CheckPlan β).Describes codec t False [] :=
  ⟨by simp [Succeeds], fun _ => rfl, fun _ _ h => nomatch h⟩

theorem nothing (codec : ParquetCodec β) (t : Tree β) :
    (⟨[], true⟩ : CheckPlan β).Describes codec t True [] :=
  ⟨by simp [Succeeds], fun _ => rfl, fun _ _ h => nomatch h⟩

variable {codec : ParquetCodec β} {p q : CheckPlan β} {t : Tree β} {trace trace' : List (Tree β)}

theorem stopped (hp : p.Describes codec t False trace) :
    (p.andThen q).Describes codec t False trace := by
  have hfails : ¬ p.Succeeds := hp.ok_iff.mpr
  cases hmissing : p.missing with
  | nil =>
    have hstops : ¬ p.completes = true := fun h => hfails ⟨h, by simp [hmissing]⟩
    rw [andThen, if_neg hstops]
    exact hp
  | cons m tail =>
    have hhead : ∃ rest, (p.andThen q).missing = m :: rest := by
      unfold andThen
      split_ifs
      · exact ⟨tail ++ q.missing, by rw [hmissing, List.cons_append]⟩
      · exact ⟨tail, hmissing⟩
    obtain ⟨rest, hrest⟩ := hhead
    refine ⟨⟨False.elim, fun h => hfails (succeeds_andThen.mp h).1⟩, fun hnil => ?_,
      fun m' rest' hm => ?_⟩
    · rw [hrest] at hnil
      cases hnil
    · obtain rfl : m = m' := (List.cons.inj (hrest.symm.trans hm)).1
      exact hp.first m tail hmissing

theorem continued {ok : Prop} (hp : p.Describes codec t True trace)
    (hq : q.Describes codec (t.after trace) ok trace') :
    (p.andThen q).Describes codec t ok (trace ++ trace') := by
  have hsucceeds : p.Succeeds := hp.ok_iff.mp trivial
  have hmissing : (p.andThen q).missing = p.missing ++ q.missing := by
    rw [andThen, if_pos hsucceeds.1]
  refine ⟨?_, fun hnil => ?_, fun m rest hm => ?_⟩
  · rw [succeeds_andThen, hq.ok_iff]
    exact ⟨fun h => ⟨hsucceeds, h⟩, And.right⟩
  · obtain ⟨hpnil, hqnil⟩ := List.append_eq_nil_iff.mp (hmissing.symm.trans hnil)
    rw [hp.idle hpnil, hq.idle hqnil, List.append_nil]
  · rw [hmissing] at hm
    cases hcase : p.missing with
    | nil =>
      rw [hcase, List.nil_append] at hm
      have hidle := hp.idle hcase
      subst hidle
      exact hq.first m rest hm
    | cons m' tail =>
      rw [hcase, List.cons_append] at hm
      obtain rfl := (List.cons.inj hm).1
      obtain ⟨hfree, later, htrace, -⟩ := hp.first m' tail hcase
      refine ⟨hfree, later ++ trace', by rw [htrace, List.append_assoc], fun hfault => ?_⟩
      exact absurd (hsucceeds.2 m' (by simp [hcase])) hfault

end CheckPlan.Describes

theorem CheckPlan.Describes.followed {codec : ParquetCodec β} {p q : CheckPlan β} {t : Tree β}
    {α γ : Type} {out : Except ShardError α × List (Tree β)}
    {rest : α → Except ShardError γ × List (Tree β)}
    (hp : p.Describes codec t (∃ a, out.1 = .ok a) out.2)
    (hq : ∀ a, out.1 = .ok a →
      q.Describes codec (t.after out.2) (∃ c, (rest a).1 = .ok c) (rest a).2) :
    (p.andThen q).Describes codec t (∃ c, (followed out rest).1 = .ok c)
      (followed out rest).2 := by
  obtain ⟨result, trace⟩ := out
  cases result with
  | error e =>
    have hfalse : ∀ {δ : Type}, (∃ a : δ, Except.error e = Except.ok a) = False := by simp
    simp only [Athena.followed, hfalse] at hp ⊢
    exact hp.stopped
  | ok a =>
    have htrue : (∃ a' : α, (Except.ok a : Except ShardError α) = .ok a') = True := by simp
    simp only [htrue] at hp
    exact hp.continued (hq a rfl)

section Symbols

variable (codec : ParquetCodec β) (env : ExportEnv β) (table : Table) (dir : Path) (df : Frame)

def Matches (t : Tree β) (sym : Option String) : Prop :=
  ∃ part content, partSym sym = .ok part ∧ t.lookup (shardPath dir part) = some content ∧
    (codec.read content).any (fun existing => existing.dataEquals (table.withSymbol df sym)) = true

/-- The check of one symbol. -/
def planSymbol (t : Tree β) (i : ℕ) (sym : Option String) : CheckPlan β :=
  match partSym sym with
  | .error _ => ⟨[], false⟩
  | .ok part =>
    match t.lookup (shardPath dir part) with
    | none => ⟨[⟨dir, part, env.pid, table.withSymbol df sym, env.writes i⟩], true⟩
    | some content =>
      ⟨[], (codec.read content).any fun existing => existing.dataEquals (table.withSymbol df sym)⟩

/-- The check of the symbols of one table. -/
def planSymbols (t : Tree β) : ℕ → List (Option String) → CheckPlan β
  | _, [] => ⟨[], true⟩
  | i, sym :: syms =>
    (planSymbol codec env table dir df t i sym).andThen (planSymbols t (i + 1) syms)

theorem planSymbols_congr {t t' : Tree β} {i : ℕ} {syms : List (Option String)}
    (h : ∀ sym ∈ syms, ∀ part, partSym sym = .ok part →
      t'.lookup (shardPath dir part) = t.lookup (shardPath dir part)) :
    planSymbols codec env table dir df t' i syms = planSymbols codec env table dir df t i syms := by
  induction syms generalizing i with
  | nil => rfl
  | cons sym syms ih =>
    have hfirst : planSymbol codec env table dir df t' i sym =
        planSymbol codec env table dir df t i sym := by
      unfold planSymbol
      cases hpart : partSym sym with
      | error e => rfl
      | ok part =>
        dsimp only
        rw [h sym List.mem_cons_self part hpart]
    rw [planSymbols, planSymbols, hfirst, ih fun s hs => h s (List.mem_cons_of_mem sym hs)]

theorem planSymbols_of_matches {t : Tree β} {i : ℕ} {syms : List (Option String)}
    (h : ∀ sym ∈ syms, Matches codec table dir df t sym) :
    planSymbols codec env table dir df t i syms = ⟨[], true⟩ := by
  induction syms generalizing i with
  | nil => rfl
  | cons sym syms ih =>
    obtain ⟨part, content, hpart, hlookup, hmatch⟩ := h sym List.mem_cons_self
    have hfirst : planSymbol codec env table dir df t i sym = ⟨[], true⟩ := by
      unfold planSymbol
      rw [hpart]
      dsimp only
      rw [hlookup]
      dsimp only
      rw [hmatch]
    rw [planSymbols, hfirst, ih fun s hs => h s (List.mem_cons_of_mem sym hs)]
    rfl

end Symbols

section Tables

variable (codec : ParquetCodec β) (hour : Datetime) (src : Source)

/-- The check of the hour of one table. -/
def planHour (env : ExportEnv β) (name : String) (t : Tree β) : CheckPlan β :=
  match Table.ofName? name, exportWindow hour, env.queryFails with
  | some table, .ok (lo, hi), none =>
    let df := table.queryWindow src lo hi
    planSymbols codec env table (partitionDir table hour.date hour.hour) df t 0
      (table.uniqueSymbols df)
  | _, _, _ => ⟨[], false⟩

/-- The check of the listed tables. A table that is listed again has nothing missing any more. -/
def planTables (env : ℕ → ExportEnv β) (t : Tree β) : List String → ℕ → List String → CheckPlan β
  | _, _, [] => ⟨[], true⟩
  | done, i, name :: names =>
    (if name ∈ done then ⟨[], (env i).queryFails.isNone⟩ else
      planHour codec hour src (env i) name t).andThen
      (planTables env t (name :: done) (i + 1) names)

/-- The check of a run of the command. -/
def checkPlan (args : ExportArgs) (env : ExportMainEnv β) (t : Tree β) : CheckPlan β :=
  match args.hour, invalidTables args.tableList, env.openFails with
  | .ok hour, [], none => planTables codec hour src env.exports t [] 0 args.tableList
  | _, _, _ => ⟨[], false⟩

end Tables

end Athena
