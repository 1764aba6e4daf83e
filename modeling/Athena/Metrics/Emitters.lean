import Athena.Library.ReadReplace
import Athena.Metrics.MountMetric

/-!
# Concurrent emitters

An emitter reads the output file, and later replaces it by a file of its own
process. What runs in between is lost unless it is on the chain of runs that
led to the last replacement: the gauges hold the latest success on that chain.
-/

namespace Athena

open ReadReplace

section Latest

variable {ι : Type*} {success : ι → Option Int}

/-- If some run has succeeded, the value is the timestamp of one, and no other has a later one. -/
def LosesNone (success : ι → Option Int) (value : Int) : Prop :=
  (∃ i n, success i = some n) →
    (∃ i, success i = some value) ∧ ∀ i n, success i = some n → n ≤ value

/-- If some run has succeeded, one on the chain has, and no run has a later timestamp than the
newest of these. -/
def ChainHoldsLatest (success : ι → Option Int) (chain : List ι) : Prop :=
  (∃ i n, success i = some n) →
    ∃ n, (chain.filterMap success).getLast? = some n ∧ ∀ i m, success i = some m → m ≤ n

theorem losesNone_iff (hpos : ∀ i n, success i = some n → 0 < n) (chain : List ι) :
    LosesNone success ((chain.filterMap success).getLast?.getD 0) ↔
      ChainHoldsLatest success chain := by
  cases hlast : (chain.filterMap success).getLast? with
  | none =>
    constructor
    · intro h hsome
      obtain ⟨⟨i, hi⟩, -⟩ := h hsome
      exact absurd (hpos i _ hi) (by simp)
    · intro h hsome
      obtain ⟨n, hn, -⟩ := h hsome
      rw [hlast] at hn
      cases hn
  | some n =>
    obtain ⟨i, -, hi⟩ := List.mem_filterMap.mp (List.mem_of_getLast? hlast)
    constructor
    · intro h hsome
      exact ⟨n, hlast, (h hsome).2⟩
    · intro h hsome
      obtain ⟨m, hm, hmax⟩ := h hsome
      rw [hlast] at hm
      cases hm
      exact ⟨⟨i, hi⟩, hmax⟩

end Latest

section Interleaved

variable {ι α ε : Type*} {emit : Option (List Char) → α → Except ε (List Char)} {runs : ι → α}

def replacement (emit : Option (List Char) → α → Except ε (List Char)) (e : α)
    (output : Option (List Char)) : Option (Option (List Char)) :=
  ((emit output e).map some).toOption

/-- The output file after interleaved emitters, if there was none at first. -/
def concurrentBy [DecidableEq ι] (emit : Option (List Char) → α → Except ε (List Char))
    (runs : ι → α) (es : List (Event ι)) : Option (List Char) :=
  (run (fun i => replacement emit (runs i)) (State.start none) es).value

theorem chained_eq (chain : List ι) :
    chained (fun i => replacement emit (runs i)) none chain =
      (emittedBy emit (chain.map runs)).toOption := by
  induction chain using List.reverseRecOn with
  | nil => rfl
  | append_singleton chain i ih =>
    rw [chained_append, ih, List.map_append, List.map_singleton, emittedBy_append]
    cases emittedBy emit (chain.map runs) <;> rfl

variable [DecidableEq ι] {Good : Option (List Char) → Prop}

/-- The file is the one that the runs of its lineage leave, one after the other. -/
theorem emittedBy_lineage (hnone : Good none)
    (hstep : ∀ i output, Good output → ∃ text, emit output (runs i) = .ok text ∧ Good (some text))
    (es : List (Event ι)) :
    emittedBy emit ((lineage es).map runs) = .ok (concurrentBy emit runs es) := by
  have hwrite : ∀ (i : ι) (output : Option (List Char)), Good output →
      ∃ output', replacement emit (runs i) output = some output' ∧ Good output' := by
    intro i output hgood
    obtain ⟨text, htext, hgood'⟩ := hstep i output hgood
    exact ⟨some text, by rw [replacement, htext]; rfl, hgood'⟩
  have hrun := run_value hnone hwrite es
  rw [chained_eq] at hrun
  cases hemitted : emittedBy emit ((lineage es).map runs) with
  | error err => rw [hemitted] at hrun; cases hrun
  | ok output =>
    rw [hemitted] at hrun
    exact congrArg Except.ok (Option.some.inj hrun)

theorem concurrentBy_isSome (hnone : Good none)
    (hstep : ∀ i output, Good output → ∃ text, emit output (runs i) = .ok text ∧ Good (some text))
    {es : List (Event ι)} (hes : Interleaving es) (i : ι) :
    (concurrentBy emit runs es).isSome := by
  have hlineage := emittedBy_lineage hnone hstep es
  obtain ⟨chain, j, hchain⟩ :=
    (List.eq_nil_or_concat' (lineage es)).resolve_left (lineage_ne_nil hes i)
  rw [hchain, List.map_append, List.map_singleton] at hlineage
  exact emittedBy_append_isSome hlineage

end Interleaved

namespace LoggerSync

def Emission.success (e : Emission) : Option Int := if e.Succeeded then some e.nowUnix else none

theorem Emission.success_pos {e : Emission} (he : e.Valid) {n : Int} (h : e.success = some n) :
    0 < n := by
  unfold success at h
  split_ifs at h
  cases h
  have := he.2.1
  omega

theorem lastSuccess_eq (es : List Emission) :
    lastSuccess es = (es.filterMap Emission.success).getLast?.getD 0 := by
  induction es using List.reverseRecOn with
  | nil => rfl
  | append_singleton es e ih =>
    rw [lastSuccess_append, ih]
    by_cases h : e.Succeeded <;> simp [Emission.success, h]

/-- The last success of the file can be read, and read again by every later run. -/
def Readable (output : Option (List Char)) : Prop :=
  ∃ n, readPrevLastSuccess output = .ok n ∧ 0 ≤ n ∧ n ≤ 2 ^ 53

theorem readable_none : Readable none := ⟨0, rfl, le_rfl, by decide⟩

theorem main_readable {e : Emission} (he : e.Valid) {output : Option (List Char)}
    (h : Readable output) : ∃ text, main output e = .ok text ∧ Readable (some text) := by
  obtain ⟨n, hread, hn⟩ := h
  obtain ⟨code, -, hmain⟩ := main_eq he hread
  have hclock := he.2
  have hbounds : 0 ≤ (if e.Succeeded then e.nowUnix else n) ∧
      (if e.Succeeded then e.nowUnix else n) ≤ 2 ^ 53 := by
    split_ifs <;> omega
  exact ⟨_, hmain, _, readPrevLastSuccess_renderBody code e.duration hbounds, hbounds⟩

variable {ι : Type*} [DecidableEq ι] {runs : ι → Emission}

/-- The output file after interleaved runs. -/
def concurrent (runs : ι → Emission) (es : List (Event ι)) : Option (List Char) :=
  concurrentBy main runs es

theorem readPrevLastSuccess_concurrent (h : ∀ i, (runs i).Valid) (es : List (Event ι)) :
    readPrevLastSuccess (concurrent runs es) =
      .ok (((lineage es).filterMap fun i => (runs i).success).getLast?.getD 0) := by
  have hlineage := emittedBy_lineage readable_none (fun i _ => main_readable (h i)) es
  have hvalid : ∀ e ∈ (lineage es).map runs, e.Valid := by
    intro e he
    obtain ⟨i, -, rfl⟩ := List.mem_map.mp he
    exact h i
  obtain ⟨output, houtput, hread⟩ := emitted_readable hvalid
  cases hlineage.symm.trans houtput
  rw [concurrent, hread, lastSuccess_eq, List.filterMap_map]
  rfl

end LoggerSync

namespace MountMetric

/-- Both last successes of the file can be read, and read again by every later call. -/
def Readable (output : Option (List Char)) : Prop :=
  ∃ lock unlock, readPrevTimestamp output lastLockSuccess = .ok lock ∧
    readPrevTimestamp output lastUnlockSuccess = .ok unlock ∧
    (0 ≤ lock ∧ lock ≤ 2 ^ 53) ∧ (0 ≤ unlock ∧ unlock ≤ 2 ^ 53)

theorem readable_none : Readable none :=
  ⟨0, 0, rfl, rfl, ⟨le_rfl, by decide⟩, ⟨le_rfl, by decide⟩⟩

theorem getD_bounds {e : Emission} (he : e.Valid) (action : String) {prev : Int}
    (hprev : 0 ≤ prev ∧ prev ≤ 2 ^ 53) :
    0 ≤ (e.success action).getD prev ∧ (e.success action).getD prev ≤ 2 ^ 53 := by
  cases hsuccess : e.success action with
  | none => exact hprev
  | some n =>
    obtain ⟨hpos, hle⟩ := Emission.success_bounds he hsuccess
    exact ⟨hpos.le, hle⟩

theorem emit_readable {e : Emission} (he : e.Valid) {output : Option (List Char)}
    (h : Readable output) : ∃ text, emit output e = .ok text ∧ Readable (some text) := by
  obtain ⟨lock, unlock, hlock, hunlock, hlockBounds, hunlockBounds⟩ := h
  obtain ⟨transition, hemit⟩ := emit_eq he hlock hunlock
  have hlock' := getD_bounds he "lock" hlockBounds
  have hunlock' := getD_bounds he "unlock" hunlockBounds
  exact ⟨_, hemit, _, _,
    readPrevTimestamp_lock e.state transition _ (abs_le.mpr ⟨by omega, hlock'.2⟩),
    readPrevTimestamp_unlock e.state transition _ (abs_le.mpr ⟨by omega, hunlock'.2⟩),
    hlock', hunlock'⟩

variable {ι : Type*} [DecidableEq ι] {runs : ι → Emission}

/-- The output file after interleaved calls. -/
def concurrent (runs : ι → Emission) (es : List (Event ι)) : Option (List Char) :=
  concurrentBy emit runs es

theorem readPrevTimestamp_concurrent (h : ∀ i, (runs i).Valid) (es : List (Event ι)) :
    readPrevTimestamp (concurrent runs es) lastLockSuccess =
        .ok (((lineage es).filterMap fun i => (runs i).success "lock").getLast?.getD 0) ∧
      readPrevTimestamp (concurrent runs es) lastUnlockSuccess =
        .ok (((lineage es).filterMap fun i => (runs i).success "unlock").getLast?.getD 0) := by
  have hlineage := emittedBy_lineage readable_none (fun i _ => emit_readable (h i)) es
  have hvalid : ∀ e ∈ (lineage es).map runs, e.Valid := by
    intro e he
    obtain ⟨i, -, rfl⟩ := List.mem_map.mp he
    exact h i
  obtain ⟨output, houtput, hlock, hunlock⟩ := emitted_readable hvalid
  cases hlineage.symm.trans houtput
  rw [concurrent, hlock, hunlock, lastSuccess, lastSuccess, List.filterMap_map, List.filterMap_map]
  exact ⟨rfl, rfl⟩

end MountMetric

/-- After any interleaving of emitters, the file holds a last success for each action. It is the
timestamp of a successful run, and not older than that of any, exactly when the newest success on
the chain of runs that led to the last replacement is the latest of all. -/
theorem concurrent_emitters {n : ℕ} {es : List (Event (Fin n))} (hes : Interleaving es) :
    (∀ runs : Fin n → LoggerSync.Emission, (∀ i, (runs i).Valid) →
      (0 < n → (LoggerSync.concurrent runs es).isSome) ∧
      ∃ value, LoggerSync.readPrevLastSuccess (LoggerSync.concurrent runs es) = .ok value ∧
        (LosesNone (fun i => (runs i).success) value ↔
          ChainHoldsLatest (fun i => (runs i).success) (lineage es))) ∧
    (∀ runs : Fin n → MountMetric.Emission, (∀ i, (runs i).Valid) →
      (0 < n → (MountMetric.concurrent runs es).isSome) ∧
      ∃ lock unlock,
        MountMetric.readPrevTimestamp (MountMetric.concurrent runs es)
          MountMetric.lastLockSuccess = .ok lock ∧
        MountMetric.readPrevTimestamp (MountMetric.concurrent runs es)
          MountMetric.lastUnlockSuccess = .ok unlock ∧
        (LosesNone (fun i => (runs i).success "lock") lock ↔
          ChainHoldsLatest (fun i => (runs i).success "lock") (lineage es)) ∧
        (LosesNone (fun i => (runs i).success "unlock") unlock ↔
          ChainHoldsLatest (fun i => (runs i).success "unlock") (lineage es))) := by
  constructor
  · intro runs h
    refine ⟨fun hn => concurrentBy_isSome LoggerSync.readable_none
      (fun i _ => LoggerSync.main_readable (h i)) hes ⟨0, hn⟩, _,
      LoggerSync.readPrevLastSuccess_concurrent h es, ?_⟩
    exact losesNone_iff (fun i _ hi => LoggerSync.Emission.success_pos (h i) hi) (lineage es)
  · intro runs h
    obtain ⟨hlock, hunlock⟩ := MountMetric.readPrevTimestamp_concurrent h es
    refine ⟨fun hn => concurrentBy_isSome MountMetric.readable_none
      (fun i _ => MountMetric.emit_readable (h i)) hes ⟨0, hn⟩, _, _, hlock, hunlock, ?_, ?_⟩
    · exact losesNone_iff (fun i _ hi => (MountMetric.Emission.success_bounds (h i) hi).1) _
    · exact losesNone_iff (fun i _ hi => (MountMetric.Emission.success_bounds (h i) hi).1) _

section Schedules

def twoRuns : Fin 2 → LoggerSync.Emission :=
  ![⟨"12", .nan, 1714000000⟩, ⟨"0", .nan, 1714000001⟩]

theorem twoRuns_valid (i : Fin 2) : (twoRuns i).Valid := by
  fin_cases i <;> decide

/-- The failing run is over before the other one starts. -/
theorem concurrent_emitters_serial :
    ∃ value, LoggerSync.readPrevLastSuccess
        (LoggerSync.concurrent twoRuns [.read 0, .replace 0, .read 1, .replace 1]) = .ok value ∧
      (LosesNone (fun i => (twoRuns i).success) value ↔
        ChainHoldsLatest (fun i => (twoRuns i).success)
          (lineage [.read 0, .replace 0, .read 1, .replace 1])) := by
  refine ((concurrent_emitters ⟨by decide, fun i => ?_⟩).1 twoRuns twoRuns_valid).2
  fin_cases i
  · exact ⟨[], [], _, rfl⟩
  · exact ⟨[.read 0, .replace 0], [], [], rfl⟩

/-- The failing run has read before the successful one replaces, and replaces after it: the
success is gone from the file. -/
theorem success_lost :
    Interleaving [.read 0, .read 1, .replace 1, .replace (0 : Fin 2)] ∧
      (twoRuns 1).success = some 1714000001 ∧
      LoggerSync.readPrevLastSuccess
        (LoggerSync.concurrent twoRuns [.read 0, .read 1, .replace 1, .replace 0]) = .ok 0 ∧
      ¬ LosesNone (fun i => (twoRuns i).success) 0 := by
  have hsuccess : (twoRuns 1).success = some 1714000001 := by decide
  refine ⟨⟨by decide, fun i => ?_⟩, hsuccess, ?_, fun h => ?_⟩
  · fin_cases i
    · exact ⟨[], [.read 1, .replace 1], [], rfl⟩
    · exact ⟨[.read 0], [], [.replace 0], rfl⟩
  · rw [LoggerSync.readPrevLastSuccess_concurrent twoRuns_valid]
    decide
  · exact absurd ((h ⟨1, _, hsuccess⟩).2 1 _ hsuccess) (by decide)

end Schedules

end Athena
