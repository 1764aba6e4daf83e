import Athena.Mount.ReadonlyMount

/-!
# What a transition records and leaves behind

The loop of `_transition` records every failure and never raises. The two
status reads around it are outside its handler, so a transition returns exactly
when none of their probes fails.
-/

namespace Athena

namespace ReadonlyMountController

variable (x : ChattrExecutor) (target : Bool)

/-- The fault of the `chattr` call that moves the flag to the target. -/
def chattrFault (p : PurePosixPath) :
    Option (PyException × Bool) :=
  if target then x.setFault p else x.clearFault p

/-- The probe of a path, made as the k-th one, raises, or the `chattr` call that its
flag makes necessary does. -/
def Fails (immutable : PurePosixPath → Bool) (k : ℕ)
    (p : PurePosixPath) : Prop :=
  x.probeFault k p ≠ none ∨ (immutable p ≠ target ∧ chattrFault x target p ≠ none)

theorem countImmutable_spec (ps : List PurePosixPath) (h : Host) :
    ((∃ n, (countImmutable x ps h).1 = .ok n) ↔
      ∀ i (hi : i < ps.length), x.probeFault (h.probes + i) ps[i] = none) ∧
    (countImmutable x ps h).2.immutable = h.immutable ∧
    ((∃ n, (countImmutable x ps h).1 = .ok n) →
      (countImmutable x ps h).2.probes = h.probes + ps.length) := by
  induction ps generalizing h with
  | nil => simp [countImmutable]
  | cons p ps ih =>
    have hindex :
        (∀ i (hi : i < (p :: ps).length), x.probeFault (h.probes + i) (p :: ps)[i] = none) ↔
        x.probeFault h.probes p = none ∧
          ∀ i (hi : i < ps.length), x.probeFault (h.probes + 1 + i) ps[i] = none := by
      constructor
      · intro hall
        refine ⟨hall 0 (by simp), fun i hi => ?_⟩
        have := hall (i + 1) (by simpa using hi)
        rwa [show h.probes + (i + 1) = h.probes + 1 + i by omega] at this
      · rintro ⟨hhead, htail⟩ i hi
        cases i with
        | zero => exact hhead
        | succ i =>
          have := htail i (by simpa using hi)
          rwa [show h.probes + 1 + i = h.probes + (i + 1) by omega] at this
    rw [hindex]
    cases hp : x.probeFault h.probes p with
    | some e => simp [countImmutable, ChattrExecutor.isImmutable, hp]
    | none =>
      have hrest := ih { h with probes := h.probes + 1 }
      simp only [countImmutable, ChattrExecutor.isImmutable, hp, true_and]
      generalize countImmutable x ps { h with probes := h.probes + 1 } = out at hrest
      obtain ⟨result, h'⟩ := out
      cases result with
      | error e => simpa using hrest
      | ok n =>
        simp only [Except.ok.injEq, exists_eq', true_iff, forall_const, List.length_cons] at hrest ⊢
        exact ⟨hrest.1, hrest.2.1, by omega⟩

/-- One `try` block: it raises exactly on a failure, touches no other flag, and leaves
its own flag at the target unless it raises. -/
theorem attempt_spec (p : PurePosixPath) (h : Host) :
    ((∃ e, (attempt x target p h).1 = .error e) ↔ Fails x target h.immutable h.probes p) ∧
    (∀ r, (attempt x target p h).1 = .ok r →
      r ≠ .error ∧ (attempt x target p h).2.immutable p = target) ∧
    (∀ q ≠ p, (attempt x target p h).2.immutable q = h.immutable q) ∧
    (attempt x target p h).2.probes = h.probes + 1 := by
  unfold attempt Fails chattrFault ChattrExecutor.isImmutable
  cases hp : x.probeFault h.probes p with
  | some e => simp
  | none =>
    by_cases hflag : h.immutable p = target
    · simp [hflag]
    · cases target with
      | true =>
        cases hset : x.setFault p with
        | none => simp +contextual [hflag, hset, ChattrExecutor.setImmutable, ChattrExecutor.chattr]
        | some fault =>
          simp +contextual [hflag, hset, ChattrExecutor.setImmutable, ChattrExecutor.chattr]
      | false =>
        cases hclear : x.clearFault p with
        | none =>
          simp +contextual [hflag, hclear, ChattrExecutor.clearImmutable, ChattrExecutor.chattr]
        | some fault =>
          simp +contextual [hflag, hclear, ChattrExecutor.clearImmutable, ChattrExecutor.chattr]

/-- A `chattr` call towards the target leaves the flag there, whether it raises or not. -/
def ReachesTarget (p : PurePosixPath) : Prop :=
  ∀ fault ∈ chattrFault x target p, fault.2 = target

theorem attempt_flag (p : PurePosixPath) (h : Host) :
    (attempt x target p h).2.immutable p = target ↔
      h.immutable p = target ∨
        (x.probeFault h.probes p = none ∧ ReachesTarget x target p) := by
  unfold attempt ChattrExecutor.isImmutable
  cases hp : x.probeFault h.probes p with
  | some e => simp
  | none =>
    by_cases hflag : h.immutable p = target
    · simp [hflag]
    · cases target with
      | true =>
        cases hset : x.setFault p <;>
          simp [hflag, hset, ReachesTarget, chattrFault, ChattrExecutor.setImmutable,
            ChattrExecutor.chattr]
      | false =>
        cases hclear : x.clearFault p <;>
          simp [hflag, hclear, ReachesTarget, chattrFault, ChattrExecutor.clearImmutable,
            ChattrExecutor.chattr]

theorem cycle_host (s : Progress) (p : PurePosixPath) :
    (cycle x target s p).host = (attempt x target p s.host).2 := by
  unfold cycle
  generalize attempt x target p s.host = out
  obtain ⟨result, h⟩ := out
  cases result <;> rfl

theorem foldl_cycle_frame (ps : List PurePosixPath) (s : Progress) {p : PurePosixPath}
    (hp : p ∉ ps) :
    (ps.foldl (cycle x target) s).host.immutable p = s.host.immutable p := by
  induction ps generalizing s with
  | nil => rfl
  | cons q ps ih =>
    rw [List.mem_cons, not_or] at hp
    rw [List.foldl_cons, ih _ hp.2, cycle_host]
    exact (attempt_spec x target q s.host).2.2.1 p hp.1

/-- The flags after the loop. A path is touched in its own round only, which finds its
flag as it was and makes the probe of that number. -/
theorem foldl_cycle_flag (ps : List PurePosixPath) (hd : ps.Nodup) (s : Progress) (i : ℕ)
    (hi : i < ps.length) :
    (ps.foldl (cycle x target) s).host.immutable ps[i] = target ↔
      s.host.immutable ps[i] = target ∨
        (x.probeFault (s.host.probes + i) ps[i] = none ∧ ReachesTarget x target ps[i]) := by
  induction ps generalizing s i with
  | nil => simp at hi
  | cons p ps ih =>
    obtain ⟨hp, hd'⟩ := List.nodup_cons.mp hd
    rw [List.foldl_cons]
    cases i with
    | zero =>
      rw [List.getElem_cons_zero, foldl_cycle_frame x target ps _ hp, cycle_host]
      exact attempt_flag x target p s.host
    | succ i =>
      have hi' : i < ps.length := by simpa using hi
      have hne : ps[i] ≠ p := fun heq => hp (heq ▸ List.getElem_mem hi')
      obtain ⟨-, -, hother, hprobes⟩ := attempt_spec x target p s.host
      have hrest := ih hd' (cycle x target s p) i hi'
      rw [cycle_host, hother _ hne, hprobes] at hrest
      rwa [List.getElem_cons_succ, show s.host.probes + (i + 1) = s.host.probes + 1 + i by omega]

theorem foldl_cycle_probes (ps : List PurePosixPath) (s : Progress) :
    (ps.foldl (cycle x target) s).host.probes = s.host.probes + ps.length := by
  induction ps generalizing s with
  | nil => rfl
  | cons p ps ih =>
    rw [List.foldl_cons, ih, cycle_host, (attempt_spec x target p s.host).2.2.2, List.length_cons]
    omega

theorem reachesTarget_of_not_fails {immutable : PurePosixPath → Bool} {k : ℕ} {p : PurePosixPath}
    (h : ¬ Fails x target immutable k p) :
    immutable p = target ∨ (x.probeFault k p = none ∧ ReachesTarget x target p) := by
  rw [Fails, not_or, not_and, not_not, not_not] at h
  obtain ⟨hprobe, hchattr⟩ := h
  by_cases hflag : immutable p = target
  · exact .inl hflag
  · refine .inr ⟨hprobe, ?_⟩
    intro fault hfault
    rw [hchattr hflag] at hfault
    cases hfault

/-- One round: the record of the path, and the records of the other paths. -/
theorem cycle_spec (s : Progress) {p : PurePosixPath} (hfresh : p ∉ s.perFile.map Prod.fst) :
    ((cycle x target s p).perFile.lookup p = some .error ↔
      Fails x target s.host.immutable s.host.probes p) ∧
    (cycle x target s p).perFile.map Prod.fst = s.perFile.map Prod.fst ++ [p] ∧
    ∀ q ≠ p, (cycle x target s p).perFile.lookup q = s.perFile.lookup q := by
  obtain ⟨hfail, hok, -⟩ := attempt_spec x target p s.host
  have hother : ∀ q ≠ p, ∀ r, (dictSet s.perFile p r).lookup q = s.perFile.lookup q := by
    intro q hq r
    have hbeq : (q == p) = false := by simpa using hq
    simp [dictSet, hfresh, List.lookup_append, List.lookup_cons, hbeq]
  unfold cycle
  generalize attempt x target p s.host = out at *
  obtain ⟨result, h⟩ := out
  cases result with
  | ok r =>
    have hno : ¬ Fails x target s.host.immutable s.host.probes p := fun hf => by
      simpa using hfail.mpr hf
    refine ⟨?_, by simp [dictSet, hfresh], fun q hq => hother q hq r⟩
    rw [lookup_dictSet_self hfresh, Option.some.injEq]
    exact iff_of_false (hok r rfl).1 hno
  | error e =>
    have hyes : Fails x target s.host.immutable s.host.probes p := hfail.mp ⟨e, rfl⟩
    refine ⟨?_, by simp [dictSet, hfresh], fun q hq => hother q hq _⟩
    rw [lookup_dictSet_self hfresh]
    exact iff_of_true rfl hyes

/-- The records of the loop over the remaining paths, by induction on them. The record of a
path is made in its own round, and its flag is until then as it was. -/
theorem foldl_cycle_spec (ps : List PurePosixPath) (hd : ps.Nodup) (s : Progress)
    (hfresh : ∀ p ∈ ps, p ∉ s.perFile.map Prod.fst) :
    (∀ i (hi : i < ps.length),
      (ps.foldl (cycle x target) s).perFile.lookup ps[i] = some .error ↔
        Fails x target s.host.immutable (s.host.probes + i) ps[i]) ∧
    (ps.foldl (cycle x target) s).perFile.map Prod.fst = s.perFile.map Prod.fst ++ ps ∧
    ∀ q ∉ ps, (ps.foldl (cycle x target) s).perFile.lookup q = s.perFile.lookup q := by
  induction ps generalizing s with
  | nil => simp
  | cons p ps ih =>
    obtain ⟨hp, hd'⟩ := List.nodup_cons.mp hd
    obtain ⟨hrec, hkeys, hother⟩ := cycle_spec x target s (hfresh p (by simp))
    obtain ⟨-, -, hframe, hprobes⟩ := attempt_spec x target p s.host
    have hfresh' : ∀ q ∈ ps, q ∉ (cycle x target s p).perFile.map Prod.fst := by
      intro q hq hmem
      rw [hkeys] at hmem
      rcases List.mem_append.mp hmem with hmem | hmem
      · exact hfresh q (by simp [hq]) hmem
      · exact hp (List.mem_singleton.mp hmem ▸ hq)
    obtain ⟨hrest, hkeys', hother'⟩ := ih hd' (cycle x target s p) hfresh'
    rw [List.foldl_cons]
    refine ⟨fun i hi => ?_, by rw [hkeys', hkeys]; simp, fun q hq => ?_⟩
    · cases i with
      | zero =>
        rw [List.getElem_cons_zero, hother' p hp]
        exact hrec
      | succ i =>
        have hi' : i < ps.length := by simpa using hi
        have hne : ps[i] ≠ p := fun heq => hp (heq ▸ List.getElem_mem hi')
        have hsame : Fails x target (cycle x target s p).host.immutable
            ((cycle x target s p).host.probes + i) ps[i] ↔
            Fails x target s.host.immutable (s.host.probes + (i + 1)) ps[i] := by
          rw [Fails, Fails, cycle_host, hframe _ hne, hprobes,
            show s.host.probes + 1 + i = s.host.probes + (i + 1) by omega]
        rw [List.getElem_cons_succ, ← hsame]
        exact hrest i hi'
    · rw [List.mem_cons, not_or] at hq
      exact (hother' q hq.2).trans (hother q hq.1)

theorem status_spec (c : ReadonlyMountController) (h : Host) :
    ((∃ st, (c.status h).1 = .ok st) ↔ ∀ i (hi : i < c.protectedPaths.length),
      c.executor.probeFault (h.probes + i) c.protectedPaths[i] = none) ∧
    (c.status h).2.immutable = h.immutable ∧
    ((∃ st, (c.status h).1 = .ok st) →
      (c.status h).2.probes = h.probes + c.protectedPaths.length) := by
  have hcount := countImmutable_spec c.executor c.protectedPaths h
  unfold status
  generalize countImmutable c.executor c.protectedPaths h = out at *
  obtain ⟨result, h'⟩ := out
  cases result <;> simpa using hcount

/-- The flags a transition leaves, whether it returns or raises: the loop is reached when no
probe of the first status read fails, and the status reads change no flag. -/
theorem transition_flag (c : ReadonlyMountController) (hd : c.protectedPaths.Nodup) (now : Int)
    (h : Host) (i : ℕ) (hi : i < c.protectedPaths.length) :
    (c.transition target now h).2.immutable c.protectedPaths[i] = target ↔
      h.immutable c.protectedPaths[i] = target ∨
        ((∀ j (hj : j < c.protectedPaths.length),
            c.executor.probeFault (h.probes + j) c.protectedPaths[j] = none) ∧
          c.executor.probeFault (h.probes + c.protectedPaths.length + i) c.protectedPaths[i] =
            none ∧
          ReachesTarget c.executor target c.protectedPaths[i]) := by
  obtain ⟨hfirst, himm, hcount⟩ := status_spec c h
  unfold transition
  generalize c.status h = out at *
  obtain ⟨result, h₁⟩ := out
  have himm' : h₁.immutable = h.immutable := himm
  cases result with
  | error e =>
    have hfault : ¬ ∀ j (hj : j < c.protectedPaths.length),
        c.executor.probeFault (h.probes + j) c.protectedPaths[j] = none := by
      intro hall
      obtain ⟨st, hst⟩ := hfirst.mpr hall
      cases hst
    simp [himm', hfault]
  | ok previous =>
    have hcount' : h₁.probes = h.probes + c.protectedPaths.length := hcount ⟨previous, rfl⟩
    have hloop := foldl_cycle_flag c.executor target c.protectedPaths hd ⟨[], none, h₁⟩ i hi
    dsimp only at hloop ⊢
    obtain ⟨-, himm₂, -⟩ := status_spec c
      (c.protectedPaths.foldl (cycle c.executor target) ⟨[], none, h₁⟩).host
    rw [← himm₂, himm', hcount'] at hloop
    rw [and_iff_right (hfirst.mp ⟨previous, rfl⟩), ← hloop]
    generalize c.status _ = out
    obtain ⟨result, h₂⟩ := out
    cases result <;> rfl

theorem countImmutable_ok (ps : List PurePosixPath) (h : Host) (n : ℕ)
    (hn : (countImmutable x ps h).1 = .ok n) : n = ps.countP h.immutable := by
  induction ps generalizing h n with
  | nil => simpa [countImmutable, eq_comm] using hn
  | cons p ps ih =>
    cases hp : x.probeFault h.probes p with
    | some e => simp [countImmutable, ChattrExecutor.isImmutable, hp] at hn
    | none =>
      have hrest := ih { h with probes := h.probes + 1 }
      simp only [countImmutable, ChattrExecutor.isImmutable, hp] at hn
      generalize countImmutable x ps { h with probes := h.probes + 1 } = out at hn hrest
      obtain ⟨result, h'⟩ := out
      cases result with
      | error e => simp at hn
      | ok m =>
        have hm := hrest m rfl
        have hn' : (if h.immutable p then m + 1 else m) = n := by simpa using hn
        rw [List.countP_cons, ← hm, ← hn']
        split <;> simp

theorem transition_locked (c : ReadonlyMountController) (now : Int) (h : Host)
    {t : LockTransition} (ht : (c.transition target now h).1 = .ok t)
    (hlocked : t.newState = .locked) :
    ∀ p ∈ c.protectedPaths, (c.transition target now h).2.immutable p = true := by
  unfold transition at ht ⊢
  generalize c.status h = out at *
  obtain ⟨result, h₁⟩ := out
  cases result with
  | error e => cases ht
  | ok previous =>
    dsimp only at ht ⊢
    generalize (c.protectedPaths.foldl (cycle c.executor target) ⟨[], none, h₁⟩) = s at *
    obtain ⟨-, himm, -⟩ := status_spec c s.host
    have hcount := countImmutable_ok c.executor c.protectedPaths s.host
    unfold status at ht himm ⊢
    generalize countImmutable c.executor c.protectedPaths s.host = out at *
    obtain ⟨result, h₂⟩ := out
    cases result with
    | error e => cases ht
    | ok n =>
      obtain rfl := Except.ok.inj ht
      have hn := hcount n rfl
      have hall : n = c.protectedPaths.length := by
        have hpos := List.length_pos_iff.mpr c.nonempty
        have hclass : classifyState n c.protectedPaths.length = .locked := hlocked
        unfold classifyState at hclass
        split at hclass
        · cases hclass
        · split at hclass
          · assumption
          · cases hclass
      rw [hn, List.countP_eq_length] at hall
      have himm' : h₂.immutable = s.host.immutable := himm
      intro p hp
      simpa [himm'] using hall p hp

/-- What is asked of a transition: it returns, records `error` for exactly the paths
whose probe or `chattr` call failed, and has moved every other path to the target. -/
def TransitionComplete (c : ReadonlyMountController) (target : Bool) (now : Int) (h : Host) :
    Prop :=
  ∃ t h', c.transition target now h = (.ok t, h') ∧
    t.perFileResults.map Prod.fst = c.protectedPaths ∧
    ∀ i (hi : i < c.protectedPaths.length),
      (t.perFileResults.lookup c.protectedPaths[i] = some .error ↔
        Fails c.executor target h.immutable (h.probes + c.protectedPaths.length + i)
          c.protectedPaths[i]) ∧
      (¬ Fails c.executor target h.immutable (h.probes + c.protectedPaths.length + i)
          c.protectedPaths[i] → h'.immutable c.protectedPaths[i] = target)

/-- A transition does what is asked of it exactly when neither of its two status reads
runs into a failing probe; failures inside the loop are all recorded. -/
theorem transition_complete_iff (c : ReadonlyMountController) (hd : c.protectedPaths.Nodup)
    (target : Bool) (now : Int) (h : Host) :
    c.TransitionComplete target now h ↔
      ∀ i (hi : i < c.protectedPaths.length),
        c.executor.probeFault (h.probes + i) c.protectedPaths[i] = none ∧
        c.executor.probeFault (h.probes + 2 * c.protectedPaths.length + i) c.protectedPaths[i] =
          none := by
  obtain ⟨hfirst, himm, hcount⟩ := status_spec c h
  unfold TransitionComplete transition
  generalize c.status h = out at *
  obtain ⟨result, h₁⟩ := out
  cases result with
  | error e =>
    refine iff_of_false (by simp) fun hall => ?_
    obtain ⟨st, hst⟩ := hfirst.mpr fun i hi => (hall i hi).1
    cases hst
  | ok previous =>
    have hfirst' := hfirst.mp ⟨previous, rfl⟩
    have himm' : h₁.immutable = h.immutable := himm
    have hcount' : h₁.probes = h.probes + c.protectedPaths.length := hcount ⟨previous, rfl⟩
    obtain ⟨hloop, hkeys, -⟩ := foldl_cycle_spec c.executor target c.protectedPaths hd
      ⟨[], none, h₁⟩ (by simp)
    have hprobes := foldl_cycle_probes c.executor target c.protectedPaths ⟨[], none, h₁⟩
    have hflags := foldl_cycle_flag c.executor target c.protectedPaths hd ⟨[], none, h₁⟩
    dsimp only
    generalize c.protectedPaths.foldl (cycle c.executor target) ⟨[], none, h₁⟩ = s at *
    obtain ⟨hsecond, himm₂, -⟩ := status_spec c s.host
    have hprobes' : s.host.probes = h.probes + 2 * c.protectedPaths.length := by
      rw [hprobes]
      simp only [hcount']
      omega
    rw [hprobes'] at hsecond
    generalize c.status s.host = out at *
    obtain ⟨result, h₂⟩ := out
    cases result with
    | error e =>
      refine iff_of_false (by simp) fun hall => ?_
      obtain ⟨st, hst⟩ := hsecond.mpr fun i hi => (hall i hi).2
      cases hst
    | ok newState =>
      have hsecond' := hsecond.mp ⟨newState, rfl⟩
      have himm₂' : h₂.immutable = s.host.immutable := himm₂
      refine iff_of_true ⟨_, _, rfl, by simpa using hkeys, fun i hi => ?_⟩
        fun i hi => ⟨hfirst' i hi, hsecond' i hi⟩
      rw [himm₂', ← himm', ← hcount']
      exact ⟨hloop i hi, fun hno => (hflags i hi).mpr (reachesTarget_of_not_fails _ _ hno)⟩

/-- The controller over the default paths. -/
def withDefaults (x : ChattrExecutor) : ReadonlyMountController :=
  ⟨x, defaultProtectedPaths, by decide, by decide⟩

/-- A host on which every file is mutable. -/
def mutableHost : Host := ⟨fun _ => false, 0⟩

/-- `chattr +i` is refused on every path. -/
def refusingExecutor : ChattrExecutor :=
  ⟨fun _ _ => none, fun _ => some (⟨"CalledProcessError", "chattr"⟩, false), fun _ => none⟩

theorem transition_complete_refusing :
    (withDefaults refusingExecutor).TransitionComplete true 0 mutableHost :=
  (transition_complete_iff (withDefaults refusingExecutor) (by decide) true 0 mutableHost).mpr
    fun _ _ => ⟨rfl, rfl⟩

/-- `lsattr` fails on `flag_registry.toml`, as it does for a missing file. -/
def missingFileExecutor : ChattrExecutor :=
  { probeFault := fun _ p =>
      if p.parts.getLast? = some "flag_registry.toml" then some ⟨"CalledProcessError", "lsattr"⟩
      else none
    setFault := fun _ => none
    clearFault := fun _ => none }

/-- With one protected file missing, `lock` raises and the other file stays mutable. -/
theorem lock_raises_on_missing_file :
    ((withDefaults missingFileExecutor).lock 0 mutableHost).1 =
        .error ⟨"CalledProcessError", "lsattr"⟩ ∧
      (∀ p ∈ defaultProtectedPaths,
        ((withDefaults missingFileExecutor).lock 0 mutableHost).2.immutable p = false) ∧
      ¬ (withDefaults missingFileExecutor).TransitionComplete true 0 mutableHost := by
  refine ⟨by decide, by decide, ?_⟩
  rintro ⟨t, h', hreturn, -⟩
  have hraised : ((withDefaults missingFileExecutor).transition true 0 mutableHost).1 =
      .error ⟨"CalledProcessError", "lsattr"⟩ := by decide
  rw [hreturn] at hraised
  cases hraised

end ReadonlyMountController

end Athena
