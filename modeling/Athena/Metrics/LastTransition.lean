import Athena.Metrics.Damaged

/-!
# The gauge of the last transition

Of the three timestamps in the file only the two successes are read back. The
last transition is printed from the argument alone, so a call that passes no
timestamp prints 0 whatever the calls before it have passed.
-/

namespace Athena

namespace MountMetric

/-- The seconds of the latest call with a timestamp; 0 if there is none. -/
def lastTransitionSeconds (es : List Emission) : Int :=
  (es.filterMap Emission.seconds).getLast?.getD 0

/-- The gauge of the last transition holds the seconds of the latest call with a timestamp. -/
def HoldsLastTransition (text : List Char) (es : List Emission) : Prop :=
  samples text lastTransition = [(printInt (lastTransitionSeconds es)).val]

/-- The call passes a timestamp, or no call before it has passed one, or the latest one is
printed as 0. -/
def NothingToForget (before : List Emission) (e : Emission) : Prop :=
  e.lastTransitionTs = none → lastTransitionSeconds before = 0

/-- Both successes are numbers that a float holds exactly. -/
def Legible (output : Option (List Char)) : Prop :=
  ∃ lock unlock, readPrevTimestamp output lastLockSuccess = .ok lock ∧
    readPrevTimestamp output lastUnlockSuccess = .ok unlock ∧
    |lock| ≤ 2 ^ 53 ∧ |unlock| ≤ 2 ^ 53

theorem legible_none : Legible none := ⟨0, 0, rfl, rfl, by decide, by decide⟩

theorem lastTransitionSeconds_append (es : List Emission) (e : Emission) :
    lastTransitionSeconds (es ++ [e]) = e.seconds.getD (lastTransitionSeconds es) := by
  unfold lastTransitionSeconds
  rw [List.filterMap_append]
  cases h : e.seconds <;> simp [h]

theorem samples_lastTransition (state : MountState) (transition lock unlock : Int) :
    samples (renderBody state transition lock unlock) lastTransition =
      [(printInt transition).val] := by
  rw [renderBody, samples_render]
  rfl

theorem abs_transition_le {e : Emission} {transition : Int}
    (h : toUnixSeconds e.lastTransitionTs = .ok transition) : |transition| ≤ 2 ^ 53 := by
  cases hts : e.lastTransitionTs with
  | none =>
    rw [hts] at h
    cases h
    decide
  | some ts =>
    rw [hts] at h
    exact abs_toUnixSeconds_le h

theorem abs_updated_le (action : String) (e : Emission) {transition prev : Int}
    (htransition : |transition| ≤ 2 ^ 53) (hprev : |prev| ≤ 2 ^ 53) :
    |updated action e transition prev| ≤ 2 ^ 53 := by
  unfold updated
  split_ifs
  · exact htransition
  · exact hprev
  · exact hprev

/-- One call on a legible file leaves a legible one, and prints the transition it was passed. -/
theorem emit_legible {output : Option (List Char)} {e : Emission} (he : e.Aware)
    (h : Legible output) :
    ∃ transition text, toUnixSeconds e.lastTransitionTs = .ok transition ∧
      emit output e = .ok text ∧ Legible (some text) ∧
      samples text lastTransition = [(printInt transition).val] := by
  obtain ⟨lock, unlock, hlock, hunlock, hlockLe, hunlockLe⟩ := h
  obtain ⟨transition, htransition⟩ := toUnixSeconds_of_aware he
  have hle := abs_transition_le htransition
  have hlock' := abs_updated_le "lock" e hle hlockLe
  have hunlock' := abs_updated_le "unlock" e hle hunlockLe
  have hemit : emit output e = .ok (renderBody e.state transition
      (updated "lock" e transition lock) (updated "unlock" e transition unlock)) := by
    unfold emit
    rw [htransition, hlock, hunlock]
    rfl
  refine ⟨transition, _, htransition, hemit, ?_, samples_lastTransition _ _ _ _⟩
  exact ⟨_, _, readPrevTimestamp_lock e.state transition _ hlock',
    readPrevTimestamp_unlock e.state transition _ hunlock', hlock', hunlock'⟩

/-- A run never fails, by induction on the calls. -/
theorem emitted_legible {es : List Emission} (h : ∀ e ∈ es, e.Aware) :
    ∃ output, emitted es = .ok output ∧ Legible output := by
  induction es using List.reverseRecOn with
  | nil => exact ⟨none, rfl, legible_none⟩
  | append_singleton es e ih =>
    obtain ⟨output, houtput, hlegible⟩ := ih fun x hx => h x (List.mem_append_left _ hx)
    obtain ⟨transition, text, -, hemit, htext, -⟩ := emit_legible (h e (by simp)) hlegible
    exact ⟨_, emittedBy_append_ok houtput hemit, htext⟩

theorem emitted_transition {es : List Emission} {e : Emission} (h : ∀ x ∈ es ++ [e], x.Aware) :
    ∃ transition text, toUnixSeconds e.lastTransitionTs = .ok transition ∧
      emitted (es ++ [e]) = .ok (some text) ∧
      samples text lastTransition = [(printInt transition).val] := by
  obtain ⟨output, houtput, hlegible⟩ := emitted_legible fun x hx => h x (List.mem_append_left _ hx)
  obtain ⟨transition, text, htransition, hemit, -, hsamples⟩ :=
    emit_legible (h e (by simp)) hlegible
  exact ⟨transition, text, htransition, emittedBy_append_ok houtput hemit, hsamples⟩

theorem holdsLastTransition_iff {es : List Emission} {e : Emission}
    (h : ∀ x ∈ es ++ [e], x.Aware) :
    (∃ text, emitted (es ++ [e]) = .ok (some text) ∧ HoldsLastTransition text (es ++ [e])) ↔
      NothingToForget es e := by
  obtain ⟨transition, text, htransition, hemitted, hsamples⟩ := emitted_transition h
  have hprinted : HoldsLastTransition text (es ++ [e]) ↔
      transition = e.seconds.getD (lastTransitionSeconds es) := by
    rw [HoldsLastTransition, hsamples, ← lastTransitionSeconds_append, List.cons.injEq]
    constructor
    · intro heq
      exact strInt_injective (String.toList_injective heq.1)
    · intro heq
      rw [heq]
      exact ⟨rfl, rfl⟩
  have hcondition : transition = e.seconds.getD (lastTransitionSeconds es) ↔
      NothingToForget es e := by
    unfold NothingToForget Emission.seconds
    cases hts : e.lastTransitionTs with
    | none =>
      rw [hts] at htransition
      cases htransition
      simp [noPreviousTimestamp, eq_comm]
    | some ts =>
      rw [hts] at htransition
      simp [htransition, Except.toOption]
  rw [← hcondition, ← hprinted]
  constructor
  · intro hexists
    obtain ⟨text', htext', hholds⟩ := hexists
    cases hemitted.symm.trans htext'
    exact hholds
  · intro hholds
    exact ⟨text, hemitted, hholds⟩

/-- The gauge is right after every call of a run just if no call without a timestamp comes
after one whose timestamp it would have to print again. -/
theorem last_transition_kept_iff (es : List Emission) (h : ∀ e ∈ es, e.Aware) :
    (∀ before e after, es = before ++ e :: after →
      ∃ text, emitted (before ++ [e]) = .ok (some text) ∧
        HoldsLastTransition text (before ++ [e])) ↔
    ∀ before e after, es = before ++ e :: after → NothingToForget before e := by
  have hstep : ∀ before e after, es = before ++ e :: after →
      ((∃ text, emitted (before ++ [e]) = .ok (some text) ∧
        HoldsLastTransition text (before ++ [e])) ↔ NothingToForget before e) := by
    intro before e after hsplit
    apply holdsLastTransition_iff
    intro x hx
    apply h
    rw [hsplit]
    rcases List.mem_append.mp hx with hx | hx
    · exact List.mem_append_left _ hx
    · rw [List.mem_singleton.mp hx]
      exact List.mem_append_right _ List.mem_cons_self
  constructor
  · intro hall before e after hsplit
    exact (hstep before e after hsplit).mp (hall before e after hsplit)
  · intro hall before e after hsplit
    exact (hstep before e after hsplit).mpr (hall before e after hsplit)

theorem aware_none (state : MountState) (action : Option String) :
    Emission.Aware ⟨state, none, action⟩ := by
  intro ts hts
  cases hts

theorem aware_sampleHour (state : MountState) (action : Option String) :
    Emission.Aware ⟨state, some sampleHour.toDatetime, action⟩ := by
  intro ts hts
  cases hts
  exact ⟨_, rfl, by decide⟩

/-- A refresh before the first transition, and the transition. -/
theorem last_transition_kept_first :
    let refresh : Emission := ⟨.unlocked, none, none⟩
    let lock : Emission := ⟨.locked, some sampleHour.toDatetime, some "lock"⟩
    (∀ before e after, [refresh, lock] = before ++ e :: after →
      ∃ text, emitted (before ++ [e]) = .ok (some text) ∧
        HoldsLastTransition text (before ++ [e])) ↔
    ∀ before e after, [refresh, lock] = before ++ e :: after → NothingToForget before e := by
  intro refresh lock
  apply last_transition_kept_iff
  intro e he
  simp only [List.mem_cons, List.not_mem_nil, or_false] at he
  rcases he with rfl | rfl
  · exact aware_none _ _
  · exact aware_sampleHour _ _

/-- A refresh after a lock prints 0 for the transition. -/
theorem refresh_forgets_transition :
    let lock : Emission := ⟨.locked, some sampleHour.toDatetime, some "lock"⟩
    let refresh : Emission := ⟨.locked, none, none⟩
    ∃ text, emitted [lock, refresh] = .ok (some text) ∧
      lastTransitionSeconds [lock, refresh] = 1811149200 ∧
      samples text lastTransition = ["0".toList] ∧
      ¬ HoldsLastTransition text [lock, refresh] := by
  intro lock refresh
  have haware : ∀ x ∈ [lock] ++ [refresh], x.Aware := by
    intro x hx
    simp only [List.cons_append, List.nil_append, List.mem_cons, List.not_mem_nil, or_false] at hx
    rcases hx with rfl | rfl
    · exact aware_sampleHour _ _
    · exact aware_none _ _
  obtain ⟨transition, text, htransition, hemitted, hsamples⟩ := emitted_transition haware
  have hseconds : lastTransitionSeconds [lock, refresh] = 1811149200 := by
    have hlock : lock.seconds = some 1811149200 := by
      simp [Emission.seconds, lock, toUnixSeconds_sampleHour, Except.toOption]
    have hrefresh : refresh.seconds = none := rfl
    simp [lastTransitionSeconds, hlock, hrefresh]
  cases htransition
  refine ⟨text, hemitted, hseconds, hsamples, ?_⟩
  rw [HoldsLastTransition, hsamples, hseconds]
  decide

end MountMetric

end Athena
