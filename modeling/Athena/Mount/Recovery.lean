import Athena.Mount.Transition

/-!
# Recovery after refused calls

A transition over an executor that refuses `chattr` on some paths, and the next
one over the same paths when nothing is refused any more. The calls are
recorded by a copy of the loop with a log, which computes the same transition.
-/

namespace Athena

namespace ReadonlyMountController

section Logged

variable (x : ChattrExecutor) (target : Bool)

/-- `attempt`, with the paths on which `chattr` has been called. -/
def attemptLogged (p : PurePosixPath) (h : Host) (calls : List PurePosixPath) :
    (Except PyException PerFileResult × Host) × List PurePosixPath :=
  match x.isImmutable p h with
  | (.error e, h) => ((.error e, h), calls)
  | (.ok flag, h) =>
    if flag = target then ((.ok .already, h), calls)
    else
      match if target then x.setImmutable p h else x.clearImmutable p h with
      | (.error e, h) => ((.error e, h), calls ++ [p])
      | (.ok (), h) => ((.ok .ok, h), calls ++ [p])

def cycleLogged (s : Progress × List PurePosixPath) (p : PurePosixPath) :
    Progress × List PurePosixPath :=
  match attemptLogged x target p s.1.host s.2 with
  | ((.ok r, h), calls) => ({ s.1 with perFile := dictSet s.1.perFile p r, host := h }, calls)
  | ((.error e, h), calls) =>
    ({ perFile := dictSet s.1.perFile p .error
       firstError := s.1.firstError.or (some (p.str ++ ": " ++ e.typeName ++ ": " ++ e.text))
       host := h }, calls)

/-- The paths on which a transition calls `chattr`, in order. -/
def chattrCalls (c : ReadonlyMountController) (target : Bool) (h : Host) : List PurePosixPath :=
  match c.status h with
  | (.error _, _) => []
  | (.ok _, h) =>
    (c.protectedPaths.foldl (cycleLogged c.executor target) (⟨[], none, h⟩, [])).2

theorem attemptLogged_fst (p : PurePosixPath) (h : Host) (calls : List PurePosixPath) :
    (attemptLogged x target p h calls).1 = attempt x target p h := by
  unfold attemptLogged attempt
  generalize x.isImmutable p h = probe
  obtain ⟨_ | flag, h⟩ := probe
  · rfl
  · dsimp only
    by_cases hflag : flag = target
    · rw [if_pos hflag, if_pos hflag]
    · rw [if_neg hflag, if_neg hflag]
      generalize (if target then x.setImmutable p h else x.clearImmutable p h) = call
      obtain ⟨_ | _, _⟩ := call <;> rfl

theorem cycleLogged_fst (s : Progress × List PurePosixPath) (p : PurePosixPath) :
    (cycleLogged x target s p).1 = cycle x target s.1 p := by
  unfold cycleLogged cycle
  rw [← attemptLogged_fst x target p s.1.host s.2]
  generalize attemptLogged x target p s.1.host s.2 = out
  obtain ⟨⟨_ | _, _⟩, _⟩ := out <;> rfl

theorem foldl_cycleLogged_fst (ps : List PurePosixPath) (s : Progress × List PurePosixPath) :
    (ps.foldl (cycleLogged x target) s).1 = ps.foldl (cycle x target) s.1 := by
  induction ps generalizing s with
  | nil => rfl
  | cons p ps ih => rw [List.foldl_cons, List.foldl_cons, ih, cycleLogged_fst]

end Logged

/-- The executor whose probes never raise and whose `chattr` calls raise on some paths,
leaving the flag they were to change. -/
def refusing (refuses : PurePosixPath → Option PyException) : ChattrExecutor where
  probeFault := fun _ _ => none
  setFault := fun p => (refuses p).map (·, false)
  clearFault := fun p => (refuses p).map (·, true)

def runningOn (c : ReadonlyMountController) (x : ChattrExecutor) : ReadonlyMountController :=
  { c with executor := x }

def errorText (p : PurePosixPath) (e : PyException) : String :=
  p.str ++ ": " ++ e.typeName ++ ": " ++ e.text

def targetState (target : Bool) : MountState := if target then .locked else .unlocked

theorem findSome?_congr {α β : Type*} {f g : α → Option β} {l : List α}
    (h : ∀ a ∈ l, f a = g a) : l.findSome? f = l.findSome? g := by
  induction l with
  | nil => rfl
  | cons a l ih =>
    rw [List.findSome?_cons, List.findSome?_cons, h a (List.mem_cons_self ..),
      ih fun b hb => h b (List.mem_cons_of_mem _ hb)]

section Refusing

variable (refuses : PurePosixPath → Option PyException) (target : Bool)

def outcome (immutable : PurePosixPath → Bool) (p : PurePosixPath) : PerFileResult :=
  if immutable p = target then .already
  else if (refuses p).isSome then .error
  else .ok

/-- The flags after the rounds of the given paths. -/
def flagsAfter (immutable : PurePosixPath → Bool) (ps : List PurePosixPath) (p : PurePosixPath) :
    Bool :=
  if p ∈ ps ∧ refuses p = none then target else immutable p

/-- The text a round records if it is the first to fail. -/
def failureText (immutable : PurePosixPath → Bool) (p : PurePosixPath) : Option String :=
  if immutable p = target then none else (refuses p).map (errorText p)

theorem flagsAfter_nil (immutable : PurePosixPath → Bool) :
    flagsAfter refuses target immutable [] = immutable :=
  funext fun _ => if_neg fun h => List.not_mem_nil h.1

/-- The round of a path comes before the rounds of the others. -/
theorem flagsAfter_cons (immutable : PurePosixPath → Bool) (p : PurePosixPath)
    (ps : List PurePosixPath) :
    flagsAfter refuses target (flagsAfter refuses target immutable [p]) ps =
      flagsAfter refuses target immutable (p :: ps) := by
  funext q
  simp only [flagsAfter, List.mem_cons, List.not_mem_nil, or_false, or_and_right]
  by_cases hq : q ∈ ps ∧ refuses q = none
  · rw [if_pos hq, if_pos (Or.inr hq)]
  · simp only [hq, or_false, if_false]

theorem flagsAfter_of_at_target {immutable : PurePosixPath → Bool} {p : PurePosixPath}
    (h : immutable p = target) : flagsAfter refuses target immutable [p] = immutable := by
  funext q
  unfold flagsAfter
  split_ifs with hq
  · rw [← h, List.mem_singleton.mp hq.1]
  · rfl

theorem chattr_refusing {h : Host} {p : PurePosixPath} (hflag : h.immutable p ≠ target) :
    (if target then (refusing refuses).setImmutable p h
      else (refusing refuses).clearImmutable p h) =
      (match refuses p with
        | some e => .error e
        | none => .ok (), { h with immutable := flagsAfter refuses target h.immutable [p] }) := by
  have hleft : h.immutable p = !target := Bool.eq_not_of_ne hflag
  have hcall : (if target then (refusing refuses).setImmutable p h
      else (refusing refuses).clearImmutable p h) =
      ChattrExecutor.chattr ((refuses p).map (·, !target)) target p h := by
    cases target <;> rfl
  rw [hcall]
  cases hr : refuses p with
  | some e =>
    have hsame : flagsAfter refuses target h.immutable [p] = h.immutable := by
      funext q
      unfold flagsAfter
      split_ifs with hq
      · rw [List.mem_singleton.mp hq.1, hr] at hq
        cases hq.2
      · rfl
    rw [hsame, Option.map_some, ChattrExecutor.chattr, ← hleft, Function.update_eq_self]
  | none =>
    have hmoved : flagsAfter refuses target h.immutable [p] =
        Function.update h.immutable p target := by
      funext q
      unfold flagsAfter
      by_cases hq : q = p
      · rw [hq, Function.update_self, if_pos ⟨List.mem_singleton_self p, hr⟩]
      · rw [Function.update_of_ne hq, if_neg fun h => hq (List.mem_singleton.mp h.1)]
    rw [hmoved, Option.map_none, ChattrExecutor.chattr]

theorem cycleLogged_refusing (s : Progress) (calls : List PurePosixPath) (p : PurePosixPath) :
    cycleLogged (refusing refuses) target (s, calls) p =
      ({ perFile := dictSet s.perFile p (outcome refuses target s.host.immutable p)
         firstError := s.firstError.or (failureText refuses target s.host.immutable p)
         host := ⟨flagsAfter refuses target s.host.immutable [p], s.host.probes + 1⟩ },
        calls ++ [p].filter fun q => s.host.immutable q ≠ target) := by
  have hprobe : (refusing refuses).isImmutable p s.host =
      (.ok (s.host.immutable p), { s.host with probes := s.host.probes + 1 }) := rfl
  unfold cycleLogged attemptLogged
  dsimp only
  rw [hprobe]
  dsimp only
  by_cases hflag : s.host.immutable p = target
  · rw [if_pos hflag, flagsAfter_of_at_target refuses target hflag]
    simp [outcome, failureText, hflag]
  · have hcall := chattr_refusing refuses target
      (h := ⟨s.host.immutable, s.host.probes + 1⟩) hflag
    rw [if_neg hflag, hcall]
    cases hr : refuses p with
    | some e => simp [outcome, failureText, errorText, hflag, hr]
    | none => simp [outcome, failureText, hflag, hr]

/-- The loop over the remaining paths, by induction on them: a round changes the flag of its
own path only, so every later round finds its flag as it was. -/
theorem foldl_cycleLogged_refusing (ps : List PurePosixPath) (hd : ps.Nodup) (s : Progress)
    (calls : List PurePosixPath) (hfresh : ∀ p ∈ ps, p ∉ s.perFile.map Prod.fst) :
    ps.foldl (cycleLogged (refusing refuses) target) (s, calls) =
      ({ perFile := s.perFile ++ ps.map fun p => (p, outcome refuses target s.host.immutable p)
         firstError := s.firstError.or (ps.findSome? (failureText refuses target s.host.immutable))
         host := ⟨flagsAfter refuses target s.host.immutable ps, s.host.probes + ps.length⟩ },
        calls ++ ps.filter fun p => s.host.immutable p ≠ target) := by
  induction ps generalizing s calls with
  | nil =>
    rw [flagsAfter_nil]
    simp
  | cons p ps ih =>
    obtain ⟨hp, hd'⟩ := List.nodup_cons.mp hd
    have hother : ∀ q ∈ ps, flagsAfter refuses target s.host.immutable [p] q =
        s.host.immutable q := by
      intro q hq
      have hne : q ≠ p := fun h => hp (h ▸ hq)
      exact if_neg fun h => hne (List.mem_singleton.mp h.1)
    have hset : dictSet s.perFile p (outcome refuses target s.host.immutable p) =
        s.perFile ++ [(p, outcome refuses target s.host.immutable p)] := by
      simp [dictSet, hfresh p (List.mem_cons_self ..)]
    have hfresh' : ∀ q ∈ ps, q ∉ (s.perFile ++
        [(p, outcome refuses target s.host.immutable p)]).map Prod.fst := by
      intro q hq hmem
      rw [List.map_append, List.mem_append] at hmem
      rcases hmem with hmem | hmem
      · exact hfresh q (List.mem_cons_of_mem _ hq) hmem
      · have heq : q = p := List.mem_singleton.mp hmem
        exact hp (heq ▸ hq)
    have houtcome : ps.map (fun q => (q, outcome refuses target
        (flagsAfter refuses target s.host.immutable [p]) q)) =
        ps.map fun q => (q, outcome refuses target s.host.immutable q) :=
      List.map_congr_left fun q hq => by rw [outcome, outcome, hother q hq]
    have htext : ps.findSome? (failureText refuses target
        (flagsAfter refuses target s.host.immutable [p])) =
        ps.findSome? (failureText refuses target s.host.immutable) :=
      findSome?_congr fun q hq => by rw [failureText, failureText, hother q hq]
    have hcalls : (ps.filter fun q => flagsAfter refuses target s.host.immutable [p] q ≠ target) =
        ps.filter fun q => s.host.immutable q ≠ target :=
      List.filter_congr fun q hq => by rw [hother q hq]
    rw [List.foldl_cons, cycleLogged_refusing, hset, ih hd' _ _ hfresh']
    have hfirst : (s.firstError.or (failureText refuses target s.host.immutable p)).or
        (ps.findSome? (failureText refuses target s.host.immutable)) =
        s.firstError.or ((p :: ps).findSome? (failureText refuses target s.host.immutable)) := by
      rw [Option.or_assoc, List.findSome?_cons]
      cases failureText refuses target s.host.immutable p <;> rfl
    have hprobes : s.host.probes + 1 + ps.length = s.host.probes + (p :: ps).length := by
      rw [List.length_cons]
      omega
    simp only [houtcome, htext, hcalls, flagsAfter_cons, hfirst, hprobes, List.append_assoc,
      ← List.filter_append, List.map_cons, List.cons_append, List.nil_append]

end Refusing

theorem classifyState_eq_targetState {n total : ℕ} (htotal : 0 < total) (target : Bool) :
    classifyState n total = targetState target ↔ n = if target then total else 0 := by
  unfold classifyState targetState
  split_ifs <;> simp <;> omega

theorem status_refusing (c : ReadonlyMountController)
    (refuses : PurePosixPath → Option PyException) (h : Host) :
    (c.runningOn (refusing refuses)).status h =
      (.ok (classifyState (c.protectedPaths.countP h.immutable) c.protectedPaths.length),
        ⟨h.immutable, h.probes + c.protectedPaths.length⟩) := by
  have hspec := countImmutable_spec (refusing refuses) c.protectedPaths h
  have hok := countImmutable_ok (refusing refuses) c.protectedPaths h
  have hreturns := hspec.1.mpr fun _ _ => rfl
  unfold status runningOn
  dsimp only
  generalize countImmutable (refusing refuses) c.protectedPaths h = out at *
  obtain ⟨n, hn⟩ := hreturns
  obtain ⟨result, immutable, probes⟩ := out
  obtain ⟨-, himm, hprobes⟩ := hspec
  dsimp only at hn himm hprobes ⊢
  rw [himm, hprobes ⟨n, hn⟩, hn, hok n hn]

theorem classifyState_countP (c : ReadonlyMountController) (immutable : PurePosixPath → Bool)
    (target : Bool) :
    classifyState (c.protectedPaths.countP immutable) c.protectedPaths.length =
        targetState target ↔
      ∀ p ∈ c.protectedPaths, immutable p = target := by
  rw [classifyState_eq_targetState (List.length_pos_iff.mpr c.nonempty)]
  cases target with
  | true => simp [List.countP_eq_length]
  | false => simp [List.countP_eq_zero]

/-- What a transition over a refusing executor does, in one piece. -/
theorem transition_refusing (c : ReadonlyMountController) (hd : c.protectedPaths.Nodup)
    (refuses : PurePosixPath → Option PyException) (target : Bool) (now : Int) (h : Host) :
    (c.runningOn (refusing refuses)).transition target now h =
      (.ok
        { targetImmutable := target
          targetPaths := c.protectedPaths
          timestampUtc := now
          previousState :=
            classifyState (c.protectedPaths.countP h.immutable) c.protectedPaths.length
          newState := classifyState
            (c.protectedPaths.countP (flagsAfter refuses target h.immutable c.protectedPaths))
            c.protectedPaths.length
          perFileResults :=
            c.protectedPaths.map fun p => (p, outcome refuses target h.immutable p)
          errorMessage := c.protectedPaths.findSome? (failureText refuses target h.immutable) },
        ⟨flagsAfter refuses target h.immutable c.protectedPaths,
          h.probes + 3 * c.protectedPaths.length⟩) ∧
    (c.runningOn (refusing refuses)).chattrCalls target h =
      c.protectedPaths.filter fun p => h.immutable p ≠ target := by
  have hloop := foldl_cycleLogged_refusing refuses target c.protectedPaths hd
    ⟨[], none, ⟨h.immutable, h.probes + c.protectedPaths.length⟩⟩ [] (by simp)
  have hsame := foldl_cycleLogged_fst (refusing refuses) target c.protectedPaths
    (⟨[], none, ⟨h.immutable, h.probes + c.protectedPaths.length⟩⟩, [])
  rw [hloop] at hsame
  constructor
  · unfold transition
    rw [status_refusing]
    dsimp only [runningOn] at hsame ⊢
    rw [← hsame]
    have hsecond := status_refusing c refuses
      ⟨flagsAfter refuses target h.immutable c.protectedPaths,
        h.probes + c.protectedPaths.length + c.protectedPaths.length⟩
    dsimp only [runningOn] at hsecond
    rw [hsecond]
    simp
    omega
  · unfold chattrCalls
    rw [status_refusing]
    dsimp only [runningOn]
    rw [hloop]
    simp

section Outcomes

variable (refuses : PurePosixPath → Option PyException) (target : Bool)
  (immutable : PurePosixPath → Bool)

theorem flagsAfter_eq_target {ps : List PurePosixPath} {p : PurePosixPath} (hp : p ∈ ps) :
    flagsAfter refuses target immutable ps p = target ↔
      immutable p = target ∨ refuses p = none := by
  unfold flagsAfter
  by_cases hr : refuses p = none
  · simp [hp, hr]
  · simp [hr]

theorem outcome_eq_error (p : PurePosixPath) :
    outcome refuses target immutable p = .error ↔
      ¬ (immutable p = target ∨ refuses p = none) := by
  unfold outcome
  split_ifs with hflag hr
  · simp [hflag]
  · simp [hflag, Option.isSome_iff_ne_none.mp hr]
  · simpa [hflag] using hr

theorem failureText_isSome (p : PurePosixPath) :
    (failureText refuses target immutable p).isSome ↔
      outcome refuses target immutable p = .error := by
  rw [outcome_eq_error, failureText]
  split_ifs with hflag
  · simp [hflag]
  · simp [hflag, Option.isSome_iff_ne_none]

theorem findSome?_failureText (ps : List PurePosixPath) :
    ps.findSome? (failureText refuses target immutable) =
      (ps.find? fun p => outcome refuses target immutable p = .error).bind
        fun p => (refuses p).map (errorText p) := by
  induction ps with
  | nil => rfl
  | cons p ps ih =>
    rw [List.findSome?_cons, List.find?_cons, ih]
    unfold failureText outcome
    by_cases hflag : immutable p = target
    · simp [hflag]
    · cases hr : refuses p <;> simp [hflag, hr]

end Outcomes

/-- What a call has done, by the flags before and after it and the paths it called `chattr` on. -/
structure Performed (paths : List PurePosixPath) (refuses : PurePosixPath → Option PyException)
    (target : Bool) (before after : PurePosixPath → Bool) (calls : List PurePosixPath)
    (t : LockTransition) : Prop where
  flags : ∀ p ∈ paths, (after p = target ↔ before p = target ∨ refuses p = none)
  frame : ∀ p ∉ paths, after p = before p
  called : calls = paths.filter fun p => before p ≠ target
  results : t.perFileResults = paths.map fun p =>
    (p, if before p = target then .already else if (refuses p).isSome then .error else .ok)
  messageIff : t.errorMessage.isSome ↔ ∃ r ∈ t.perFileResults, r.2 = .error
  message : t.errorMessage = (t.perFileResults.find? fun r => r.2 = .error).bind fun r =>
    (refuses r.1).map (errorText r.1)
  state : t.newState = targetState target ↔ ∀ r ∈ t.perFileResults, r.2 ≠ .error

def failedPaths (t : LockTransition) : List PurePosixPath :=
  (t.perFileResults.filter fun r => r.2 = .error).map Prod.fst

theorem transition_performed (c : ReadonlyMountController) (hd : c.protectedPaths.Nodup)
    (refuses : PurePosixPath → Option PyException) (target : Bool) (now : Int) (h : Host) :
    ∃ t h', (c.runningOn (refusing refuses)).transition target now h = (.ok t, h') ∧
      Performed c.protectedPaths refuses target h.immutable h'.immutable
        ((c.runningOn (refusing refuses)).chattrCalls target h) t := by
  obtain ⟨hout, hcalls⟩ := transition_refusing c hd refuses target now h
  refine ⟨_, _, hout, ?_⟩
  constructor
  case flags => exact fun p hp => flagsAfter_eq_target refuses target h.immutable hp
  case frame => exact fun p hp => if_neg fun hmem => hp hmem.1
  case called => exact hcalls
  case results => rfl
  case messageIff => simp [List.findSome?_isSome_iff, failureText_isSome]
  case message =>
    dsimp only
    rw [findSome?_failureText, List.find?_map, Option.bind_map]
    rfl
  case state =>
    dsimp only
    rw [classifyState_countP, List.forall_mem_map]
    apply forall₂_congr
    intro p hp
    rw [flagsAfter_eq_target refuses target h.immutable hp, Ne, outcome_eq_error, not_not]

/-- `lock` (to `true`) or `unlock` (to `false`) over an executor that refuses some calls, and the
next call in the same direction when nothing is refused. -/
def Recovers (c : ReadonlyMountController) (refuses : PurePosixPath → Option PyException)
    (target : Bool) (now later : Int) (h : Host) : Prop :=
  ∃ t h', (c.runningOn (refusing refuses)).transition target now h = (.ok t, h') ∧
    Performed c.protectedPaths refuses target h.immutable h'.immutable
      ((c.runningOn (refusing refuses)).chattrCalls target h) t ∧
    (c.runningOn (refusing fun _ => none)).chattrCalls target h' = failedPaths t ∧
    ∃ t' h'', (c.runningOn (refusing fun _ => none)).transition target later h' = (.ok t', h'') ∧
      t'.newState = targetState target ∧ ∀ p ∈ c.protectedPaths, h''.immutable p = target

/-- A call does what can be done, says what could not, and the next call does the rest. -/
theorem transition_recovers (c : ReadonlyMountController) (hd : c.protectedPaths.Nodup)
    (refuses : PurePosixPath → Option PyException) (target : Bool) (now later : Int) (h : Host) :
    c.Recovers refuses target now later h := by
  obtain ⟨t, h', hout, hdone⟩ := transition_performed c hd refuses target now h
  obtain ⟨t', h'', hagain, hdone'⟩ := transition_performed c hd (fun _ => none) target later h'
  refine ⟨t, h', hout, hdone, ?_, t', h'', hagain, ?_, ?_⟩
  · rw [hdone'.called, failedPaths, hdone.results, List.filter_map, List.map_map]
    change _ = (List.filter _ _).map id
    rw [List.map_id]
    apply List.filter_congr
    intro p hp
    have hflag := not_congr (hdone.flags p hp)
    rw [← outcome_eq_error] at hflag
    exact decide_eq_decide.mpr hflag
  · rw [hdone'.state, hdone'.results, List.forall_mem_map]
    intro p hp
    dsimp only
    split_ifs <;> simp at *
  · exact fun p hp => (hdone'.flags p hp).mpr (Or.inr rfl)

theorem transition_recovers_defaults :
    (withDefaults (refusing fun _ => none)).Recovers
      (fun p => if p.parts.getLast? = some "policy.toml" then
        some ⟨"CalledProcessError", "chattr"⟩ else none) true 0 1 mutableHost :=
  transition_recovers _ (by decide) _ true 0 1 mutableHost

end ReadonlyMountController

end Athena
