import Athena.Core.Numerals

/-!
# The cooling gate

`Cooling.main` is `check_cooling.main` on a linear history, HEAD first. HEAD is
judged by its subject; the earlier commit whose age is compared is the nearest
one with a line that starts with `policy:` anywhere in its message.
-/

namespace Athena

structure Commit where
  sha : {s : List Char // IsWord s}
  message : List Char
  committerTime : Int
  deriving DecidableEq

namespace Commit

/-- A line without the white space at its end; only what git takes for white space. -/
def trimLine (line : List Char) : List Char :=
  (line.reverse.dropWhile fun c => c = ' ' || c = Char.ofNat 9 || c = newline ||
    c = carriageReturn).reverse

def lines (c : Commit) : List (List Char) := c.message.splitOnP (· = newline)

/-- `%s`: the lines of the first paragraph, joined by spaces. -/
def subject (c : Commit) : List Char :=
  List.intercalate [' ']
    (((c.lines.map trimLine).dropWhile (· = [])).takeWhile (· ≠ []))

end Commit

namespace Cooling

/-- The text that `POLICY_PREFIX` matches at the start. -/
def policyPrefix : List Char := "policy:".toList

/-- `COOLING_WINDOW`, in microseconds. -/
def coolingWindow : Int := 72 * 3600 * 1000000

def IsPolicy (c : Commit) : Prop := policyPrefix <+: c.subject

instance (c : Commit) : Decidable (IsPolicy c) := inferInstanceAs (Decidable (_ <+: _))

/-- `--grep=^policy:`: some line of the message starts with `policy:`. -/
def Mentions (c : Commit) : Prop := ∃ line ∈ c.lines, policyPrefix <+: line

instance (c : Commit) : Decidable (Mentions c) := inferInstanceAs (Decidable (∃ _ ∈ _, _))

/-- The committer timestamp is at least 72 hours before `now`, in microseconds. -/
def Cooled (now : Int) (c : Commit) : Prop := coolingWindow ≤ now - c.committerTime * 1000000

instance (now : Int) (c : Commit) : Decidable (Cooled now c) := inferInstanceAs (Decidable (_ ≤ _))

/-- `git log -1 --pretty=%s HEAD`; nothing if there is no commit. -/
def gitSubject : List Commit → Option (List Char)
  | [] => none
  | c :: _ => some (c.subject ++ [newline])

/-- A line of `--pretty=%H%x09%ct`. -/
def logLine (c : Commit) : List Char := c.sha.val ++ Char.ofNat 9 :: (strInt c.committerTime).toList

/-- `git log --pretty=%H%x09%ct --grep=^policy: -E HEAD~1`; nothing if there is no `HEAD~1`. -/
def gitPolicyLog : List Commit → Option (List Char)
  | [] | [_] => none
  | _ :: earlier => some ((earlier.filter Mentions).flatMap fun c => logLine c ++ [newline])

/-- `_run_git`, on what the command prints. -/
def runGit (stdout : List Char) : List Char := strip (universalNewlines stdout)

def headSubject (history : List Commit) : List Char :=
  match gitSubject history with
  | none => []
  | some stdout => runGit stdout

/-- The seconds that `datetime.fromtimestamp` accepts. -/
def Representable (seconds : Int) : Prop := -62135596800 ≤ seconds ∧ seconds < 253402300800

instance (seconds : Int) : Decidable (Representable seconds) := inferInstanceAs (Decidable (_ ∧ _))

/-- `datetime.fromtimestamp(seconds, tz=UTC)`, as seconds. -/
def fromTimestamp (seconds : Int) : Except NumeralErr Int :=
  if Representable seconds then .ok seconds else .error .valueError

def prevPolicyCommit (history : List Commit) : Except NumeralErr (Option (List Char × Int)) :=
  match gitPolicyLog history with
  | none => .ok none
  | some stdout =>
    let out := runGit stdout
    if out = [] then .ok none
    else
      let firstLine := (splitlines out).headD []
      match firstLine.splitOnP (· = Char.ofNat 9) with
      | [sha, ts] =>
        match (parseInt ts).bind fromTimestamp with
        | .error e => .error e
        | .ok time => .ok (some (sha, time))
      | _ => .error .valueError

/-- The printed payload; `remaining` is in microseconds, not yet rounded to hours. -/
structure Payload where
  prevPolicySha : List Char
  prevPolicyTs : Int
  remaining : Int
  deriving DecidableEq, Repr

inductive Outcome
  | pass
  | notCooled (payload : Payload)
  deriving DecidableEq, Repr

def Outcome.exitCode : Outcome → ℕ
  | pass => 0
  | notCooled _ => 1

def main (now : Int) (history : List Commit) : Except NumeralErr Outcome :=
  if policyPrefix.isPrefixOf (headSubject history) then
    match prevPolicyCommit history with
    | .error e => .error e
    | .ok none => .ok .pass
    | .ok (some (prevSha, prevTs)) =>
      let elapsed := now - prevTs * 1000000
      if coolingWindow ≤ elapsed then .ok .pass
      else .ok (.notCooled ⟨prevSha.take 7, prevTs, coolingWindow - elapsed⟩)
  else .ok .pass

section Output

theorem policyPrefix_ends : (∃ c s, policyPrefix = c :: s ∧ isSpace c = false) ∧
    ∃ s c, policyPrefix = s ++ [c] ∧ isSpace c = false :=
  ⟨⟨'p', "olicy:".toList, rfl, by decide⟩, ⟨"policy".toList, ':', rfl, by decide⟩⟩

theorem policyPrefix_not_prefix_nil : ¬ policyPrefix <+: [] := by
  intro h
  exact absurd (List.prefix_nil.mp h) (by decide)

theorem headSubject_of_isPolicy {head : Commit} (h : IsPolicy head) (earlier : List Commit) :
    policyPrefix.isPrefixOf (headSubject (head :: earlier)) = true := by
  obtain ⟨s, hs⟩ := h
  have hrun : headSubject (head :: earlier) =
      policyPrefix ++ rstrip (universalNewlines (s ++ [newline])) := by
    rw [headSubject, gitSubject]
    dsimp only
    rw [← hs, List.append_assoc, runGit, universalNewlines_append (by decide),
      strip_append policyPrefix_ends.1 policyPrefix_ends.2]
  rw [hrun, List.isPrefixOf_iff_prefix]
  exact List.prefix_append _ _

theorem logLine_oneLine (c : Commit) : OneLine (logLine c) :=
  oneLine_append.mpr ⟨c.sha.2.oneLine,
    oneLine_cons.mpr ⟨by decide, (strInt_isWord c.committerTime).oneLine⟩⟩

theorem logLine_ends (c : Commit) : (∃ x s, logLine c = x :: s ∧ isSpace x = false) ∧
    ∃ s x, logLine c = s ++ [x] ∧ isSpace x = false := by
  have hts := strInt_isWord c.committerTime
  constructor
  · cases hsha : c.sha.val with
    | nil => exact absurd hsha c.sha.2.1
    | cons x s =>
      exact ⟨x, _, by rw [logLine, hsha]; rfl, c.sha.2.2 x (by rw [hsha]; exact List.mem_cons_self)⟩
  · obtain ⟨s, x, hx⟩ := (List.eq_nil_or_concat' (strInt c.committerTime).toList).resolve_left hts.1
    exact ⟨c.sha.val ++ Char.ofNat 9 :: s, x, by simp [logLine, hx], hts.2 x (by simp [hx])⟩

theorem carriageReturn_not_mem_logLine (c : Commit) : carriageReturn ∉ logLine c := fun h =>
  absurd (logLine_oneLine c _ h) (by decide)

theorem firstLine_log (m : Commit) (rest : List Commit) :
    ∃ lines, splitlines (runGit ((m :: rest).flatMap fun c => logLine c ++ [newline])) =
      logLine m :: lines := by
  have hrun : ∀ b, ∃ t, runGit (logLine m ++ newline :: b) = logLine m ++ t ∧
      (t = [] ∨ ∃ u, t = newline :: u) := by
    intro b
    refine ⟨_, ?_, rstrip_cons newline (universalNewlines b)⟩
    have hnewline : universalNewlines (newline :: b) = newline :: universalNewlines b := by
      rw [universalNewlines, if_neg (by decide)]
    rw [runGit, universalNewlines_append (carriageReturn_not_mem_logLine m), hnewline,
      strip_append (logLine_ends m).1 (logLine_ends m).2]
  obtain ⟨t, ht, hcases⟩ := hrun (rest.flatMap fun c => logLine c ++ [newline])
  obtain ⟨x, s, hxs, -⟩ := (logLine_ends m).1
  rw [List.flatMap_cons, List.append_assoc, List.singleton_append, ht]
  exact head_splitlines (logLine_oneLine m) (by rw [hxs]; exact List.cons_ne_nil _ _) hcases

theorem splitOnP_logLine (c : Commit) :
    (logLine c).splitOnP (· = Char.ofNat 9) = [c.sha.val, (strInt c.committerTime).toList] := by
  have htab : ∀ {s : List Char}, IsWord s → ∀ x ∈ s, decide (x = Char.ofNat 9) = false := by
    intro s hs x hx
    rw [decide_eq_false_iff_not]
    rintro rfl
    exact absurd (hs.2 _ hx) (by decide)
  rw [logLine, List.splitOnP_append_cons_of_forall_mem (htab c.sha.2) _ (by decide),
    List.splitOnP_eq_singleton (htab (strInt_isWord c.committerTime))]

/-- The script finds the nearest earlier commit whose message mentions `policy:`. -/
theorem prevPolicyCommit_eq (head : Commit) (earlier : List Commit) :
    prevPolicyCommit (head :: earlier) =
      match earlier.find? Mentions with
      | none => .ok none
      | some m => (fromTimestamp m.committerTime).map fun time => some (m.sha.val, time) := by
  cases earlier with
  | nil => rfl
  | cons c cs =>
    rw [← List.head?_filter, prevPolicyCommit, gitPolicyLog]
    · dsimp only
      cases (c :: cs).filter Mentions with
      | nil => rfl
      | cons m rest =>
        obtain ⟨lines, hlines⟩ := firstLine_log m rest
        have hne : runGit ((m :: rest).flatMap fun c => logLine c ++ [newline]) ≠ [] := by
          intro hnil
          rw [hnil] at hlines
          cases hlines
        rw [if_neg hne, hlines, List.headD_cons, splitOnP_logLine]
        dsimp only
        rw [parseInt_strInt, Except.bind, List.head?_cons]
        dsimp only
        cases fromTimestamp m.committerTime <;> rfl
    · exact List.cons_ne_nil c cs

end Output

/-- `main` on a history whose HEAD is a policy commit: what counts is the nearest mention. -/
theorem main_eq {head : Commit} (h : IsPolicy head) (earlier : List Commit) (now : Int) :
    main now (head :: earlier) = .ok .pass ↔
      ∀ m, earlier.find? Mentions = some m → Representable m.committerTime ∧ Cooled now m := by
  rw [main, if_pos (headSubject_of_isPolicy h earlier), prevPolicyCommit_eq]
  cases earlier.find? Mentions with
  | none => simp
  | some m =>
    by_cases hrange : Representable m.committerTime
    · by_cases hcooled : Cooled now m
      · have hwindow : coolingWindow ≤ now - m.committerTime * 1000000 := hcooled
        simp [fromTimestamp, hrange, Except.map, hwindow, hcooled]
      · have hwindow : ¬ coolingWindow ≤ now - m.committerTime * 1000000 := hcooled
        simp [fromTimestamp, hrange, Except.map, hwindow, hcooled]
    · simp [fromTimestamp, hrange, Except.map]

theorem map_exitCode_eq_zero {result : Except NumeralErr Outcome} :
    result.map Outcome.exitCode = .ok 0 ↔ result = .ok .pass := by
  cases result with
  | error e => simp [Except.map]
  | ok outcome => cases outcome <;> simp [Except.map, Outcome.exitCode]

section Subjects

theorem trimLine_isPrefixOf (line : List Char) : Commit.trimLine line <+: line := by
  unfold Commit.trimLine
  rw [← List.reverse_suffix, List.reverse_reverse]
  exact List.dropWhile_suffix _

theorem prefix_of_prefix_intercalate {p l : List Char} {ls : List (List Char)} (hp : ' ' ∉ p)
    (h : p <+: List.intercalate [' '] (l :: ls)) : p <+: l := by
  cases ls with
  | nil => simpa using h
  | cons l' ls =>
    rw [List.intercalate_cons_cons, List.append_assoc] at h
    rcases List.prefix_or_prefix_of_prefix h (List.prefix_append l _) with hpl | ⟨t, rfl⟩
    · exact hpl
    · cases t with
      | nil => simp
      | cons c t =>
        rw [List.prefix_append_right_inj] at h
        obtain ⟨u, hu⟩ := h
        exact absurd (by simp [(List.cons.inj hu).1]) hp

theorem IsPolicy.mentions {c : Commit} (h : IsPolicy c) : Mentions c := by
  unfold IsPolicy Commit.subject at h
  cases hlines : ((c.lines.map Commit.trimLine).dropWhile (· = [])).takeWhile (· ≠ []) with
  | nil =>
    rw [hlines] at h
    exact absurd h policyPrefix_not_prefix_nil
  | cons l ls =>
    rw [hlines] at h
    have hmem : l ∈ c.lines.map Commit.trimLine :=
      (List.dropWhile_suffix _).subset ((List.takeWhile_prefix _).subset (by rw [hlines]; simp))
    obtain ⟨line, hline, rfl⟩ := List.mem_map.mp hmem
    have hfirst := prefix_of_prefix_intercalate (by decide) h
    exact ⟨line, hline, hfirst.trans (trimLine_isPrefixOf line)⟩

end Subjects

def AllCooled (now : Int) (earlier : List Commit) : Prop :=
  ∀ c ∈ earlier, IsPolicy c → Cooled now c

instance (now : Int) (earlier : List Commit) : Decidable (AllCooled now earlier) :=
  List.decidableBAll (fun c => IsPolicy c → Cooled now c) earlier

/-- The nearest mention is a young commit that is no policy commit, and all of these are old. -/
def YoungMention (now : Int) (earlier : List Commit) : Prop :=
  ∃ m, earlier.find? Mentions = some m ∧ ¬ IsPolicy m ∧ ¬ Cooled now m ∧ AllCooled now earlier

/-- The nearest mention is old, and a policy commit further back is young. -/
def YoungBehindOld (now : Int) (earlier : List Commit) : Prop :=
  ∃ m, earlier.find? Mentions = some m ∧ Representable m.committerTime ∧ Cooled now m ∧
    ∃ c ∈ earlier, IsPolicy c ∧ ¬ Cooled now c

/-- The nearest mention is older than `datetime.min`. -/
def BeforeYearOne (now : Int) (earlier : List Commit) : Prop :=
  ∃ m, earlier.find? Mentions = some m ∧ ¬ Representable m.committerTime ∧ Cooled now m ∧
    AllCooled now earlier

section Histories

def commitAt (sha : Char) (hsha : isSpace sha = false) (lines : List String) (time : Int) :
    Commit :=
  ⟨⟨[sha], List.cons_ne_nil _ _, by simpa using hsha⟩,
    List.intercalate [newline] (lines.map String.toList), time⟩

end Histories

end Cooling

end Athena
