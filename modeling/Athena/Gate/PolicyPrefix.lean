import Athena.Gate.Cooling
import Athena.Library.Framing

/-!
# The policy prefix in the hook and in the gates

`check_policy_prefix` reads the message file before git stores it, and the two
gates read the subject of the stored commit. Python passes over every blank line
and every white-space character in front of the prefix; git takes only four of
these characters for white space, and a byte order mark stays in the message.
-/

namespace Athena

def byteOrderMark : Char := Char.ofNat 0xFEFF

/-- The incremental `utf-8-sig` decoder: a mark at the start is dropped, and of a file that is
a part of the mark nothing is decoded. Nothing if the bytes are not UTF-8. -/
def decodeUtf8Sig (bytes : Bytes) : Option (List Char) :=
  if bytes.length < 3 ∧ bytes <+: [0xEF, 0xBB, 0xBF] then some []
  else (String.fromUTF8? bytes.toByteArray).map fun text =>
    if text.toList.head? = some byteOrderMark then text.toList.tail else text.toList

namespace PolicyPrefix

/-- The alternatives of `POLICY_FILES`. -/
def policyFiles : List (List Char) :=
  ["config/policy.toml".toList, "config/flag_registry.toml".toList,
    "packages/athena-core/athena/core/flags.py".toList]

/-- `POLICY_FILES.match(f)`. -/
def matchesPolicyFile (file : List Char) : Bool :=
  policyFiles.any fun name => name.isPrefixOf file && atEnd (file.drop name.length)

/-- `staged_files`, on what `git diff --cached --name-only` prints. -/
def stagedFiles (stdout : List Char) : List (List Char) :=
  (splitlines (universalNewlines stdout)).filter (· ≠ [])

def policyTouched (stdout : List Char) : List (List Char) :=
  (stagedFiles stdout).filter matchesPolicyFile

/-- The first line of a decoded text that is not blank, stripped. -/
def firstLine (text : List Char) : List Char :=
  (((splitlines (universalNewlines text)).map strip).find? (· ≠ [])).getD []

inductive Verdict
  | usage
  | accepted
  | rejected (policyTouched : List (List Char))
  deriving DecidableEq, Repr

def Verdict.exitCode : Verdict → ℕ
  | usage => 2
  | accepted => 0
  | rejected _ => 1

/-- What is printed to `stderr`. The names of policy files need no escapes. -/
def Verdict.message : Verdict → String
  | usage => "usage: check_policy_prefix.py <commit-msg-path>"
  | accepted => ""
  | rejected policyTouched =>
    "policy file(s) changed [" ++
      String.intercalate ", " (policyTouched.map fun f => "'" ++ String.ofList f ++ "'") ++
      "] but commit message prefix != 'policy:' " ++
      "— use `git commit -m 'policy: ...'` or revert the policy change."

/-- The message, if it can be decoded; a file that does not exist counts as empty. -/
def readMessage : Option Bytes → Option (List Char)
  | none => some []
  | some bytes => decodeUtf8Sig bytes

/-- `main`; nothing if the message cannot be decoded. -/
def main (argv : List String) (files : String → Option Bytes) (stdout : List Char) :
    Option Verdict :=
  match argv with
  | _ :: path :: _ =>
    (readMessage (files path)).map fun text =>
      let touched := policyTouched stdout
      if touched = [] then .accepted
      else if Cooling.policyPrefix.isPrefixOf (firstLine text) then .accepted
      else .rejected touched
  | _ => some .usage

end PolicyPrefix

namespace PaperReplay

structure Payload where
  errorCode : String
  headSha : List Char
  expectedTag : List Char
  deriving DecidableEq, Repr

inductive Outcome
  | skipped
  | marked
  | missing (payload : Payload)
  deriving DecidableEq, Repr

def Outcome.exitCode : Outcome → ℕ
  | skipped => 0
  | marked => 0
  | missing _ => 1

/-- `head_subject`, which is the same in both gates. -/
def headSubject (history : List Commit) : List Char := Cooling.headSubject history

/-- `main`, on what `git rev-parse --short=7 HEAD` and `git tag --list` print. -/
def main (revParse : List Char) (tagList : List Char → List Char) (history : List Commit) :
    Outcome :=
  if Cooling.policyPrefix.isPrefixOf (headSubject history) then
    let short := Cooling.runGit revParse
    let tag := "paper-replay-ok/".toList ++ short
    if tag ∈ splitlines (Cooling.runGit (tagList tag)) then .marked
    else .missing ⟨"PAPER_REPLAY_MISSING", short, tag⟩
  else .skipped

end PaperReplay

namespace Commit

def linesOf (text : List Char) : List (List Char) := text.splitOnP (· = newline)

def isKept (line : List Char) : Bool := line.head? ≠ some '#'

/-- The lines of a message that git keeps, without the white space at their ends. -/
def keptLines (text : List Char) : List (List Char) :=
  ((linesOf text).filter isKept).map trimLine

/-- What git stores of a message, up to the number of blank lines between two paragraphs: no
comment lines, no blank lines at either end and no white space at the end of a line. Git also
makes one blank line of several; only the first paragraph is read here. -/
def cleanup (text : List Char) : List Char :=
  (((keptLines text).dropWhile (· = [])).rdropWhile (· = [])).flatMap fun line => line ++ [newline]

/-- The first paragraph that git keeps of a message. -/
def firstParagraph (text : List Char) : List (List Char) :=
  ((keptLines text).dropWhile (· = [])).takeWhile (· ≠ [])

end Commit

section Text

theorem dropWhile_isSpace_of_blank {w : List Char} (hw : ∀ c ∈ w, isSpace c = true)
    (s : List Char) : (w ++ s).dropWhile isSpace = s.dropWhile isSpace := by
  rw [List.dropWhile_append, if_pos]
  rw [List.isEmpty_iff, List.dropWhile_eq_nil_iff]
  exact hw

theorem strip_of_blank {w : List Char} (hw : ∀ c ∈ w, isSpace c = true) : strip w = [] := by
  have hdrop : w.dropWhile isSpace = [] := List.dropWhile_eq_nil_iff.mpr hw
  rw [strip_eq, hdrop]
  rfl

theorem prefix_rstrip_iff {p : List Char} (hp : ∃ s c, p = s ++ [c] ∧ isSpace c = false)
    (s : List Char) : p <+: rstrip s ↔ p <+: s := by
  constructor
  · intro h
    exact h.trans (List.rdropWhile_prefix isSpace s)
  · intro h
    obtain ⟨t, rfl⟩ := h
    exact ⟨_, (rdropWhile_append_of_neg hp t).symm⟩

theorem prefix_takeWhile_iff {p : List Char} {q : Char → Bool} (hp : ∀ c ∈ p, q c = true)
    (s : List Char) : p <+: s.takeWhile q ↔ p <+: s := by
  constructor
  · intro h
    exact h.trans (List.takeWhile_prefix q)
  · intro h
    obtain ⟨t, rfl⟩ := h
    rw [List.takeWhile_append_of_pos hp]
    exact List.prefix_append _ _

theorem splitlinesFrom_cons {line : List Char} (hline : line ≠ []) (s : List Char) :
    ∃ lines, splitlinesFrom false line s =
      (line ++ s.takeWhile fun c => !isLineBreak c) :: lines := by
  induction s generalizing line with
  | nil => exact ⟨[], by simp [splitlinesFrom, hline]⟩
  | cons c s ih =>
    rw [splitlinesFrom, Bool.false_and, if_neg Bool.false_ne_true]
    by_cases hc : isLineBreak c = true
    · rw [if_pos hc, List.takeWhile_cons_of_neg (by simp [hc]), List.append_nil]
      exact ⟨_, rfl⟩
    · obtain ⟨lines, hlines⟩ := @ih (line ++ [c]) (by simp)
      rw [if_neg hc, List.takeWhile_cons_of_pos (by simp [hc]), hlines, List.append_assoc]
      exact ⟨lines, rfl⟩

theorem isSpace_of_isLineBreak {c : Char} (h : isLineBreak c = true) : isSpace c = true := by
  by_contra hc
  rw [isLineBreak_of_not_isSpace (by simpa using hc)] at h
  cases h

/-- The first line that is not blank begins where the text begins, white space apart. By
induction on the text, behind a blank start of a line. -/
theorem find_strip_splitlines (s : List Char) {line : List Char} {afterReturn : Bool}
    (hline : ∀ c ∈ line, isSpace c = true) :
    (((splitlinesFrom afterReturn line s).map strip).find? (· ≠ [])).getD [] =
      rstrip ((s.dropWhile isSpace).takeWhile fun c => !isLineBreak c) := by
  induction s generalizing line afterReturn with
  | nil =>
    unfold splitlinesFrom
    split_ifs with hempty
    · rfl
    · simp [strip_of_blank hline, rstrip]
  | cons c s ih =>
    have hskip := @ih []
    unfold splitlinesFrom
    split_ifs with hreturn hbreak
    · have hc : c = newline := by simpa using (Bool.and_eq_true_iff.mp hreturn).2
      rw [hskip (by simp), hc, List.dropWhile_cons_of_pos (by decide)]
    · rw [List.map_cons, strip_of_blank hline, List.find?_cons_of_neg (by simp), hskip (by simp),
        List.dropWhile_cons_of_pos (isSpace_of_isLineBreak hbreak)]
    · by_cases hc : isSpace c = true
      · have hnext : ∀ d ∈ line ++ [c], isSpace d = true := by
          intro d hd
          rcases List.mem_append.mp hd with hd | hd
          · exact hline d hd
          · rw [List.mem_singleton.mp hd]
            exact hc
        rw [ih hnext, List.dropWhile_cons_of_pos hc]
      · obtain ⟨lines, hlines⟩ := @splitlinesFrom_cons (line ++ [c]) (by simp) s
        have hstrip : strip (line ++ [c] ++ s.takeWhile fun c => !isLineBreak c) =
            rstrip (c :: s.takeWhile fun c => !isLineBreak c) := by
          rw [strip_eq, List.append_assoc, dropWhile_isSpace_of_blank hline,
            List.singleton_append, List.dropWhile_cons_of_neg hc]
        have hne : rstrip (c :: s.takeWhile fun c => !isLineBreak c) ≠ [] := by
          have hstart := (prefix_rstrip_iff (p := [c]) ⟨[], c, rfl, by simpa using hc⟩
            (c :: s.takeWhile fun c => !isLineBreak c)).mpr ⟨_, rfl⟩
          intro hnil
          rw [hnil] at hstart
          exact absurd (List.prefix_nil.mp hstart) (List.cons_ne_nil c [])
        rw [hlines, List.map_cons, hstrip, List.find?_cons_of_pos (by simpa using hne),
          List.dropWhile_cons_of_neg hc, List.takeWhile_cons_of_pos (by simpa using hbreak)]
        rfl

theorem dropWhile_universalNewlines (s : List Char) :
    (universalNewlines s).dropWhile isSpace = universalNewlines (s.dropWhile isSpace) := by
  induction s with
  | nil => rfl
  | cons c s ih =>
    rw [universalNewlines]
    split_ifs with hreturn hnext
    · rw [ih, hreturn, List.dropWhile_cons_of_pos (by decide)]
    · rw [hreturn, List.dropWhile_cons_of_pos (by decide), List.dropWhile_cons_of_pos (by decide),
        ih]
    · by_cases hc : isSpace c = true
      · rw [List.dropWhile_cons_of_pos hc, List.dropWhile_cons_of_pos hc, ih]
      · rw [List.dropWhile_cons_of_neg hc, List.dropWhile_cons_of_neg hc, universalNewlines,
          if_neg hreturn]

theorem universalNewlines_carriageReturn (s : List Char) :
    ∃ t, universalNewlines (carriageReturn :: s) = newline :: t := by
  rw [universalNewlines, if_pos rfl]
  cases s with
  | nil => exact ⟨[], rfl⟩
  | cons c s =>
    by_cases hc : c = newline
    · rw [if_pos (by rw [hc]; rfl), universalNewlines, hc, if_neg (by decide)]
      exact ⟨_, rfl⟩
    · rw [if_neg (by simpa using hc)]
      exact ⟨_, rfl⟩

theorem prefix_universalNewlines_iff {p : List Char} (hp : ∀ c ∈ p, isSpace c = false)
    (s : List Char) : p <+: universalNewlines s ↔ p <+: s := by
  induction p generalizing s with
  | nil => simp
  | cons x p ih =>
    obtain ⟨hx, hrest⟩ := List.forall_mem_cons.mp hp
    cases s with
    | nil => rfl
    | cons c s =>
      by_cases hreturn : c = carriageReturn
      · obtain ⟨t, ht⟩ := universalNewlines_carriageReturn s
        have hnewline : x ≠ newline := fun heq => absurd hx (by rw [heq]; decide)
        have hne : x ≠ carriageReturn := fun heq => absurd hx (by rw [heq]; decide)
        rw [hreturn, ht, List.cons_prefix_cons, List.cons_prefix_cons]
        simp [hnewline, hne]
      · rw [universalNewlines, if_neg hreturn, List.cons_prefix_cons, List.cons_prefix_cons,
          ih hrest]

end Text

section Hook

theorem policyPrefix_noSpace : ∀ c ∈ Cooling.policyPrefix, isSpace c = false := by
  delta Cooling.policyPrefix
  simp [isSpace]

/-- The hook sees the prefix if nothing but white space stands in front of it. -/
theorem prefix_firstLine_iff (text : List Char) :
    Cooling.policyPrefix <+: PolicyPrefix.firstLine text ↔
      Cooling.policyPrefix <+: text.dropWhile isSpace := by
  have hline : ∀ c ∈ Cooling.policyPrefix, (!isLineBreak c) = true := by
    intro c hc
    rw [isLineBreak_of_not_isSpace (policyPrefix_noSpace c hc)]
    rfl
  unfold PolicyPrefix.firstLine
  rw [splitlines, find_strip_splitlines _ (by simp),
    prefix_rstrip_iff Cooling.policyPrefix_ends.2, prefix_takeWhile_iff hline,
    dropWhile_universalNewlines, prefix_universalNewlines_iff policyPrefix_noSpace]

/-- A gate sees the prefix if nothing but white space stands in front of it in the subject. -/
theorem prefix_headSubject_iff (c : Commit) (earlier : List Commit) :
    Cooling.policyPrefix <+: Cooling.headSubject (c :: earlier) ↔
      Cooling.policyPrefix <+: c.subject.dropWhile isSpace := by
  have hrun : Cooling.headSubject (c :: earlier) =
      strip (universalNewlines (c.subject ++ [newline])) := rfl
  rw [hrun, strip_eq, prefix_rstrip_iff Cooling.policyPrefix_ends.2, dropWhile_universalNewlines,
    prefix_universalNewlines_iff policyPrefix_noSpace, List.dropWhile_append]
  split_ifs with hempty
  · have hnewline : [newline].dropWhile isSpace = [] := by decide
    rw [hnewline, List.isEmpty_iff.mp hempty]
  · rw [List.prefix_concat_iff]
    constructor
    · intro h
      rcases h with h | h
      · have hmem : newline ∈ Cooling.policyPrefix := by
          rw [h]
          exact List.mem_append_right _ List.mem_cons_self
        exact absurd (policyPrefix_noSpace newline hmem) (by decide)
      · exact h
    · exact Or.inr

end Hook

theorem dropWhile_of_policyPrefix {s : List Char} (h : Cooling.policyPrefix <+: s) :
    s.dropWhile isSpace = s := by
  obtain ⟨t, rfl⟩ := h
  have hcons : Cooling.policyPrefix ++ t = 'p' :: ("olicy:".toList ++ t) := rfl
  rw [hcons, List.dropWhile_cons_of_neg (by decide)]

section Stored

open Commit

theorem newline_notMem_of_mem_linesOf {text line : List Char} (h : line ∈ linesOf text) :
    newline ∉ line := by
  have hsep : linesOf text = text.splitOn newline := by
    unfold linesOf List.splitOn
    congr 1
  rw [hsep] at h
  exact Framing.separatorFree_splitOn newline text line h

theorem linesOf_flatMap {lines : List (List Char)} (h : ∀ line ∈ lines, newline ∉ line) :
    linesOf (lines.flatMap fun line => line ++ [newline]) = lines ++ [[]] := by
  induction lines with
  | nil => rfl
  | cons line lines ih =>
    obtain ⟨hline, hlines⟩ := List.forall_mem_cons.mp h
    have hfree : ∀ c ∈ line, decide (c = newline) = false := by
      intro c hc
      rw [decide_eq_false_iff_not]
      intro heq
      exact hline (heq ▸ hc)
    rw [List.flatMap_cons, List.append_assoc, List.singleton_append, linesOf,
      List.splitOnP_append_cons_of_forall_mem hfree newline (by decide), List.cons_append]
    exact congrArg _ (ih hlines)

theorem trimLine_trimLine (line : List Char) : trimLine (trimLine line) = trimLine line := by
  unfold trimLine
  rw [List.reverse_reverse, List.dropWhile_idempotent]

theorem newline_notMem_of_mem_keptLines {text line : List Char} (h : line ∈ keptLines text) :
    newline ∉ line ∧ trimLine line = line := by
  obtain ⟨raw, hraw, rfl⟩ := List.mem_map.mp h
  refine ⟨?_, trimLine_trimLine raw⟩
  intro hmem
  exact newline_notMem_of_mem_linesOf (List.mem_filter.mp hraw).1
    ((Cooling.trimLine_isPrefixOf raw).subset hmem)

theorem takeWhile_append_of_neg {α : Type*} {q : α → Bool} {b : List α} (hb : ∀ y ∈ b, q y = false)
    (a : List α) : (a ++ b).takeWhile q = a.takeWhile q := by
  induction a with
  | nil =>
    cases b with
    | nil => rfl
    | cons y b => rw [List.nil_append, List.takeWhile_cons_of_neg (by simp [hb y])]; rfl
  | cons x a ih =>
    rw [List.cons_append, List.takeWhile_cons, List.takeWhile_cons, ih]

theorem takeWhile_rdropWhile {lines : List (List Char)}
    (h : lines.dropWhile (· = []) = lines) :
    ((lines.rdropWhile (· = []) ++ [[]]).dropWhile (· = [])).takeWhile (· ≠ []) =
      lines.takeWhile (· ≠ []) := by
  have hsplit : lines.rdropWhile (· = []) ++ lines.rtakeWhile (· = []) = lines :=
    List.rdropWhile_append_rtakeWhile
  have htail : ∀ line ∈ lines.rtakeWhile (· = []), decide (line ≠ []) = false := by
    intro line hline
    simpa using List.mem_rtakeWhile_imp hline
  have hfront : (lines.rdropWhile (· = [])).takeWhile (· ≠ []) = lines.takeWhile (· ≠ []) := by
    rw [← takeWhile_append_of_neg htail, hsplit]
  rw [← hfront]
  cases hbody : lines.rdropWhile (· = []) with
  | nil => rfl
  | cons first rest =>
    have hfirst : first ≠ [] := by
      intro hempty
      rw [hbody, List.cons_append] at hsplit
      rw [← hsplit, List.dropWhile_cons_of_pos (by simpa using hempty)] at h
      have hlength := congrArg List.length h
      have hle := (List.dropWhile_suffix (l := rest ++ lines.rtakeWhile (· = []))
        fun line : List Char => decide (line = [])).length_le
      rw [List.length_cons] at hlength
      omega
    rw [List.cons_append, List.dropWhile_cons_of_neg (by simpa using hfirst), ← List.cons_append]
    exact takeWhile_append_of_neg (by simp) _

theorem subject_cleanup {c : Commit} {text : List Char} (h : c.message = cleanup text) :
    c.subject = List.intercalate [' '] (firstParagraph text) := by
  have hlines : c.lines.map trimLine =
      ((keptLines text).dropWhile (· = [])).rdropWhile (· = []) ++ [[]] := by
    have hall : ∀ line ∈ ((keptLines text).dropWhile (· = [])).rdropWhile (· = []),
        newline ∉ line ∧ trimLine line = line := by
      intro line hline
      exact newline_notMem_of_mem_keptLines
        ((List.dropWhile_suffix _).subset ((List.rdropWhile_prefix _ _).subset hline))
    have hfound : c.lines =
        ((keptLines text).dropWhile (· = [])).rdropWhile (· = []) ++ [[]] := by
      rw [← linesOf_flatMap fun line hline => (hall line hline).1]
      exact congrArg linesOf h
    rw [hfound, List.map_append, List.map_congr_left fun line hline => (hall line hline).2]
    simp [trimLine]
  rw [Commit.subject, hlines, takeWhile_rdropWhile (List.dropWhile_idempotent _ _)]
  rfl

theorem linesOf_newline_cons (text : List Char) :
    linesOf (newline :: text) = [] :: linesOf text := by
  unfold linesOf
  rw [List.splitOnP_cons_eq_if_modifyHead, if_pos (decide_eq_true rfl)]

theorem linesOf_cons {c : Char} (hc : c ≠ newline) (text : List Char) :
    linesOf (c :: text) = (linesOf text).modifyHead (List.cons c) := by
  unfold linesOf
  rw [List.splitOnP_cons_eq_if_modifyHead, if_neg (by simpa using hc)]

theorem linesOf_append {p : List Char} (hp : newline ∉ p) (text : List Char) :
    ∃ rest more, linesOf (p ++ text) = (p ++ rest) :: more := by
  induction p with
  | nil =>
    cases hlines : linesOf text with
    | nil => exact absurd hlines (List.splitOnP_ne_nil _ text)
    | cons line more => exact ⟨line, more, hlines⟩
  | cons c p ih =>
    obtain ⟨hc, hrest⟩ := not_or.mp (List.mem_cons.not.mp hp)
    obtain ⟨rest, more, hlines⟩ := ih hrest
    refine ⟨rest, more, ?_⟩
    rw [List.cons_append, linesOf_cons (Ne.symm hc), hlines]
    rfl

/-- The lines of a message in front of the prefix, and the line it begins. By induction on
the white space in front of it. -/
theorem exists_line_of_prefix {text : List Char}
    (h : Cooling.policyPrefix <+: text.dropWhile isSpace) :
    ∃ blanks line more, linesOf text = blanks ++ line :: more ∧
      (∀ b ∈ blanks, ∀ c ∈ b, isSpace c = true) ∧
      Cooling.policyPrefix <+: line.dropWhile isSpace := by
  induction text with
  | nil => exact absurd h Cooling.policyPrefix_not_prefix_nil
  | cons c text ih =>
    by_cases hc : isSpace c = true
    · rw [List.dropWhile_cons_of_pos hc] at h
      obtain ⟨blanks, line, more, hlines, hblanks, hline⟩ := ih h
      by_cases hnewline : c = newline
      · refine ⟨[] :: blanks, line, more, ?_, ?_, hline⟩
        · rw [hnewline, linesOf_newline_cons, hlines, List.cons_append]
        · simpa using hblanks
      · rw [linesOf_cons hnewline, hlines]
        cases blanks with
        | nil => exact ⟨[], c :: line, more, rfl, by simp, by rwa [List.dropWhile_cons_of_pos hc]⟩
        | cons b blanks =>
          obtain ⟨hb, hrest⟩ := List.forall_mem_cons.mp hblanks
          refine ⟨(c :: b) :: blanks, line, more, rfl, ?_, hline⟩
          exact List.forall_mem_cons.mpr ⟨List.forall_mem_cons.mpr ⟨hc, hb⟩, hrest⟩
    · rw [List.dropWhile_cons_of_neg hc] at h
      obtain ⟨rest, hrest⟩ := h
      obtain ⟨l, more, hlines⟩ := linesOf_append (p := Cooling.policyPrefix) (by decide) rest
      rw [hrest] at hlines
      refine ⟨[], _, more, hlines, by simp, ?_⟩
      rw [dropWhile_of_policyPrefix (List.prefix_append _ _)]
      exact List.prefix_append _ _

theorem prefix_trimLine {line : List Char}
    (h : Cooling.policyPrefix <+: line.dropWhile isSpace) :
    Cooling.policyPrefix <+: (trimLine line).dropWhile isSpace := by
  obtain ⟨rest, hrest⟩ := h
  have hsplit : line.takeWhile isSpace ++ Cooling.policyPrefix ++ rest = line := by
    rw [List.append_assoc, hrest, List.takeWhile_append_dropWhile]
  have htrim : ∃ t, trimLine (line.takeWhile isSpace ++ Cooling.policyPrefix ++ rest) =
      line.takeWhile isSpace ++ Cooling.policyPrefix ++ t := by
    refine ⟨_, rdropWhile_append_of_neg ?_ rest⟩
    exact ⟨line.takeWhile isSpace ++ "policy".toList, ':', by rw [List.append_assoc]; rfl,
      by decide⟩
  obtain ⟨t, ht⟩ := htrim
  rw [hsplit] at ht
  rw [ht, List.append_assoc, dropWhile_isSpace_of_blank fun c => List.mem_takeWhile_imp,
    dropWhile_of_policyPrefix (List.prefix_append _ _)]
  exact List.prefix_append _ _

/-- The lines that git keeps: some white space, the line of the prefix, and the rest. -/
theorem keptLines_eq {text : List Char} (h : Cooling.policyPrefix <+: text.dropWhile isSpace) :
    ∃ blanks line more, keptLines text = blanks ++ line :: more ∧
      (∀ b ∈ blanks, ∀ c ∈ b, isSpace c = true) ∧
      Cooling.policyPrefix <+: line.dropWhile isSpace := by
  obtain ⟨blanks, line, more, hlines, hblanks, hline⟩ := exists_line_of_prefix h
  have hkeep : ∀ b ∈ blanks, isKept b = true := by
    intro b hb
    rw [isKept, decide_eq_true_eq]
    intro hhead
    exact absurd (hblanks b hb '#' (List.mem_of_head? hhead)) (by decide)
  have hkeep' : isKept line = true := by
    rw [isKept, decide_eq_true_eq]
    intro hhead
    obtain ⟨rest, rfl⟩ := List.head?_eq_some_iff.mp hhead
    rw [List.dropWhile_cons_of_neg (by decide)] at hline
    obtain ⟨t, ht⟩ := hline
    exact absurd (List.cons.inj ht).1 (by decide)
  have hkept : keptLines text = blanks.map trimLine ++ trimLine line ::
      (more.filter isKept).map trimLine := by
    rw [keptLines, hlines, List.filter_append, List.filter_eq_self.mpr hkeep,
      List.filter_cons_of_pos hkeep', List.map_append, List.map_cons]
  refine ⟨_, _, _, hkept, ?_, prefix_trimLine hline⟩
  intro b hb c hc
  obtain ⟨raw, hraw, rfl⟩ := List.mem_map.mp hb
  exact hblanks raw hraw c ((Cooling.trimLine_isPrefixOf raw).subset hc)

/-- The first paragraph reaches the line of the prefix, or it is white space throughout. -/
theorem firstParagraph_cases {text : List Char}
    (h : Cooling.policyPrefix <+: text.dropWhile isSpace) :
    (∃ blanks line more, firstParagraph text = blanks ++ line :: more ∧
      (∀ b ∈ blanks, ∀ c ∈ b, isSpace c = true) ∧
      Cooling.policyPrefix <+: line.dropWhile isSpace) ∨
    ∀ line ∈ firstParagraph text, ∀ c ∈ line, isSpace c = true := by
  obtain ⟨blanks, line, more, hkept, hblanks, hline⟩ := keptLines_eq h
  have hne : line ≠ [] := by
    intro hempty
    rw [hempty] at hline
    exact Cooling.policyPrefix_not_prefix_nil hline
  have hdrop : (blanks ++ line :: more).dropWhile (· = []) =
      blanks.dropWhile (· = []) ++ line :: more := by
    rw [List.dropWhile_append]
    split_ifs with hempty
    · rw [List.isEmpty_iff.mp hempty, List.nil_append,
        List.dropWhile_cons_of_neg (by simpa using hne)]
    · rfl
  have hfront : ∀ b ∈ blanks.dropWhile (· = []), ∀ c ∈ b, isSpace c = true :=
    fun b hb => hblanks b ((List.dropWhile_suffix _).subset hb)
  rw [firstParagraph, hkept, hdrop, List.takeWhile_append]
  split_ifs
  · left
    rw [List.takeWhile_cons_of_pos (by simpa using hne)]
    exact ⟨_, line, _, rfl, hfront, hline⟩
  · right
    exact fun b hb => hfront b ((List.takeWhile_prefix _).subset hb)

theorem exists_intercalate_eq (line : List Char) (more : List (List Char)) :
    ∃ t, List.intercalate [' '] (line :: more) = line ++ t := by
  cases more with
  | nil => exact ⟨[], by simp⟩
  | cons next more => exact ⟨_, by rw [List.intercalate_cons_cons, List.append_assoc]⟩

/-- Lines of white space do not hide the prefix in a subject. -/
theorem prefix_intercalate {blanks : List (List Char)} {line : List Char}
    (hblanks : ∀ b ∈ blanks, ∀ c ∈ b, isSpace c = true)
    (hline : Cooling.policyPrefix <+: line.dropWhile isSpace) (more : List (List Char)) :
    Cooling.policyPrefix <+:
      (List.intercalate [' '] (blanks ++ line :: more)).dropWhile isSpace := by
  induction blanks with
  | nil =>
    obtain ⟨t, ht⟩ := exists_intercalate_eq line more
    rw [List.nil_append, ht, List.dropWhile_append]
    split_ifs with hempty
    · rw [List.isEmpty_iff.mp hempty] at hline
      exact absurd hline Cooling.policyPrefix_not_prefix_nil
    · exact hline.trans (List.prefix_append _ _)
  | cons b blanks ih =>
    obtain ⟨hb, hrest⟩ := List.forall_mem_cons.mp hblanks
    have hcons : List.intercalate [' '] (b :: blanks ++ line :: more) =
        b ++ ([' '] ++ List.intercalate [' '] (blanks ++ line :: more)) := by
      rw [List.cons_append, List.intercalate_cons_of_ne_nil (by simp), List.append_assoc]
    rw [hcons, dropWhile_isSpace_of_blank hb, dropWhile_isSpace_of_blank (by simp [isSpace])]
    exact ih hrest

theorem isSpace_of_mem_intercalate {lines : List (List Char)}
    (h : ∀ l ∈ lines, ∀ c ∈ l, isSpace c = true) :
    ∀ c ∈ List.intercalate [' '] lines, isSpace c = true := by
  induction lines with
  | nil => simp
  | cons l lines ih =>
    obtain ⟨hl, hrest⟩ := List.forall_mem_cons.mp h
    cases lines with
    | nil => simpa using hl
    | cons next lines =>
      rw [List.intercalate_cons_cons, List.forall_mem_append, List.forall_mem_append]
      exact ⟨⟨hl, by simp [isSpace]⟩, ih hrest⟩

end Stored

theorem PaperReplay.main_ne_skipped {history : List Commit}
    (h : Cooling.policyPrefix <+: headSubject history) {revParse : List Char}
    {tagList : List Char → List Char} : main revParse tagList history ≠ .skipped := by
  unfold main
  rw [if_pos (List.isPrefixOf_iff_prefix.mpr h)]
  dsimp only
  split_ifs <;> simp

namespace PolicyPrefix

/-- Both gates take HEAD for a policy commit. -/
def Recognised (history : List Commit) : Prop :=
  Cooling.policyPrefix <+: Cooling.headSubject history ∧
    Cooling.policyPrefix <+: PaperReplay.headSubject history ∧
    ∀ revParse tagList, PaperReplay.main revParse tagList history ≠ .skipped

/-- The message does not begin with a byte order mark, and the first paragraph that git keeps is
not made of white space alone. -/
def VisibleToGit (text : List Char) : Prop :=
  text.head? ≠ some byteOrderMark ∧
    ∃ line ∈ Commit.firstParagraph text, ∃ c ∈ line, isSpace c = false

theorem recognised_iff {c : Commit} {text : List Char} (h : c.message = Commit.cleanup text)
    (earlier : List Commit) :
    Recognised (c :: earlier) ↔
      Cooling.policyPrefix <+:
        (List.intercalate [' '] (Commit.firstParagraph text)).dropWhile isSpace := by
  have hcooling := prefix_headSubject_iff c earlier
  rw [subject_cleanup h] at hcooling
  constructor
  · intro hboth
    exact hcooling.mp hboth.1
  · intro hsubject
    have hhead := hcooling.mpr hsubject
    exact ⟨hhead, hhead, fun _ _ => PaperReplay.main_ne_skipped hhead⟩

theorem not_prefix_of_mark {text : List Char} (h : text.head? = some byteOrderMark) :
    ¬ Cooling.policyPrefix <+:
      (List.intercalate [' '] (Commit.firstParagraph text)).dropWhile isSpace := by
  obtain ⟨text, rfl⟩ := List.head?_eq_some_iff.mp h
  obtain ⟨rest, more, hlines⟩ := linesOf_append (p := [byteOrderMark]) (by decide) text
  rw [List.singleton_append, List.singleton_append] at hlines
  have htrim : ∃ t, Commit.trimLine (byteOrderMark :: rest) = byteOrderMark :: t :=
    ⟨_, rdropWhile_append_of_neg ⟨[], byteOrderMark, rfl, by decide⟩ rest⟩
  obtain ⟨t, ht⟩ := htrim
  have hpar : ∃ lines, Commit.firstParagraph (byteOrderMark :: text) =
      (byteOrderMark :: t) :: lines := by
    refine ⟨((more.filter Commit.isKept).map Commit.trimLine).takeWhile (· ≠ []), ?_⟩
    rw [Commit.firstParagraph, Commit.keptLines, hlines,
      List.filter_cons_of_pos rfl, List.map_cons, ht,
      List.dropWhile_cons_of_neg (by simp), List.takeWhile_cons_of_pos (by simp)]
  obtain ⟨lines, hlines⟩ := hpar
  obtain ⟨u, hu⟩ := exists_intercalate_eq (byteOrderMark :: t) lines
  rw [hlines, hu, List.cons_append, List.dropWhile_cons_of_neg (by decide)]
  intro hstart
  obtain ⟨v, hv⟩ := hstart
  exact absurd (List.cons.inj hv).1 (by decide)

theorem prefix_subject_iff {text : List Char}
    (h : Cooling.policyPrefix <+: text.dropWhile isSpace) :
    Cooling.policyPrefix <+:
        (List.intercalate [' '] (Commit.firstParagraph text)).dropWhile isSpace ↔
      ∃ line ∈ Commit.firstParagraph text, ∃ c ∈ line, isSpace c = false := by
  rcases firstParagraph_cases h with ⟨blanks, line, more, hpar, hblanks, hline⟩ | hblank
  · have hletter : 'p' ∈ line := (List.dropWhile_suffix _).subset (hline.subset (by decide))
    rw [hpar]
    constructor
    · intro _
      exact ⟨line, by simp, 'p', hletter, by decide⟩
    · intro _
      exact prefix_intercalate hblanks hline more
  · have hempty : (List.intercalate [' '] (Commit.firstParagraph text)).dropWhile isSpace = [] :=
      List.dropWhile_eq_nil_iff.mpr (isSpace_of_mem_intercalate hblank)
    rw [hempty]
    constructor
    · intro hstart
      exact absurd (List.prefix_nil.mp hstart) (by decide)
    · intro hvisible
      obtain ⟨line, hline, c, hc, hspace⟩ := hvisible
      rw [hblank line hline c hc] at hspace
      cases hspace

/-- A message with which the hook accepts a policy change is decoded, and the prefix stands in
front of everything in it that is not white space. -/
theorem main_eq_accepted {argv : List String} {files : String → Option Bytes}
    {stdout : List Char} (htouched : policyTouched stdout ≠ [])
    (h : main argv files stdout = some .accepted) :
    ∃ path decoded, argv[1]? = some path ∧ readMessage (files path) = some decoded ∧
      Cooling.policyPrefix <+: decoded.dropWhile isSpace := by
  unfold main at h
  split at h
  · next path _ =>
    obtain ⟨decoded, hdecoded, hverdict⟩ := Option.map_eq_some_iff.mp h
    dsimp only at hverdict
    rw [if_neg htouched] at hverdict
    split_ifs at hverdict with hstart
    exact ⟨path, decoded, rfl, hdecoded,
      (prefix_firstLine_iff decoded).mp (List.isPrefixOf_iff_prefix.mp hstart)⟩
  · cases h

theorem readMessage_eq_some {file : Option Bytes} {decoded : List Char}
    (h : readMessage file = some decoded)
    (hstart : Cooling.policyPrefix <+: decoded.dropWhile isSpace) :
    ∃ bytes text, file = some bytes ∧ String.fromUTF8? bytes.toByteArray = some text ∧
      (text.toList.head? ≠ some byteOrderMark → text.toList = decoded) := by
  have hne : decoded ≠ [] := by
    intro hempty
    rw [hempty] at hstart
    exact Cooling.policyPrefix_not_prefix_nil hstart
  cases file with
  | none => exact absurd (Option.some.inj h).symm hne
  | some bytes =>
    have hdecode : decodeUtf8Sig bytes = some decoded := h
    unfold decodeUtf8Sig at hdecode
    split_ifs at hdecode with hpart
    · exact absurd (Option.some.inj hdecode).symm hne
    · obtain ⟨text, htext, htail⟩ := Option.map_eq_some_iff.mp hdecode
      refine ⟨bytes, text, rfl, htext, ?_⟩
      intro hmark
      rwa [if_neg hmark] at htail

/-- The gates recognise a commit that the hook let through just if git sees the prefix where
the hook did. -/
theorem gates_recognise_iff (argv : List String) (files : String → Option Bytes)
    (stdout : List Char) (htouched : policyTouched stdout ≠ [])
    (haccepted : main argv files stdout = some .accepted) :
    ∃ path bytes text, argv[1]? = some path ∧ files path = some bytes ∧
      String.fromUTF8? bytes.toByteArray = some text ∧
      ∀ c earlier, Commit.message c = Commit.cleanup text.toList →
        (Recognised (c :: earlier) ↔ VisibleToGit text.toList) := by
  obtain ⟨path, decoded, hpath, hread, hstart⟩ := main_eq_accepted htouched haccepted
  obtain ⟨bytes, text, hfile, htext, hsame⟩ := readMessage_eq_some hread hstart
  refine ⟨path, bytes, text, hpath, hfile, htext, ?_⟩
  intro c earlier hmessage
  rw [recognised_iff hmessage]
  by_cases hmark : text.toList.head? = some byteOrderMark
  · constructor
    · intro hsubject
      exact absurd hsubject (not_prefix_of_mark hmark)
    · intro hvisible
      exact absurd hmark hvisible.1
  · rw [prefix_subject_iff ((hsame hmark).symm ▸ hstart)]
    exact (and_iff_right hmark).symm

section Messages

def storedCommit (text : String) : Commit :=
  { Cooling.commitAt 'a' (by decide) [] 0 with message := Commit.cleanup text.toList }

theorem main_encodeUtf8 {text : String} {decoded : List Char}
    (hdecoded : (if text.toList.head? = some byteOrderMark then text.toList.tail
      else text.toList) = decoded)
    (hlength : 3 ≤ (encodeUtf8 text).length)
    (hstart : Cooling.policyPrefix <+: decoded.dropWhile isSpace) (stdout : List Char) :
    main ["check_policy_prefix.py", "COMMIT_EDITMSG"] (fun _ => some (encodeUtf8 text)) stdout =
      some .accepted := by
  have hread : readMessage (some (encodeUtf8 text)) = some decoded := by
    have hdecode : readMessage (some (encodeUtf8 text)) = decodeUtf8Sig (encodeUtf8 text) := rfl
    have hlong : ¬ ((encodeUtf8 text).length < 3 ∧ encodeUtf8 text <+: [0xEF, 0xBB, 0xBF]) :=
      fun h => absurd h.1 (Nat.not_lt.mpr hlength)
    rw [hdecode, decodeUtf8Sig, if_neg hlong, fromUTF8_encodeUtf8, Option.map_some, hdecoded]
  have hfirst := List.isPrefixOf_iff_prefix.mpr ((prefix_firstLine_iff decoded).mpr hstart)
  unfold main
  dsimp only
  rw [hread, Option.map_some, hfirst, if_pos rfl, ite_self]

/-- A message with blank lines, a blank in front of the prefix and a comment. -/
theorem gates_recognise_indented :
    ∃ path bytes text, ["check_policy_prefix.py", "COMMIT_EDITMSG"][1]? = some path ∧
      some (encodeUtf8 "\n policy: adjust theta_entry\n# on branch main\n") = some bytes ∧
      String.fromUTF8? bytes.toByteArray = some text ∧
      ∀ c earlier, Commit.message c = Commit.cleanup text.toList →
        (Recognised (c :: earlier) ↔ VisibleToGit text.toList) :=
  gates_recognise_iff ["check_policy_prefix.py", "COMMIT_EDITMSG"]
    (fun _ => some (encodeUtf8 "\n policy: adjust theta_entry\n# on branch main\n"))
    "config/policy.toml\n".toList (by decide) (main_encodeUtf8 rfl (by decide) (by decide) _)

/-- The hook accepts a message that begins with a byte order mark and one whose prefix stands
below a form feed and a blank line; the gates recognise neither. -/
theorem hidden_prefix_accepted :
    let marked := "\uFEFFpolicy: adjust theta_entry\n"
    let shadowed := "\x0c\n\npolicy: adjust theta_entry\n"
    let stdout := "config/policy.toml\n".toList
    (main ["check_policy_prefix.py", "COMMIT_EDITMSG"] (fun _ => some (encodeUtf8 marked)) stdout =
        some .accepted ∧ ¬ Recognised [storedCommit marked]) ∧
    (main ["check_policy_prefix.py", "COMMIT_EDITMSG"] (fun _ => some (encodeUtf8 shadowed))
        stdout = some .accepted ∧ ¬ Recognised [storedCommit shadowed]) := by
  intro marked shadowed stdout
  constructor
  · refine ⟨main_encodeUtf8 rfl (by decide) (by decide) stdout, ?_⟩
    intro h
    exact absurd h.1 (by decide)
  · refine ⟨main_encodeUtf8 rfl (by decide) (by decide) stdout, ?_⟩
    intro h
    exact absurd h.1 (by decide)

end Messages

end PolicyPrefix

end Athena
