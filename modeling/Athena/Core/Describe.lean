import Athena.Core.Version

/-!
# The outputs of git describe

`git describe --always --dirty` prints an abbreviated SHA, a tag, or a tag with
its distance and the abbreviated SHA. Reading the SHA off the end is right where
there is one. A tag by itself can look like one.
-/

namespace Athena

def dirtyMark (dirty : Bool) : List Char := if dirty then "-dirty".toList else []

@[simp] theorem dirtyMark_true : dirtyMark true = "-dirty".toList := rfl

@[simp] theorem dirtyMark_false : dirtyMark false = [] := rfl

/-- What `[0-9a-f]{7,40}` matches. -/
def IsRun (run : List Char) : Prop := (∀ c ∈ run, isHexLower c) ∧ 7 ≤ run.length ∧ run.length ≤ 40

/-- The pattern matches the text to its end, after the start or after `-g`. -/
def EndsIn (text run : List Char) (dirty : Bool) : Prop :=
  IsRun run ∧ (text = run ++ dirtyMark dirty ∨
    ∃ lead, text = lead ++ "-g".toList ++ (run ++ dirtyMark dirty))

theorem isHexLower_bounds {c : Char} (h : isHexLower c) : 48 ≤ c.toNat ∧ c.toNat ≤ 102 := by
  simp only [isHexLower, Bool.or_eq_true, Bool.and_eq_true, decide_eq_true_eq] at h
  have hle : c ≤ 'f' := h.elim (fun h => le_trans h.2 (by decide)) And.right
  have hge : '0' ≤ c := h.elim And.left fun h => le_trans (by decide) h.1
  exact ⟨UInt32.le_iff_toNat_le.mp hge, UInt32.le_iff_toNat_le.mp hle⟩

theorem not_isHexLower_dash : isHexLower '-' = false := by decide

theorem IsRun.dash_not_mem {run : List Char} (h : IsRun run) : '-' ∉ run := by
  intro hmem
  have hdash := h.1 '-' hmem
  rw [not_isHexLower_dash] at hdash
  cases hdash

theorem IsRun.no_dash_g {run lead rest : List Char} {dirty : Bool} (h : IsRun run) :
    run ++ dirtyMark dirty ≠ lead ++ "-g".toList ++ rest := by
  intro heq
  rw [List.append_assoc] at heq
  rcases List.append_eq_append_iff.mp heq with ⟨tail, hlead, hmark⟩ | ⟨tail, hrun, hrest⟩
  · -- `-g` lies in the mark
    have hinfix : "-g".toList <:+: dirtyMark dirty := ⟨tail, rest, by rw [hmark, List.append_assoc]⟩
    cases dirty <;> exact absurd hinfix (by decide)
  · cases tail with
    | nil =>
      -- `-g` begins the mark
      rw [List.nil_append] at hrest
      have hstart : "-g".toList <+: dirtyMark dirty := ⟨rest, hrest⟩
      cases dirty <;> exact absurd hstart (by decide)
    | cons c tail =>
      have hc : c = '-' := (List.cons.inj hrest).1.symm
      apply h.dash_not_mem
      rw [hrun, hc]
      simp

theorem atEnd_iff {s : List Char} (hline : Char.ofNat 10 ∉ s) : atEnd s = true ↔ s = [] := by
  rw [atEnd, Bool.or_eq_true, decide_eq_true_eq, decide_eq_true_eq]
  constructor
  · rintro (h | h)
    · exact h
    · rw [h] at hline
      exact absurd (List.mem_singleton_self _) hline
  · exact Or.inl

section Matching

variable {text run : List Char} {dirty : Bool}

theorem matchShaTail_eq_some_iff (hline : Char.ofNat 10 ∉ text) :
    matchShaTail text = some (run, dirty) ↔ IsRun run ∧ text = run ++ dirtyMark dirty := by
  constructor
  · intro h
    have hrun := matchShaTail_some h
    have hsplit := (List.takeWhile_append_dropWhile (p := isHexLower) (l := text)).symm
    unfold matchShaTail at h
    generalize text.takeWhile isHexLower = sha at *
    generalize text.dropWhile isHexLower = rest at *
    rw [hsplit, List.mem_append, not_or] at hline
    dsimp only at h
    split_ifs at h with hlen hend hmark
    · cases h
      exact ⟨hrun, by rw [hsplit, (atEnd_iff hline.2).mp hend]; rfl⟩
    · cases h
      obtain ⟨tail, rfl⟩ := List.isPrefixOf_iff_prefix.mp hmark.1
      have htail : tail = [] := (atEnd_iff fun hmem => hline.2 (by simp [hmem])).mp hmark.2
      exact ⟨hrun, by rw [hsplit, htail]; rfl⟩
  · rintro ⟨hrun, rfl⟩
    have hstop : (dirtyMark dirty).takeWhile isHexLower = [] ∧
        (dirtyMark dirty).dropWhile isHexLower = dirtyMark dirty := by
      cases dirty <;> exact ⟨by decide, by decide⟩
    unfold matchShaTail
    rw [List.takeWhile_append_of_pos hrun.1, List.dropWhile_append_of_pos hrun.1, hstop.1, hstop.2,
      List.append_nil]
    dsimp only
    rw [if_pos hrun.2]
    cases dirty <;> rfl

theorem cons_eq_of_isPrefixOf {c : Char} {s : List Char}
    (h : "-g".toList.isPrefixOf (c :: s) = true) : c = '-' ∧ s = 'g' :: s.drop 1 := by
  obtain ⟨rest, hrest⟩ := List.isPrefixOf_iff_prefix.mp h
  obtain ⟨hc, hs⟩ := List.cons.inj hrest
  exact ⟨hc.symm, by rw [← hs]; rfl⟩

/-- The search finds the one place behind a `-g` from which the pattern matches. -/
theorem searchShaTail_eq_some_iff (hline : Char.ofNat 10 ∉ text) :
    searchShaTail text = some (run, dirty) ↔
      IsRun run ∧ ∃ lead, text = lead ++ "-g".toList ++ (run ++ dirtyMark dirty) := by
  induction text with
  | nil => simp [searchShaTail]
  | cons c s ih =>
    have hs : Char.ofNat 10 ∉ s := fun hmem => hline (List.mem_cons_of_mem c hmem)
    have hdrop : Char.ofNat 10 ∉ s.drop 1 := fun hmem => hs (List.mem_of_mem_drop hmem)
    rw [searchShaTail, Option.or_eq_some_iff, ih hs]
    constructor
    · rintro (h | ⟨-, hrun, lead, hlead⟩)
      · split_ifs at h with hhere
        obtain ⟨hrun, htail⟩ := (matchShaTail_eq_some_iff hdrop).mp h
        obtain ⟨hc, hg⟩ := cons_eq_of_isPrefixOf hhere
        refine ⟨hrun, [], ?_⟩
        rw [hc, hg, htail]
        rfl
      · exact ⟨hrun, c :: lead, by rw [hlead]; simp⟩
    · rintro ⟨hrun, lead, hlead⟩
      cases lead with
      | nil =>
        obtain ⟨rfl, rfl⟩ := List.cons.inj hlead
        exact Or.inl ((matchShaTail_eq_some_iff hdrop).mpr ⟨hrun, rfl⟩)
      | cons c' lead =>
        obtain ⟨rfl, rfl⟩ := List.cons.inj hlead
        refine Or.inr ⟨?_, hrun, lead, rfl⟩
        split_ifs with hhere
        · -- a match here would have the later `-g` inside it
          by_contra hmatch
          obtain ⟨⟨run', dirty'⟩, hmatch⟩ := Option.ne_none_iff_exists'.mp hmatch
          obtain ⟨hrun', htail⟩ := (matchShaTail_eq_some_iff hdrop).mp hmatch
          obtain ⟨-, hg⟩ := cons_eq_of_isPrefixOf hhere
          rw [htail] at hg
          cases lead with
          | nil => exact absurd (List.cons.inj hg).1 (by decide)
          | cons d lead => exact hrun'.no_dash_g (List.cons.inj hg).2.symm
        · rfl

/-- What the pattern matches in a text without line breaks. -/
theorem matchOrSearch_eq_some_iff (hline : Char.ofNat 10 ∉ text) :
    (matchShaTail text).or (searchShaTail text) = some (run, dirty) ↔ EndsIn text run dirty := by
  rw [Option.or_eq_some_iff, matchShaTail_eq_some_iff hline, searchShaTail_eq_some_iff hline]
  constructor
  · rintro (⟨hrun, htext⟩ | ⟨-, hrun, hlead⟩)
    · exact ⟨hrun, Or.inl htext⟩
    · exact ⟨hrun, Or.inr hlead⟩
  · rintro ⟨hrun, htext | ⟨lead, hlead⟩⟩
    · exact Or.inl ⟨hrun, htext⟩
    · refine Or.inr ⟨?_, hrun, lead, hlead⟩
      by_contra hmatch
      obtain ⟨⟨run', dirty'⟩, hmatch⟩ := Option.ne_none_iff_exists'.mp hmatch
      obtain ⟨hrun', htext⟩ := (matchShaTail_eq_some_iff hline).mp hmatch
      exact hrun'.no_dash_g (htext.symm.trans hlead)

end Matching

section Extraction

variable {text : List Char} (hline : Char.ofNat 10 ∉ text)
include hline

theorem extractPolicySha_of_endsIn {run : List Char} {dirty : Bool} (h : EndsIn text run dirty) :
    extractPolicySha (String.ofList text) = String.ofList (run ++ dirtyMark dirty) := by
  unfold extractPolicySha
  rw [String.toList_ofList, (matchOrSearch_eq_some_iff hline).mpr h]
  cases dirty with
  | true => exact (String.ofList_append ..).symm
  | false => simp [dirtyMark]

theorem extractPolicySha_of_not_endsIn (h : ¬ ∃ run dirty, EndsIn text run dirty) :
    extractPolicySha (String.ofList text) = "unknown-dev" := by
  have hnone : (matchShaTail text).or (searchShaTail text) = none := by
    by_contra hmatch
    obtain ⟨⟨run, dirty⟩, hmatch⟩ := Option.ne_none_iff_exists'.mp hmatch
    exact h ⟨run, dirty, (matchOrSearch_eq_some_iff hline).mp hmatch⟩
  unfold extractPolicySha
  rw [String.toList_ofList, hnone]

end Extraction

theorem IsRun.ne_unknown {run : List Char} (h : IsRun run) (mark : List Char) :
    String.ofList (run ++ mark) ≠ "unknown-dev" := by
  intro heq
  have hlist : run ++ mark = "unknown-dev".toList := by
    rw [← heq, String.toList_ofList]
  cases run with
  | nil => exact absurd h.2.1 (by decide)
  | cons c run =>
    have hc : c = 'u' := (List.cons.inj hlist).1
    have hhex := h.1 c List.mem_cons_self
    rw [hc] at hhex
    exact absurd hhex (by decide)

structure CommitSha where
  text : List Char
  length_eq : text.length = 40
  hex : ∀ c ∈ text, isHexLower c

/-- An abbreviation of a commit id to 7 to 40 characters. -/
structure Abbreviation (head : CommitSha) where
  length : ℕ
  bounds : 7 ≤ length ∧ length ≤ 40

def Abbreviation.text {head : CommitSha} (a : Abbreviation head) : List Char :=
  head.text.take a.length

/-- A tag name. Of what git refuses in one, control characters matter here. -/
structure TagName where
  text : List Char
  printable : ∀ c ∈ text, 32 ≤ c.toNat

/-- What `git describe --always` says about a commit. -/
inductive Describe (head : CommitSha)
  | abbreviated (a : Abbreviation head)
  | tag (t : TagName)
  | distance (t : TagName) (n : ℕ) (a : Abbreviation head)

namespace Describe

variable {head : CommitSha}

def text : Describe head → List Char
  | abbreviated a => a.text
  | tag t => t.text
  | distance t n a => t.text ++ "-".toList ++ (Nat.repr n).toList ++ "-g".toList ++ a.text

def output (d : Describe head) (dirty : Bool) : String := String.ofList (d.text ++ dirtyMark dirty)

def abbreviation? : Describe head → Option (Abbreviation head)
  | abbreviated a => some a
  | tag _ => none
  | distance _ _ a => some a

/-- The product identity is the commit, marked exactly if the tree is dirty, or openly unknown;
it is the former if the output has the SHA. -/
def Identified (d : Describe head) (dirty : Bool) : Prop :=
  (extractPolicySha (d.output dirty) = "unknown-dev" ∨ ∃ a : Abbreviation head,
    extractPolicySha (d.output dirty) = String.ofList (a.text ++ dirtyMark dirty)) ∧
  ∀ a, d.abbreviation? = some a →
    extractPolicySha (d.output dirty) = String.ofList (a.text ++ dirtyMark dirty)

end Describe

/-- The tag, or its part behind a `-g`, is a run. -/
def ReadsAs (tag run : List Char) : Prop :=
  IsRun run ∧ (tag = run ∨ ∃ lead, tag = lead ++ "-g".toList ++ run)

theorem endsIn_iff {text run : List Char} {dirty : Bool} :
    EndsIn text run dirty ↔ ∃ tag, text = tag ++ dirtyMark dirty ∧ ReadsAs tag run := by
  constructor
  · rintro ⟨hrun, htext | ⟨lead, hlead⟩⟩
    · exact ⟨run, htext, hrun, Or.inl rfl⟩
    · exact ⟨_, by rw [hlead]; simp, hrun, Or.inr ⟨lead, rfl⟩⟩
  · rintro ⟨tag, rfl, hrun, rfl | ⟨lead, rfl⟩⟩
    · exact ⟨hrun, Or.inl rfl⟩
    · exact ⟨hrun, Or.inr ⟨lead, by simp⟩⟩

/-- What is read as a run ends in a hexadecimal character, so not in the mark. -/
theorem ReadsAs.not_marked {tag run : List Char} (h : ReadsAs (tag ++ "-dirty".toList) run) :
    False := by
  obtain ⟨hrun, heq⟩ := h
  have hends : ∃ lead, tag ++ "-dirty".toList = lead ++ run := by
    rcases heq with heq | ⟨lead, heq⟩
    · exact ⟨[], heq⟩
    · exact ⟨_, heq⟩
  obtain ⟨lead, hlead⟩ := hends
  have hne : run ≠ [] := List.length_pos_iff.mp (by have := hrun.2.1; omega)
  have hlast := congrArg List.getLast? hlead
  rw [List.getLast?_append_of_ne_nil _ (by decide), List.getLast?_append_of_ne_nil _ hne] at hlast
  have hmem : 'y' ∈ run := List.mem_of_getLast? (hlast.symm.trans (by decide))
  exact absurd (hrun.1 'y' hmem) (by decide)

theorem Abbreviation.isRun {head : CommitSha} (a : Abbreviation head) : IsRun a.text := by
  refine ⟨fun c hc => head.hex c (List.mem_of_mem_take hc), ?_⟩
  have hlength : a.text.length = a.length := by
    have hbounds := a.bounds
    rw [text, List.length_take, head.length_eq]
    omega
  rw [hlength]
  exact a.bounds

theorem exists_abbreviation {head : CommitSha} {run : List Char} (hrun : IsRun run)
    (h : run <+: head.text) : ∃ a : Abbreviation head, a.text = run :=
  ⟨⟨run.length, hrun.2⟩, (List.prefix_iff_eq_take.mp h).symm⟩

namespace Describe

variable {head : CommitSha} {dirty : Bool}

theorem printable_of_all {s : List Char} (h : s.all (fun c => 32 ≤ c.toNat) = true) :
    ∀ c ∈ s, 32 ≤ c.toNat := fun c hc => of_decide_eq_true (List.all_eq_true.mp h c hc)

theorem output_printable (d : Describe head) (dirty : Bool) :
    ∀ c ∈ d.text ++ dirtyMark dirty, 32 ≤ c.toNat := by
  have hmark : ∀ c ∈ dirtyMark dirty, 32 ≤ c.toNat :=
    printable_of_all (by cases dirty <;> decide)
  have habbreviation : ∀ a : Abbreviation head, ∀ c ∈ a.text, 32 ≤ c.toNat := fun a c hc =>
    le_trans (by decide) (isHexLower_bounds (a.isRun.1 c hc)).1
  have hnumber : ∀ n, ∀ c ∈ (Nat.repr n).toList, 32 ≤ c.toNat := by
    intro n c hc
    rw [Nat.toList_repr] at hc
    have hdigit := Nat.isDigit_of_mem_toDigits (by omega) le_rfl hc
    simp only [Char.isDigit, Bool.and_eq_true, decide_eq_true_eq, UInt32.le_iff_toNat_le] at hdigit
    exact le_trans (by decide) hdigit.1
  rw [List.forall_mem_append]
  refine ⟨?_, hmark⟩
  cases d with
  | abbreviated a => exact habbreviation a
  | tag t => exact t.printable
  | distance t n a =>
    have hdash : ∀ c ∈ "-".toList, 32 ≤ c.toNat := printable_of_all (by decide)
    have hmarker : ∀ c ∈ "-g".toList, 32 ≤ c.toNat := printable_of_all (by decide)
    simp only [text, List.forall_mem_append]
    exact ⟨⟨⟨⟨t.printable, hdash⟩, hnumber n⟩, hmarker⟩, habbreviation a⟩

theorem output_lineFree (d : Describe head) (dirty : Bool) :
    Char.ofNat 10 ∉ d.text ++ dirtyMark dirty := fun hmem =>
  absurd (d.output_printable dirty _ hmem) (by decide)

theorem endsIn_of_abbreviation {d : Describe head} {a : Abbreviation head}
    (h : d.abbreviation? = some a) : EndsIn (d.text ++ dirtyMark dirty) a.text dirty := by
  cases d with
  | abbreviated b =>
    obtain rfl := Option.some.inj h
    exact ⟨b.isRun, Or.inl rfl⟩
  | tag t => cases h
  | distance t n b =>
    obtain rfl := Option.some.inj h
    exact ⟨b.isRun, Or.inr ⟨t.text ++ "-".toList ++ (Nat.repr n).toList, by simp [text]⟩⟩

theorem extractPolicySha_of_abbreviation {d : Describe head} {a : Abbreviation head}
    (h : d.abbreviation? = some a) :
    extractPolicySha (d.output dirty) = String.ofList (a.text ++ dirtyMark dirty) :=
  extractPolicySha_of_endsIn (d.output_lineFree dirty) (endsIn_of_abbreviation h)

/-- A tag by itself is told from a SHA. -/
def NotMistaken (head : CommitSha) (t : TagName) (dirty : Bool) : Prop :=
  (∀ run, ReadsAs t.text run → run <+: head.text) ∧
    (dirty = false → ∀ tag run, t.text = tag ++ "-dirty".toList → ¬ ReadsAs tag run)

theorem tag_identified_iff (t : TagName) :
    (tag t : Describe head).Identified dirty ↔ NotMistaken head t dirty := by
  have hline := (tag t : Describe head).output_lineFree dirty
  constructor
  · rintro ⟨hright, -⟩
    have hfound : ∀ run marked, EndsIn (t.text ++ dirtyMark dirty) run marked →
        ∃ a : Abbreviation head, a.text ++ dirtyMark dirty = run ++ dirtyMark marked := by
      intro run marked h
      have hout := extractPolicySha_of_endsIn hline h
      rcases hright with hunknown | ⟨a, ha⟩
      · exact absurd (hout.symm.trans hunknown) (h.1.ne_unknown _)
      · exact ⟨a, String.ofList_injective (ha.symm.trans hout)⟩
    constructor
    · intro run hrun
      obtain ⟨a, ha⟩ := hfound run dirty (endsIn_iff.mpr ⟨t.text, rfl, hrun⟩)
      rw [← List.append_cancel_right ha]
      exact List.take_prefix _ _
    · intro hclean tag run htag hrun
      subst hclean
      obtain ⟨a, ha⟩ := hfound run true
        (endsIn_iff.mpr ⟨tag, by rw [dirtyMark_false, List.append_nil, htag, dirtyMark_true], hrun⟩)
      rw [dirtyMark_false, List.append_nil] at ha
      have hdash : '-' ∈ a.text := ha ▸ List.mem_append_right run (by decide)
      exact a.isRun.dash_not_mem hdash
  · rintro ⟨hstart, hclean⟩
    refine ⟨?_, nofun⟩
    by_cases hmatch : ∃ run marked, EndsIn (t.text ++ dirtyMark dirty) run marked
    · obtain ⟨run, marked, h⟩ := hmatch
      have hout := extractPolicySha_of_endsIn hline h
      obtain ⟨tag, htag, hrun⟩ := endsIn_iff.mp h
      have hsame : marked = dirty ∧ tag = t.text := by
        cases marked with
        | true =>
          cases dirty with
          | true => exact ⟨rfl, List.append_cancel_right htag.symm⟩
          | false =>
            rw [dirtyMark_false, List.append_nil] at htag
            exact absurd hrun (hclean rfl tag run htag)
        | false =>
          rw [dirtyMark_false, List.append_nil] at htag
          cases dirty with
          | true => exact (ReadsAs.not_marked (htag ▸ hrun)).elim
          | false => exact ⟨rfl, by rw [← htag, dirtyMark_false, List.append_nil]⟩
      obtain ⟨rfl, rfl⟩ := hsame
      obtain ⟨a, rfl⟩ := exists_abbreviation hrun.1 (hstart run hrun)
      exact Or.inr ⟨a, hout⟩
    · exact Or.inl (extractPolicySha_of_not_endsIn hline hmatch)

/-- The product identity is right for every output of `git describe`, except for tags that look
like a SHA. -/
theorem identified_iff (d : Describe head) (dirty : Bool) :
    d.Identified dirty ↔ ∀ t, d = tag t → NotMistaken head t dirty := by
  cases d with
  | tag t =>
    rw [tag_identified_iff]
    simp
  | abbreviated a =>
    refine iff_of_true ⟨Or.inr ⟨a, extractPolicySha_of_abbreviation rfl⟩, fun b hb =>
      extractPolicySha_of_abbreviation hb⟩ nofun
  | distance t n a =>
    refine iff_of_true ⟨Or.inr ⟨a, extractPolicySha_of_abbreviation rfl⟩, fun b hb =>
      extractPolicySha_of_abbreviation hb⟩ nofun

def taggedHead : CommitSha := ⟨List.replicate 40 'a', by decide, fun c hc => by
  rw [List.eq_of_mem_replicate hc]
  decide⟩

def dateTag : TagName := ⟨"20260421".toList, fun c hc => by
  have hall : "20260421".toList.all (fun c => 32 ≤ c.toNat) = true := by decide
  exact of_decide_eq_true (List.all_eq_true.mp hall c hc)⟩

theorem not_identified_date_tag :
    extractPolicySha ((tag dateTag : Describe taggedHead).output false) = "20260421" ∧
      ¬ (tag dateTag : Describe taggedHead).Identified false := by
  have hout : extractPolicySha ((tag dateTag : Describe taggedHead).output false) = "20260421" := by
    decide
  refine ⟨hout, ?_⟩
  rintro ⟨hunknown | ⟨a, ha⟩, -⟩
  · rw [hout] at hunknown
    exact absurd hunknown (by decide)
  · rw [hout] at ha
    have hlist : "20260421".toList = a.text := by
      rw [ha, String.toList_ofList, dirtyMark_false, List.append_nil]
    have hmem : '2' ∈ a.text := by
      rw [← hlist]
      decide
    exact absurd (List.eq_of_mem_replicate (List.mem_of_mem_take hmem)) (by decide)

end Describe

end Athena
