import Athena.Core.Text
import Athena.Library.Binary64

/-!
# Lines, words and numbers of a text

`str.splitlines`, `str.split`, and `int` and `float` of a text and of each
other. What a program prints with an f-string and reads back with these is
recovered: a line, the words of a line, an integer that a float can hold.
-/

namespace Athena

/-- The line boundaries of `str.splitlines`. -/
def isLineBreak (c : Char) : Bool :=
  let n := c.toNat
  (10 ≤ n && n ≤ 13) || (28 ≤ n && n ≤ 30) || n = 0x85 || n = 0x2028 || n = 0x2029

def OneLine (s : List Char) : Prop := ∀ c ∈ s, isLineBreak c = false

instance (s : List Char) : Decidable (OneLine s) :=
  List.decidableBAll (fun c => isLineBreak c = false) s

theorem oneLine_append {s t : List Char} : OneLine (s ++ t) ↔ OneLine s ∧ OneLine t :=
  List.forall_mem_append

theorem oneLine_cons {c : Char} {s : List Char} :
    OneLine (c :: s) ↔ isLineBreak c = false ∧ OneLine s := List.forall_mem_cons

def newline : Char := Char.ofNat 10

def carriageReturn : Char := Char.ofNat 13

/-- `str.splitlines` behind the given start of a line. A newline right after a carriage
return belongs to the same boundary. -/
def splitlinesFrom (afterReturn : Bool) (line : List Char) : List Char → List (List Char)
  | [] => if line = [] then [] else [line]
  | c :: s =>
    if afterReturn && c = newline then splitlinesFrom false [] s
    else if isLineBreak c then line :: splitlinesFrom (c = carriageReturn) [] s
    else splitlinesFrom false (line ++ [c]) s

def splitlines (s : List Char) : List (List Char) := splitlinesFrom false [] s

theorem splitlinesFrom_append {l : List Char} (hl : OneLine l) (line s : List Char) :
    splitlinesFrom false line (l ++ newline :: s) = (line ++ l) :: splitlines s := by
  induction l generalizing line with
  | nil =>
    have hbreak : isLineBreak newline = true := by decide
    have hreturn : decide (newline = carriageReturn) = false := by decide
    simp [splitlinesFrom, hbreak, hreturn, splitlines]
  | cons c l ih =>
    obtain ⟨hc, hrest⟩ := oneLine_cons.mp hl
    rw [List.cons_append, splitlinesFrom, Bool.false_and, if_neg Bool.false_ne_true, hc,
      if_neg Bool.false_ne_true, ih hrest, List.append_assoc, List.singleton_append]

theorem splitlines_append {l : List Char} (hl : OneLine l) (s : List Char) :
    splitlines (l ++ newline :: s) = l :: splitlines s := by
  rw [splitlines, splitlinesFrom_append hl, List.nil_append]

theorem splitlinesFrom_oneLine {l : List Char} (hl : OneLine l) (line : List Char) :
    splitlinesFrom false line l = if line ++ l = [] then [] else [line ++ l] := by
  induction l generalizing line with
  | nil => simp [splitlinesFrom]
  | cons c l ih =>
    obtain ⟨hc, hrest⟩ := oneLine_cons.mp hl
    rw [splitlinesFrom, Bool.false_and, if_neg Bool.false_ne_true, hc, if_neg Bool.false_ne_true,
      ih hrest, List.append_assoc, List.singleton_append]

theorem head_splitlines {l s : List Char} (hl : OneLine l) (hne : l ≠ [])
    (hs : s = [] ∨ ∃ t, s = newline :: t) : ∃ lines, splitlines (l ++ s) = l :: lines := by
  rcases hs with rfl | ⟨t, rfl⟩
  · refine ⟨[], ?_⟩
    rw [List.append_nil, splitlines, splitlinesFrom_oneLine hl, List.nil_append, if_neg hne]
  · exact ⟨splitlines t, splitlines_append hl t⟩

theorem splitlines_flatMap {lines : List (List Char)}
    (h : ∀ l ∈ lines, OneLine l) :
    splitlines (lines.flatMap fun l => l ++ [newline]) = lines := by
  induction lines with
  | nil => rfl
  | cons l lines ih =>
    obtain ⟨hl, hlines⟩ := List.forall_mem_cons.mp h
    rw [List.flatMap_cons, List.append_assoc, List.singleton_append, splitlines_append hl,
      ih hlines]

theorem isLineBreak_of_not_isSpace {c : Char} (h : isSpace c = false) : isLineBreak c = false := by
  simp only [isSpace, Bool.or_eq_false_iff, Bool.and_eq_false_iff, decide_eq_false_iff_not] at h
  simp only [isLineBreak, Bool.or_eq_false_iff, Bool.and_eq_false_iff, decide_eq_false_iff_not]
  omega

def words (s : List Char) : List (List Char) := (s.splitOnP isSpace).filter (· ≠ [])

/-- A text that `split` leaves in one piece. -/
def IsWord (s : List Char) : Prop := s ≠ [] ∧ ∀ c ∈ s, isSpace c = false

instance (s : List Char) : Decidable (IsWord s) :=
  @instDecidableAnd _ _ _ (List.decidableBAll (fun c => isSpace c = false) s)

theorem IsWord.oneLine {s : List Char} (h : IsWord s) : OneLine s :=
  fun c hc => isLineBreak_of_not_isSpace (h.2 c hc)

theorem words_of_isWord {s : List Char} (h : IsWord s) : words s = [s] := by
  rw [words, List.splitOnP_eq_singleton h.2]
  simp [h.1]

/-- Words separated by single spaces are found again. -/
theorem words_append {w s : List Char} (h : IsWord w) : words (w ++ ' ' :: s) = w :: words s := by
  rw [words, List.splitOnP_append_cons_of_forall_mem h.2 ' ' (by decide), List.filter_cons_of_pos
    (by simpa using h.1), words]

/-- A line that consists of a word and a rest starts with another word and a space only if
that is the word. -/
theorem isPrefixOf_word_iff {name w : List Char} (hname : ' ' ∉ name) (hw : ' ' ∉ w)
    (s : List Char) : (name ++ [' ']).isPrefixOf (w ++ ' ' :: s) = true ↔ w = name := by
  rw [List.isPrefixOf_iff_prefix]
  constructor
  · rintro ⟨t, ht⟩
    rw [List.append_assoc, List.singleton_append] at ht
    induction name generalizing w with
    | nil =>
      cases w with
      | nil => rfl
      | cons c w => exact absurd (List.cons.inj ht).1 fun h => hw (h ▸ List.mem_cons_self)
    | cons d name ih =>
      cases w with
      | nil => exact absurd (List.cons.inj ht).1 fun h => hname (h ▸ List.mem_cons_self)
      | cons c w =>
        obtain ⟨hcd, hrest⟩ := List.cons.inj ht
        rw [ih (fun h => hname (List.mem_cons_of_mem _ h))
          (fun h => hw (List.mem_cons_of_mem _ h)) hrest, hcd]
  · rintro rfl
    exact ⟨s, by simp⟩

/-- The exceptions of `int` and `float`. -/
inductive NumeralErr
  | valueError
  | overflowError
  deriving DecidableEq, Repr

inductive PyFloat
  | nan
  | inf (negative : Bool)
  | finite (value : ℚ)
  deriving DecidableEq, Repr

namespace PyFloat

def ofRat (x : ℚ) : PyFloat :=
  if 2 ^ 1024 ≤ |Binary64.nearest x| then .inf (x < 0) else .finite (Binary64.nearest x)

def truncate (q : ℚ) : Int := if 0 ≤ q then ⌊q⌋ else ⌈q⌉

def toInt : PyFloat → Except NumeralErr Int
  | nan => .error .valueError
  | inf _ => .error .overflowError
  | finite q => .ok (truncate q)

theorem ofRat_intCast {n : Int} (hn : |n| ≤ 2 ^ 53) : ofRat n = .finite n := by
  have hlt : |(n : ℚ)| < 2 ^ 1024 := by
    have hle : |(n : ℚ)| ≤ 2 ^ 53 := by exact_mod_cast hn
    exact hle.trans_lt (pow_lt_pow_right₀ (by norm_num) (by decide))
  rw [ofRat, Binary64.nearest_intCast hn, if_neg (not_le.mpr hlt)]

@[simp] theorem truncate_intCast (n : Int) : truncate n = n := by
  rw [truncate, Int.floor_intCast, Int.ceil_intCast, ite_self]

@[simp] theorem toInt_intCast (n : Int) : (finite n).toInt = .ok n :=
  congrArg Except.ok (truncate_intCast n)

theorem abs_truncate_le {q : ℚ} {n : Int} (h : |q| ≤ n) : |truncate q| ≤ n := by
  obtain ⟨hlo, hhi⟩ := abs_le.mp h
  have hlo : ((-n : Int) : ℚ) ≤ q := by
    rw [Int.cast_neg]
    exact hlo
  rw [abs_le]
  unfold truncate
  split_ifs
  · exact ⟨Int.le_floor.mpr hlo, Int.floor_le_iff.mpr (hhi.trans_lt (lt_add_one _))⟩
  · have hceil : q ≤ ⌈q⌉ := Int.le_ceil q
    exact ⟨by exact_mod_cast hlo.trans hceil, Int.ceil_le.mpr hhi⟩

end PyFloat

def decimalDigit? (c : Char) : Option ℕ :=
  (decimalDigitRuns.find? fun first => first ≤ c.toNat && c.toNat ≤ first + 9).map (c.toNat - ·)

/-- `int` and `float` read the digits of every script as the ASCII ones. -/
def asciiDigit (c : Char) : Char :=
  match decimalDigit? c with
  | some value => Char.ofNat (48 + value)
  | none => c

theorem asciiDigit_of_ascii {c : Char} (h : c.toNat < 128) : asciiDigit c = c := by
  have hall : ∀ n < 128, asciiDigit (Char.ofNat n) = Char.ofNat n := by decide
  have hc := hall c.toNat h
  rwa [Char.ofNat_toNat] at hc

theorem map_asciiDigit_of_ascii {s : List Char} (h : ∀ c ∈ s, c.toNat < 128) :
    s.map asciiDigit = s :=
  (List.map_congr_left fun c hc => asciiDigit_of_ascii (h c hc)).trans (List.map_id s)

/-- Digits with single underscores between them, without the underscores. -/
def plainDigits : List Char → Option (List Char)
  | [] => some []
  | c :: s =>
    if c.isDigit then
      match s with
      | '_' :: d :: rest =>
        if d.isDigit then (plainDigits (d :: rest)).map (c :: ·) else none
      | s => (plainDigits s).map (c :: ·)
    else none

theorem plainDigits_of_digits {s : List Char} (h : ∀ c ∈ s, c.isDigit = true) :
    plainDigits s = some s := by
  induction s with
  | nil => rfl
  | cons c s ih =>
    obtain ⟨hc, hs⟩ := List.forall_mem_cons.mp h
    have hne : ∀ d rest, s ≠ '_' :: d :: rest := by
      rintro d rest rfl
      exact absurd (hs '_' List.mem_cons_self) (by decide)
    unfold plainDigits
    rw [if_pos hc]
    split
    · rename_i d rest
      exact absurd rfl (hne d rest)
    · rw [ih hs, Option.map_some]

def splitSign : List Char → Int × List Char
  | '-' :: s => (-1, s)
  | '+' :: s => (1, s)
  | s => (1, s)

theorem splitSign_of_digits {s : List Char} (h : ∀ c ∈ s, c.isDigit = true) :
    splitSign s = (1, s) := by
  unfold splitSign
  split
  · exact absurd (h '-' List.mem_cons_self) (by decide)
  · exact absurd (h '+' List.mem_cons_self) (by decide)
  · rfl

/-- A non-empty decimal number with an optional sign. -/
def readSigned (s : List Char) : Option Int :=
  match plainDigits (splitSign s).2 with
  | some (d :: digits) => some ((splitSign s).1 * Nat.ofDigitChars 10 (d :: digits) 0)
  | _ => none

def parseInt (s : List Char) : Except NumeralErr Int :=
  match readSigned ((strip s).map asciiDigit) with
  | some n => .ok n
  | none => .error .valueError

def readExponent : List Char → Option Int
  | [] => some 0
  | _ :: s => readSigned s

/-- A float literal: a mantissa of whole and fractional digits, not both empty, and an exponent. -/
def readDecimal (s : List Char) : Option ℚ :=
  let isMark : Char → Bool := fun c => c = 'e' || c = 'E'
  let mantissa := s.takeWhile fun c => !isMark c
  let whole := mantissa.takeWhile (· ≠ '.')
  let fraction := (mantissa.dropWhile (· ≠ '.')).drop 1
  match plainDigits whole, plainDigits fraction,
      readExponent (s.dropWhile fun c => !isMark c) with
  | some w, some f, some e =>
    if w ++ f = [] then none else some (Nat.ofDigitChars 10 (w ++ f) 0 * 10 ^ (e - f.length))
  | _, _, _ => none

def parseFloat (s : List Char) : Except NumeralErr PyFloat :=
  let signed := splitSign ((strip s).map asciiDigit)
  let lower := signed.2.map Char.toLower
  if lower = "inf".toList ∨ lower = "infinity".toList then .ok (.inf (signed.1 < 0))
  else if lower = "nan".toList then .ok .nan
  else
    match readDecimal signed.2 with
    | some x => .ok (.ofRat (signed.1 * x))
    | none => .error .valueError

def parseFloatInt (s : List Char) : Except NumeralErr Int := (parseFloat s).bind PyFloat.toInt

theorem strip_of_noSpace {s : List Char} (h : ∀ c ∈ s, isSpace c = false) : strip s = s := by
  have hdrop : ∀ t : List Char, (∀ c ∈ t, isSpace c = false) → t.dropWhile isSpace = t := by
    intro t ht
    cases t with
    | nil => rfl
    | cons c t => rw [List.dropWhile_cons_of_neg (by simp [ht c List.mem_cons_self])]
  rw [strip, hdrop s h, hdrop s.reverse (fun c hc => h c (List.mem_reverse.mp hc)),
    List.reverse_reverse]

/-- The text without the characters at its end that `strip` takes off. -/
def rstrip (s : List Char) : List Char := (s.reverse.dropWhile isSpace).reverse

theorem strip_eq (s : List Char) : strip s = rstrip (s.dropWhile isSpace) := rfl

theorem rdropWhile_append_of_neg {q : Char → Bool} {a : List Char}
    (ha : ∃ s c, a = s ++ [c] ∧ q c = false) (b : List Char) :
    (a ++ b).rdropWhile q = a ++ b.rdropWhile q := by
  induction b using List.reverseRecOn with
  | nil =>
    obtain ⟨s, c, rfl, hc⟩ := ha
    rw [List.rdropWhile_nil, List.append_nil]
    exact List.rdropWhile_concat_neg _ _ _ (by simp [hc])
  | append_singleton b c ih =>
    rw [← List.append_assoc]
    by_cases hc : q c = true
    · rw [List.rdropWhile_concat_pos _ _ _ hc, List.rdropWhile_concat_pos _ _ _ hc, ih]
    · rw [List.rdropWhile_concat_neg _ _ _ hc, List.rdropWhile_concat_neg _ _ _ hc,
        List.append_assoc]

/-- `strip` leaves the front of a text as it is, if that begins and ends with other characters. -/
theorem strip_append {a : List Char} (hfirst : ∃ c s, a = c :: s ∧ isSpace c = false)
    (hlast : ∃ s c, a = s ++ [c] ∧ isSpace c = false) (b : List Char) :
    strip (a ++ b) = a ++ rstrip b := by
  obtain ⟨c, s, hcs, hc⟩ := hfirst
  have hfront : (a ++ b).dropWhile isSpace = a ++ b := by
    rw [hcs, List.cons_append, List.dropWhile_cons_of_neg (by simp [hc])]
  rw [strip_eq, hfront]
  exact rdropWhile_append_of_neg hlast b

theorem rstrip_cons (c : Char) (s : List Char) :
    rstrip (c :: s) = [] ∨ ∃ t, rstrip (c :: s) = c :: t := by
  unfold rstrip
  rw [List.reverse_cons, List.dropWhile_append]
  split_ifs with hempty
  · by_cases hc : isSpace c = true
    · exact .inl (by simp [hc])
    · exact .inr ⟨[], by simp [hc]⟩
  · exact .inr ⟨_, by rw [List.reverse_append]; rfl⟩

/-- The translation of line ends in text mode. -/
def universalNewlines : List Char → List Char
  | [] => []
  | c :: s =>
    if c = carriageReturn then
      if s.head? = some newline then universalNewlines s else newline :: universalNewlines s
    else c :: universalNewlines s

theorem universalNewlines_append {a : List Char} (h : carriageReturn ∉ a) (b : List Char) :
    universalNewlines (a ++ b) = a ++ universalNewlines b := by
  induction a with
  | nil => rfl
  | cons c a ih =>
    have hc : c ≠ carriageReturn := fun heq => h (heq ▸ List.mem_cons_self)
    rw [List.cons_append, universalNewlines, if_neg hc,
      ih fun hmem => h (List.mem_cons_of_mem _ hmem), List.cons_append]

section Printed

theorem isSpace_of_isDigit {c : Char} (h : c.isDigit = true) : isSpace c = false := by
  simp only [Char.isDigit, Bool.and_eq_true, decide_eq_true_eq, UInt32.le_iff_toNat_le] at h
  have hlo : 48 ≤ c.toNat := h.1
  have hhi : c.toNat ≤ 57 := h.2
  simp only [isSpace, Bool.or_eq_false_iff, Bool.and_eq_false_iff, decide_eq_false_iff_not]
  omega

theorem repr_digits (n : ℕ) : ∀ c ∈ n.repr.toList, c.isDigit = true := by
  intro c hc
  rw [Nat.toList_repr] at hc
  exact Nat.isDigit_of_mem_toDigits (by omega) le_rfl hc

theorem ofDigitChars_repr (n : ℕ) : Nat.ofDigitChars 10 n.repr.toList 0 = n := by
  rw [Nat.toList_repr, Nat.ofDigitChars_ten_toDigits]

theorem repr_ascii (n : ℕ) : ∀ c ∈ n.repr.toList, c.toNat < 128 := by
  intro c hc
  have hdigit := repr_digits n c hc
  simp only [Char.isDigit, Bool.and_eq_true, decide_eq_true_eq, UInt32.le_iff_toNat_le] at hdigit
  have hhi : c.toNat ≤ 57 := hdigit.2
  omega

theorem repr_toList_ne_nil (n : ℕ) : n.repr.toList ≠ [] := fun h =>
  Nat.repr_ne_empty (String.toList_eq_nil_iff.mp h)

theorem repr_isWord (n : ℕ) : IsWord n.repr.toList :=
  ⟨repr_toList_ne_nil n, fun c hc => isSpace_of_isDigit (repr_digits n c hc)⟩

theorem readDecimal_repr (n : ℕ) : readDecimal n.repr.toList = some (n : ℚ) := by
  have hmark : ∀ c ∈ n.repr.toList, (!(decide (c = 'e') || decide (c = 'E'))) = true := by
    intro c hc
    have hd := repr_digits n c hc
    by_contra hne
    simp only [Bool.not_eq_true, Bool.not_eq_false', Bool.or_eq_true, decide_eq_true_eq] at hne
    rcases hne with rfl | rfl <;> exact absurd hd (by decide)
  have hdot : ∀ c ∈ n.repr.toList, decide (c ≠ '.') = true := by
    intro c hc
    rw [decide_eq_true_eq]
    rintro rfl
    exact absurd (repr_digits n '.' hc) (by decide)
  unfold readDecimal
  dsimp only
  rw [List.takeWhile_eq_self_iff.mpr hmark, List.dropWhile_eq_nil_iff.mpr hmark,
    List.takeWhile_eq_self_iff.mpr hdot, List.dropWhile_eq_nil_iff.mpr hdot,
    plainDigits_of_digits (repr_digits n)]
  simp [plainDigits, readExponent]

theorem toLower_of_isDigit {c : Char} (h : c.isDigit = true) : c.toLower = c := by
  simp only [Char.isDigit, Bool.and_eq_true, decide_eq_true_eq, UInt32.le_iff_toNat_le] at h
  have hhi : c.val.toNat ≤ 57 := h.2
  unfold Char.toLower
  rw [dif_neg]
  rintro ⟨hupper, -⟩
  have : (65 : ℕ) ≤ c.val.toNat := UInt32.le_iff_toNat_le.mp hupper
  omega

theorem parseFloat_of_splitSign {s : List Char} {sign : Int} {m : ℕ} (hword : IsWord s)
    (hascii : ∀ c ∈ s, c.toNat < 128) (h : splitSign s = (sign, m.repr.toList))
    (hn : |sign * m| ≤ 2 ^ 53) : parseFloat s = .ok (.finite ((sign * m : Int) : ℚ)) := by
  have hdigits := repr_digits m
  have hlower : m.repr.toList.map Char.toLower = m.repr.toList :=
    (List.map_congr_left fun c hc => toLower_of_isDigit (hdigits c hc)).trans (List.map_id _)
  have hne : ∀ {t : List Char} {c : Char}, c ∈ t → c.isDigit = false → m.repr.toList ≠ t := by
    rintro t c hc hdigit rfl
    exact absurd (hdigits c hc) (by simp [hdigit])
  have hvalue : (sign : ℚ) * (m : ℚ) = ((sign * m : Int) : ℚ) := by
    push_cast
    ring
  unfold parseFloat
  dsimp only
  rw [strip_of_noSpace hword.2, map_asciiDigit_of_ascii hascii, h]
  dsimp only
  rw [hlower, readDecimal_repr,
    if_neg (not_or.mpr ⟨hne (by decide : 'i' ∈ _) rfl, hne (by decide : 'i' ∈ _) rfl⟩),
    if_neg (hne (by decide : 'n' ∈ _) rfl)]
  dsimp only
  rw [hvalue, PyFloat.ofRat_intCast hn]

theorem strInt_isWord (n : Int) : IsWord (strInt n).toList := by
  refine ⟨fun h => strInt_ne_empty n (String.toList_eq_nil_iff.mp h), ?_⟩
  cases n with
  | ofNat m => exact (repr_isWord m).2
  | negSucc m =>
    simp only [strInt, Int.repr, String.toList_append, List.forall_mem_append]
    exact ⟨(by decide : IsWord "-".toList).2, (repr_isWord _).2⟩

theorem strInt_ascii (n : Int) : ∀ c ∈ (strInt n).toList, c.toNat < 128 := by
  cases n with
  | ofNat m => exact repr_ascii m
  | negSucc m =>
    simp only [strInt, Int.repr, String.toList_append, List.forall_mem_append]
    constructor
    · simp
    · exact repr_ascii _

theorem readSigned_of_splitSign {s : List Char} {sign : Int} {m : ℕ}
    (h : splitSign s = (sign, m.repr.toList)) : readSigned s = some (sign * m) := by
  have hvalue := ofDigitChars_repr m
  rw [readSigned, h]
  dsimp only
  rw [plainDigits_of_digits (repr_digits m)]
  cases htext : m.repr.toList with
  | nil => exact absurd htext (repr_toList_ne_nil m)
  | cons d digits =>
    rw [htext] at hvalue
    dsimp only
    rw [hvalue]

theorem splitSign_strInt (n : Int) :
    ∃ (sign : Int) (m : ℕ), splitSign (strInt n).toList = (sign, m.repr.toList) ∧ sign * m = n := by
  cases n with
  | ofNat m => exact ⟨1, m, splitSign_of_digits (repr_digits m), one_mul _⟩
  | negSucc m =>
    refine ⟨-1, m + 1, ?_, neg_one_mul _⟩
    simp only [strInt, Int.repr, String.toList_append]
    rfl

theorem parseInt_strInt (n : Int) : parseInt (strInt n).toList = .ok n := by
  obtain ⟨sign, m, hsplit, hvalue⟩ := splitSign_strInt n
  rw [parseInt, strip_of_noSpace (strInt_isWord n).2, map_asciiDigit_of_ascii (strInt_ascii n),
    readSigned_of_splitSign hsplit, hvalue]

theorem parseFloatInt_strInt {n : Int} (hn : |n| ≤ 2 ^ 53) :
    parseFloatInt (strInt n).toList = .ok n := by
  obtain ⟨sign, m, hsplit, hvalue⟩ := splitSign_strInt n
  rw [parseFloatInt, parseFloat_of_splitSign (strInt_isWord n) (strInt_ascii n) hsplit
    (hvalue ▸ hn), hvalue]
  exact PyFloat.toInt_intCast n

theorem parseFloat_zero : parseFloat "0.0".toList = .ok (.finite 0) := by
  have hread : readDecimal "0.0".toList = some 0 := by
    simp [readDecimal, plainDigits, readExponent, Nat.ofDigitChars]
  have hzero : PyFloat.ofRat 0 = .finite 0 := by
    simpa using PyFloat.ofRat_intCast (n := 0) (by decide)
  have hstrip : strip "0.0".toList = "0.0".toList := strip_of_noSpace (by decide : IsWord _).2
  have hascii : "0.0".toList.map asciiDigit = "0.0".toList := by decide
  unfold parseFloat
  dsimp only
  rw [hstrip, hascii, if_neg (by decide), if_neg (by decide), show splitSign "0.0".toList =
    (1, "0.0".toList) from rfl, hread]
  dsimp only
  rw [mul_zero, hzero]

end Printed

end Athena
