import Athena.Core.Describe
import Athena.Core.Numerals

/-!
# The generated version module

`hatch_build.py` writes the output of `git describe` into `_version.py` with
`repr`, and `version.py` imports it from there. The reader knows what Python
makes of comment lines and of assignments of a string literal to an annotated
name; octal and named escapes, continued lines and triple quotes are not read.
-/

namespace Athena

namespace VersionFile

def singleQuote : Char := Char.ofNat 0x27

def doubleQuote : Char := Char.ofNat 0x22

def escapeMark : Char := Char.ofNat 0x5c

def nul : Char := Char.ofNat 0

/-- `str.isprintable` on single characters. -/
structure PrintableClass where
  holds : Char → Bool
  nul : holds VersionFile.nul = false

section Writing

def hexDigits : ℕ → ℕ → List Char
  | 0, _ => []
  | width + 1, n => hexDigit (n / 16 ^ width % 16) :: hexDigits width n

/-- The character that `repr` puts around a string. -/
def quoteOf (s : List Char) : Char :=
  if singleQuote ∈ s ∧ doubleQuote ∉ s then doubleQuote else singleQuote

def reprChar (printable : PrintableClass) (quote c : Char) : List Char :=
  if c = quote ∨ c = escapeMark then [escapeMark, c]
  else if c = Char.ofNat 9 then [escapeMark, 't']
  else if c = newline then [escapeMark, 'n']
  else if c = carriageReturn then [escapeMark, 'r']
  else if printable.holds c then [c]
  else if c.toNat < 0x100 then escapeMark :: 'x' :: hexDigits 2 c.toNat
  else if c.toNat < 0x10000 then escapeMark :: 'u' :: hexDigits 4 c.toNat
  else escapeMark :: 'U' :: hexDigits 8 c.toNat

def repr (printable : PrintableClass) (s : List Char) : List Char :=
  quoteOf s :: (s.flatMap (reprChar printable (quoteOf s)) ++ [quoteOf s])

/-- `_git_describe`, on the return code and the output of `git` unless running it raises. -/
def gitDescribe : Option (Int × List Char) → List Char
  | none => "unknown-dev".toList
  | some (returncode, stdout) =>
    let output := strip (universalNewlines stdout)
    if returncode = 0 ∧ output ≠ [] then output else "unknown-dev".toList

def header : List Char := "# AUTO-GENERATED by hatch_build.py - DO NOT EDIT".toList

def ofTypeStr : List Char := ": str = ".toList

def assignment (printable : PrintableClass) (name value : List Char) : List Char :=
  name ++ (ofTypeStr ++ (repr printable value ++ [newline]))

def commitName : List Char := "__commit__".toList

def buildTimeName : List Char := "__build_time_utc__".toList

/-- What `CustomBuildHook.initialize` writes. -/
def versionFile (printable : PrintableClass) (commit buildTime : List Char) : List Char :=
  header ++ newline :: (assignment printable commitName commit ++
    assignment printable buildTimeName buildTime)

end Writing

section Reading

/-- The value of a hexadecimal digit of either case. -/
def hexValueOf (c : Char) : Option ℕ := (List.range 16).find? fun d => hexDigit d = c.toLower

def readHex (acc : ℕ) : ℕ → List Char → Option (ℕ × List Char)
  | 0, s => some (acc, s)
  | _ + 1, [] => none
  | width + 1, c :: s => (hexValueOf c).bind fun d => readHex (acc * 16 + d) width s

/-- Escapes of one character. -/
def simpleEscape : List (Char × Char) :=
  [(escapeMark, escapeMark), (singleQuote, singleQuote), (doubleQuote, doubleQuote),
    ('a', Char.ofNat 7), ('b', Char.ofNat 8), ('f', Char.ofNat 12), ('n', newline),
    ('r', carriageReturn), ('t', Char.ofNat 9), ('v', Char.ofNat 11)]

/-- Escapes by code point, with their width. -/
def hexEscape : List (Char × ℕ) := [('x', 2), ('u', 4), ('U', 8)]

def readEscape : List Char → Option (Char × List Char)
  | [] => none
  | c :: s =>
    match simpleEscape.lookup c with
    | some d => some (d, s)
    | none =>
      (hexEscape.lookup c).bind fun width => (readHex 0 width s).bind fun x =>
        if x.1.isValidChar then some (Char.ofNat x.1, x.2) else none

def readBody (quote : Char) : ℕ → List Char → Option (List Char × List Char)
  | 0, _ | _, [] => none
  | fuel + 1, c :: s =>
    if c = quote then some ([], s)
    else if c = newline ∨ c = carriageReturn then none
    else
      (if c = escapeMark then readEscape s else some (c, s)).bind fun x =>
        (readBody quote fuel x.2).map fun y => (x.1 :: y.1, y.2)

def readLiteral : List Char → Option (List Char × List Char)
  | [] => none
  | quote :: s =>
    if (quote = singleQuote ∨ quote = doubleQuote) ∧ s.take 2 ≠ [quote, quote] then
      readBody quote (s.length + 1) s
    else none

def isNameChar (c : Char) : Bool := c.isAlphanum || c = '_'

def isName : List Char → Bool
  | [] => false
  | c :: s => !c.isDigit && (c :: s).all isNameChar

/-- An assignment to an annotated name, with the end of its line. -/
def readAssignment (s : List Char) : Option ((List Char × List Char) × List Char) :=
  let name := s.takeWhile isNameChar
  let rest := s.dropWhile isNameChar
  if isName name ∧ ofTypeStr <+: rest then
    (readLiteral (rest.drop ofTypeStr.length)).bind fun x =>
      match x.2 with
      | [] => none
      | c :: rest => if c = newline then some ((name, x.1), rest) else none
  else none

/-- The statements of a module, at most one for each unit of fuel. -/
def readModule : ℕ → List Char → Option (List (List Char × List Char))
  | _, [] => some []
  | 0, _ :: _ => none
  | fuel + 1, c :: s =>
    if c = '#' then readModule fuel ((s.dropWhile (· ≠ newline)).drop 1)
    else (readAssignment (c :: s)).bind fun x => (readModule fuel x.2).map (x.1 :: ·)

/-- The attributes of the module, unless its text is no Python. -/
def importModule (text : List Char) : Option (List (List Char × List Char)) :=
  if nul ∈ text then none else readModule text.length text

/-- `POLICY_VERSION_SHA` in `version.py`, with the text of `_version.py` if there is one. With
`none` the text is not read: a `SyntaxError` is not caught there. -/
def policyVersionSha : Option (List Char) → Option String
  | none => some "unknown-dev"
  | some text =>
    (importModule text).map fun attributes =>
      match attributes.lookup commitName with
      | none => "unknown-dev"
      | some commit => extractPolicySha (String.ofList commit)

end Reading

section Hex

theorem hexValueOf_hexDigit {d : ℕ} (hd : d < 16) : hexValueOf (hexDigit d) = some d := by
  have hall : ∀ d < 16, hexValueOf (hexDigit d) = some d := by decide
  exact hall d hd

theorem readHex_hexDigits (acc width n : ℕ) (rest : List Char) :
    readHex acc width (hexDigits width n ++ rest) = some (acc * 16 ^ width + n % 16 ^ width, rest)
    := by
  induction width generalizing acc with
  | zero => simp [readHex, hexDigits, Nat.mod_one]
  | succ width ih =>
    have hd : n / 16 ^ width % 16 < 16 := Nat.mod_lt _ (by decide)
    rw [hexDigits, List.cons_append, readHex, hexValueOf_hexDigit hd, Option.bind_some, ih,
      Nat.mod_pow_succ]
    have harith : (acc * 16 + n / 16 ^ width % 16) * 16 ^ width + n % 16 ^ width =
        acc * 16 ^ (width + 1) + (n % 16 ^ width + 16 ^ width * (n / 16 ^ width % 16)) := by
      ring
    rw [harith]

end Hex

section Literals

variable {printable : PrintableClass} {quote : Char}

def IsQuote (c : Char) : Prop := c = singleQuote ∨ c = doubleQuote

theorem isQuote_quoteOf (s : List Char) : IsQuote (quoteOf s) := by
  unfold quoteOf
  split_ifs
  · exact .inr rfl
  · exact .inl rfl

theorem IsQuote.ne_escapeMark (hquote : IsQuote quote) : escapeMark ≠ quote := by
  rcases hquote with rfl | rfl <;> decide

theorem readEscape_simple {mark c : Char} (h : simpleEscape.lookup mark = some c)
    (rest : List Char) : readEscape (mark :: rest) = some (c, rest) := by
  rw [readEscape, h]

theorem readEscape_hex {mark : Char} {width : ℕ} (hsimple : simpleEscape.lookup mark = none)
    (hwidth : hexEscape.lookup mark = some width) {c : Char} (hc : c.toNat < 16 ^ width)
    (rest : List Char) :
    readEscape (mark :: (hexDigits width c.toNat ++ rest)) = some (c, rest) := by
  have hvalid : c.toNat.isValidChar := c.valid
  rw [readEscape, hsimple]
  dsimp only
  rw [hwidth, Option.bind_some, readHex_hexDigits, Option.bind_some, Nat.zero_mul, Nat.zero_add,
    Nat.mod_eq_of_lt hc, if_pos hvalid, Char.ofNat_toNat]

theorem IsQuote.nul_ne (hquote : IsQuote quote) : nul ≠ quote := by
  rcases hquote with rfl | rfl <;> decide

theorem nul_notMem_hexDigits (width n : ℕ) : nul ∉ hexDigits width n := by
  induction width with
  | zero => exact List.not_mem_nil
  | succ width ih =>
    have hdigit : hexDigit (n / 16 ^ width % 16) ≠ nul :=
      (hexDigit_isHex (Nat.mod_lt _ (by decide))).2
    rw [hexDigits, List.mem_cons]
    exact not_or.mpr ⟨hdigit.symm, ih⟩

/-- The part of an escape behind the backslash. -/
def EscapeOf (c : Char) (word : List Char) : Prop :=
  nul ∉ word ∧ ∀ rest, readEscape (word ++ rest) = some (c, rest)

theorem escapeOf_simple {mark c : Char} (hnul : nul ≠ mark)
    (h : simpleEscape.lookup mark = some c) : EscapeOf c [mark] :=
  ⟨fun hmem => hnul (List.mem_singleton.mp hmem), readEscape_simple h⟩

theorem escapeOf_hex {mark : Char} {width : ℕ} (hnul : nul ≠ mark)
    (hsimple : simpleEscape.lookup mark = none) (hwidth : hexEscape.lookup mark = some width)
    {c : Char} (hc : c.toNat < 16 ^ width) : EscapeOf c (mark :: hexDigits width c.toNat) := by
  refine ⟨?_, readEscape_hex hsimple hwidth hc⟩
  rw [List.mem_cons]
  exact not_or.mpr ⟨hnul, nul_notMem_hexDigits _ _⟩

theorem reprChar_cases (printable : PrintableClass) (hquote : IsQuote quote) (c : Char) :
    (reprChar printable quote c = [c] ∧ c ≠ quote ∧ c ≠ escapeMark ∧
        ¬ (c = newline ∨ c = carriageReturn) ∧ c ≠ nul) ∨
      ∃ word, reprChar printable quote c = escapeMark :: word ∧ EscapeOf c word := by
  unfold reprChar
  split_ifs with hmark htab hnewline hreturn hprintable hsmall hplane
  · right
    rcases hmark with rfl | rfl
    · refine ⟨_, rfl, escapeOf_simple hquote.nul_ne ?_⟩
      rcases hquote with rfl | rfl <;> decide
    · exact ⟨_, rfl, escapeOf_simple (by decide) (by decide)⟩
  · exact .inr ⟨_, rfl, escapeOf_simple (by decide) (htab ▸ by decide)⟩
  · exact .inr ⟨_, rfl, escapeOf_simple (by decide) (hnewline ▸ by decide)⟩
  · exact .inr ⟨_, rfl, escapeOf_simple (by decide) (hreturn ▸ by decide)⟩
  · obtain ⟨hne, hescape⟩ := not_or.mp hmark
    refine .inl ⟨rfl, hne, hescape, not_or.mpr ⟨hnewline, hreturn⟩, ?_⟩
    rintro rfl
    rw [printable.nul] at hprintable
    cases hprintable
  · exact .inr ⟨_, rfl, escapeOf_hex (by decide) (by decide) (by decide) hsmall⟩
  · exact .inr ⟨_, rfl, escapeOf_hex (by decide) (by decide) (by decide) hplane⟩
  · have hlarge : c.toNat < 16 ^ 8 := by
      have hvalid : c.toNat.isValidChar := c.valid
      unfold Nat.isValidChar at hvalid
      omega
    exact .inr ⟨_, rfl, escapeOf_hex (by decide) (by decide) (by decide) hlarge⟩

theorem readBody_reprChar (hquote : IsQuote quote) (c : Char) (rest : List Char) (fuel : ℕ) :
    readBody quote (fuel + 1) (reprChar printable quote c ++ rest) =
      (readBody quote fuel rest).map fun y => (c :: y.1, y.2) := by
  rcases reprChar_cases printable hquote c with
    ⟨hword, hne, hescape, hline, -⟩ | ⟨word, hword, -, hread⟩
  · rw [hword, List.singleton_append, readBody, if_neg hne, if_neg hline, if_neg hescape,
      Option.bind_some]
  · have hline : ¬ (escapeMark = newline ∨ escapeMark = carriageReturn) := by decide
    rw [hword, List.cons_append, readBody, if_neg hquote.ne_escapeMark, if_neg hline, if_pos rfl,
      hread, Option.bind_some]

theorem readBody_repr (hquote : IsQuote quote) (s rest : List Char) {fuel : ℕ}
    (hfuel : s.length < fuel) :
    readBody quote fuel (s.flatMap (reprChar printable quote) ++ quote :: rest) =
      some (s, rest) := by
  induction s generalizing fuel with
  | nil =>
    obtain ⟨fuel, rfl⟩ := Nat.exists_eq_succ_of_ne_zero (Nat.ne_of_gt hfuel)
    rw [List.flatMap_nil, List.nil_append, readBody, if_pos rfl]
  | cons c s ih =>
    obtain ⟨fuel, rfl⟩ := Nat.exists_eq_succ_of_ne_zero (Nat.ne_zero_of_lt hfuel)
    rw [List.flatMap_cons, List.append_assoc, readBody_reprChar hquote,
      ih (Nat.lt_of_succ_lt_succ hfuel)]
    rfl

theorem head_reprChar (printable : PrintableClass) (hquote : IsQuote quote) (c : Char) :
    ∃ d w, reprChar printable quote c = d :: w ∧ d ≠ quote := by
  rcases reprChar_cases printable hquote c with ⟨hword, hne, -⟩ | ⟨word, hword, -⟩
  · exact ⟨c, [], hword, hne⟩
  · exact ⟨escapeMark, word, hword, hquote.ne_escapeMark⟩

theorem length_le_flatMap_reprChar (printable : PrintableClass) (hquote : IsQuote quote)
    (s : List Char) :
    s.length ≤ (s.flatMap (reprChar printable quote)).length := by
  induction s with
  | nil => exact Nat.zero_le _
  | cons c s ih =>
    obtain ⟨d, w, hword, -⟩ := head_reprChar printable hquote c
    rw [List.flatMap_cons, hword, List.length_append, List.length_cons, List.length_cons]
    omega

theorem readLiteral_repr (s : List Char) {c : Char} (hc : c ≠ quoteOf s) (rest : List Char) :
    readLiteral (repr printable s ++ c :: rest) = some (s, c :: rest) := by
  have hquote := isQuote_quoteOf s
  unfold repr
  generalize quoteOf s = quote at hc hquote ⊢
  have htext : quote :: (s.flatMap (reprChar printable quote) ++ [quote]) ++ c :: rest =
      quote :: (s.flatMap (reprChar printable quote) ++ quote :: c :: rest) := by simp
  have htriple : (s.flatMap (reprChar printable quote) ++ quote :: c :: rest).take 2 ≠
      [quote, quote] := by
    cases s with
    | nil =>
      rw [List.flatMap_nil, List.nil_append]
      exact fun heq => hc (List.cons.inj (List.cons.inj heq).2).1
    | cons d s =>
      obtain ⟨e, w, hword, he⟩ := head_reprChar printable hquote d
      rw [List.flatMap_cons, hword]
      exact fun heq => he (List.cons.inj heq).1
  rw [htext, readLiteral, if_pos ⟨hquote, htriple⟩]
  have hlength := length_le_flatMap_reprChar printable hquote s
  apply readBody_repr hquote
  rw [List.length_append]
  omega

theorem nul_notMem_reprChar (hquote : IsQuote quote) (c : Char) :
    nul ∉ reprChar printable quote c := by
  rcases reprChar_cases printable hquote c with ⟨hword, -, -, -, hne⟩ | ⟨word, hword, hnul, -⟩
  · rw [hword, List.mem_singleton]
    exact hne.symm
  · have hescape : nul ≠ escapeMark := by decide
    rw [hword, List.mem_cons]
    exact not_or.mpr ⟨hescape, hnul⟩

theorem nul_notMem_repr (s : List Char) : nul ∉ repr printable s := by
  have hquote := isQuote_quoteOf s
  intro hmem
  rcases List.mem_cons.mp hmem with heq | hmem
  · exact hquote.nul_ne heq
  · rcases List.mem_append.mp hmem with hmem | hmem
    · obtain ⟨c, -, hmem⟩ := List.mem_flatMap.mp hmem
      exact nul_notMem_reprChar hquote c hmem
    · exact hquote.nul_ne (List.mem_singleton.mp hmem)

end Literals

section Modules

variable (printable : PrintableClass)

theorem isNameChar_of_isName {name : List Char} (hname : isName name = true) :
    ∀ c ∈ name, isNameChar c = true := by
  cases name with
  | nil => cases hname
  | cons c s => exact List.all_eq_true.mp (Bool.and_eq_true_iff.mp hname).2

theorem readAssignment_eq {name : List Char} (hname : isName name = true)
    (value rest : List Char) :
    readAssignment (assignment printable name value ++ rest) = some ((name, value), rest) := by
  have hchars := isNameChar_of_isName hname
  have htext : assignment printable name value ++ rest =
      name ++ (ofTypeStr ++ (repr printable value ++ newline :: rest)) := by
    simp [assignment]
  -- the name ends at the colon
  have hstop : (ofTypeStr ++ (repr printable value ++ newline :: rest)).takeWhile isNameChar =
      [] := rfl
  have hdrop : (ofTypeStr ++ (repr printable value ++ newline :: rest)).dropWhile isNameChar =
      ofTypeStr ++ (repr printable value ++ newline :: rest) := rfl
  have hquote : newline ≠ quoteOf value := by
    rcases isQuote_quoteOf value with heq | heq <;> rw [heq] <;> decide
  rw [htext, readAssignment]
  simp only [List.takeWhile_append_of_pos hchars, List.dropWhile_append_of_pos hchars, hstop,
    hdrop, List.append_nil]
  rw [if_pos ⟨hname, List.prefix_append _ _⟩, List.drop_left, readLiteral_repr value hquote,
    Option.bind_some]
  dsimp only
  rw [if_pos rfl]

theorem nul_notMem_assignment {name : List Char} (hname : nul ∉ name) (value : List Char) :
    nul ∉ assignment printable name value := by
  have hcolon : nul ∉ ofTypeStr := by decide
  have hnewline : nul ∉ [newline] := by decide
  unfold assignment
  simp only [List.mem_append]
  rintro (h | h | h | h)
  · exact hname h
  · exact hcolon h
  · exact nul_notMem_repr value h
  · exact hnewline h

theorem readModule_assignment {name : List Char} (hname : isName name = true)
    (value rest : List Char) (fuel : ℕ) :
    readModule (fuel + 1) (assignment printable name value ++ rest) =
      (readModule fuel rest).map ((name, value) :: ·) := by
  have hread := readAssignment_eq printable hname value rest
  have hchars := isNameChar_of_isName hname
  have hne : name ≠ [] := by
    rintro rfl
    cases hname
  obtain ⟨c, s, rfl⟩ := List.exists_cons_of_ne_nil hne
  have hcomment : c ≠ '#' := by
    rintro rfl
    exact absurd (hchars '#' List.mem_cons_self) (by decide)
  have htext : assignment printable (c :: s) value ++ rest =
      c :: (s ++ (ofTypeStr ++ (repr printable value ++ [newline])) ++ rest) := rfl
  rw [htext] at hread ⊢
  rw [readModule, if_neg hcomment, hread, Option.bind_some]

theorem importModule_versionFile (commit buildTime : List Char) :
    importModule (versionFile printable commit buildTime) =
      some [(commitName, commit), (buildTimeName, buildTime)] := by
  have hnul : nul ∉ versionFile printable commit buildTime := by
    have hheader : nul ∉ header := by decide
    have hnewline : nul ≠ newline := by decide
    unfold versionFile
    simp only [List.mem_append, List.mem_cons]
    rintro (h | h | h | h)
    · exact hheader h
    · exact hnewline h
    · exact nul_notMem_assignment printable (by decide) commit h
    · exact nul_notMem_assignment printable (by decide) buildTime h
  -- one unit of fuel for the comment, two for the assignments
  obtain ⟨fuel, hfuel⟩ : ∃ fuel, (versionFile printable commit buildTime).length = fuel + 3 :=
    ⟨_, rfl⟩
  have hcomment : readModule (fuel + 3) (versionFile printable commit buildTime) =
      readModule (fuel + 2) (assignment printable commitName commit ++
        (assignment printable buildTimeName buildTime ++ [])) := by
    rw [List.append_nil]
    rfl
  have hcommit : isName commitName = true := rfl
  have hbuildTime : isName buildTimeName = true := rfl
  rw [importModule, if_neg hnul, hfuel, hcomment, readModule_assignment _ hcommit,
    readModule_assignment _ hbuildTime]
  cases fuel <;> rfl

theorem policyVersionSha_versionFile (commit buildTime : List Char) :
    policyVersionSha (some (versionFile printable commit buildTime)) =
      some (extractPolicySha (String.ofList commit)) := by
  rw [policyVersionSha, importModule_versionFile]
  rfl

/-- The build's commit is the runtime's identity: what `version.py` takes from the module that
`hatch_build.py` has written is the SHA of the very output of `git describe`, stripped, or of
`unknown-dev`. -/
theorem version_file_round_trip (described : Option (Int × List Char))
    (buildTime : List Char) :
    importModule (versionFile printable (gitDescribe described) buildTime) =
        some [(commitName, gitDescribe described), (buildTimeName, buildTime)] ∧
      policyVersionSha (some (versionFile printable (gitDescribe described) buildTime)) =
        some (extractPolicySha (String.ofList (gitDescribe described))) :=
  ⟨importModule_versionFile printable _ buildTime,
    policyVersionSha_versionFile printable _ buildTime⟩

end Modules

section Identity

/-- Of a line that ends without spaces, only the start and the line end are stripped. -/
theorem strip_line (lead : List Char) {tail : List Char} (hne : tail ≠ [])
    (hspace : ∀ c ∈ tail, isSpace c = false) :
    strip (lead ++ tail ++ [newline]) = lead.dropWhile isSpace ++ tail := by
  have hfront : (lead ++ tail ++ [newline]).dropWhile isSpace =
      lead.dropWhile isSpace ++ tail ++ [newline] := by
    obtain ⟨c, tail, rfl⟩ := List.exists_cons_of_ne_nil hne
    have hc := hspace c List.mem_cons_self
    rw [List.append_assoc, List.cons_append, List.dropWhile_append,
      List.dropWhile_cons_of_neg (by simp [hc])]
    split_ifs with hempty
    · rw [List.isEmpty_iff.mp hempty]
      rfl
    · simp
  have hlast : ∃ s c, lead.dropWhile isSpace ++ tail = s ++ [c] ∧ isSpace c = false := by
    obtain ⟨s, c, rfl⟩ := (List.eq_nil_or_concat' tail).resolve_left hne
    exact ⟨_, c, (List.append_assoc _ s [c]).symm, hspace c (by simp)⟩
  rw [strip_eq, hfront]
  exact (rdropWhile_append_of_neg hlast [newline]).trans (List.append_nil _)

theorem isSpace_of_isHexLower {c : Char} (h : isHexLower c) : isSpace c = false := by
  obtain ⟨hlo, hhi⟩ := isHexLower_bounds h
  simp only [isSpace, Bool.or_eq_false_iff, Bool.and_eq_false_iff, decide_eq_false_iff_not]
  omega

theorem noSpace_of_all {s : List Char} (h : s.all (fun c => !isSpace c) = true) :
    ∀ c ∈ s, isSpace c = false := fun c hc => by simpa using List.all_eq_true.mp h c hc

theorem noSpace_marked {run : List Char} (h : IsRun run) (dirty : Bool) :
    ∀ c ∈ run ++ dirtyMark dirty, isSpace c = false := by
  have hmark : ∀ c ∈ dirtyMark dirty, isSpace c = false :=
    noSpace_of_all (by cases dirty <;> decide)
  exact List.forall_mem_append.mpr ⟨fun c hc => isSpace_of_isHexLower (h.1 c hc), hmark⟩

theorem endsIn_strip {text run : List Char} {dirty : Bool} (h : EndsIn text run dirty)
    (hline : newline ∉ text) :
    newline ∉ strip (text ++ [newline]) ∧ EndsIn (strip (text ++ [newline])) run dirty := by
  obtain ⟨hrun, htext⟩ := h
  have hspace := noSpace_marked hrun dirty
  have hne : run ++ dirtyMark dirty ≠ [] := by
    have hlength := hrun.2.1
    exact List.append_ne_nil_of_left_ne_nil (List.ne_nil_of_length_pos (by omega)) _
  rcases htext with rfl | ⟨lead, rfl⟩
  · have hstrip := strip_line [] hne hspace
    rw [List.nil_append] at hstrip
    rw [hstrip]
    exact ⟨hline, hrun, .inl rfl⟩
  · have hmarked : ∀ c ∈ "-g".toList ++ (run ++ dirtyMark dirty), isSpace c = false :=
      List.forall_mem_append.mpr ⟨noSpace_of_all (by decide), hspace⟩
    have htext : lead ++ "-g".toList ++ (run ++ dirtyMark dirty) =
        lead ++ ("-g".toList ++ (run ++ dirtyMark dirty)) := List.append_assoc _ _ _
    rw [htext] at hline ⊢
    rw [strip_line lead (by simp) hmarked]
    refine ⟨fun hmem => hline ?_, hrun, .inr ⟨_, (List.append_assoc _ _ _).symm⟩⟩
    exact ((List.dropWhile_suffix isSpace).sublist.append_right _).subset hmem

/-- What the build hook makes of the line that `git describe` prints. -/
theorem endsIn_gitDescribe {text run : List Char} {dirty : Bool} (h : EndsIn text run dirty)
    (hcontrol : ∀ c ∈ text, 32 ≤ c.toNat) :
    newline ∉ gitDescribe (some (0, text ++ [newline])) ∧
      EndsIn (gitDescribe (some (0, text ++ [newline]))) run dirty := by
  have hline : newline ∉ text := fun hmem => absurd (hcontrol newline hmem) (by decide)
  have hreturn : carriageReturn ∉ text := fun hmem =>
    absurd (hcontrol carriageReturn hmem) (by decide)
  have htext : universalNewlines (text ++ [newline]) = text ++ [newline] :=
    universalNewlines_append hreturn [newline]
  have hends := endsIn_strip h hline
  have hne : strip (text ++ [newline]) ≠ [] := by
    intro hempty
    rw [hempty] at hends
    obtain ⟨-, hrun, htext | ⟨lead, htext⟩⟩ := hends
    · have hlength := hrun.2.1
      rw [(List.append_eq_nil_iff.mp htext.symm).1] at hlength
      exact absurd hlength (by decide)
    · exact absurd htext.symm (by simp)
  have hdescribed : gitDescribe (some (0, text ++ [newline])) = strip (text ++ [newline]) := by
    unfold gitDescribe
    simp only [htext]
    exact if_pos ⟨trivial, hne⟩
  rw [hdescribed]
  exact hends

/-- From the commit to the runtime: where `git describe` prints the abbreviated SHA, whatever tag
and distance stand before it, `POLICY_VERSION_SHA` is this SHA, marked exactly if the tree was
dirty at the build. -/
theorem build_identity (printable : PrintableClass) {head : CommitSha} {d : Describe head}
    {a : Abbreviation head} (h : d.abbreviation? = some a) (dirty : Bool) (buildTime : List Char) :
    policyVersionSha (some (versionFile printable
        (gitDescribe (some (0, d.text ++ dirtyMark dirty ++ [newline]))) buildTime)) =
      some (String.ofList (a.text ++ dirtyMark dirty)) := by
  obtain ⟨hline, hends⟩ :=
    endsIn_gitDescribe (Describe.endsIn_of_abbreviation h) (d.output_printable dirty)
  rw [policyVersionSha_versionFile, extractPolicySha_of_endsIn hline hends]

def asciiPrintable : PrintableClass := ⟨fun c => 32 ≤ c.toNat && c.toNat < 127, rfl⟩

theorem build_identity_dirty :
    policyVersionSha (some (versionFile asciiPrintable
        (gitDescribe (some (0, "20260421-5-gaaaaaaa-dirty".toList ++ [newline])))
        "2026-04-22T09:00:00+00:00".toList)) =
      some "aaaaaaa-dirty" :=
  build_identity asciiPrintable
    (d := .distance Describe.dateTag 5 (⟨7, by decide⟩ : Abbreviation Describe.taggedHead)) rfl true
    _

end Identity

end VersionFile

end Athena
