import Athena.Core.Numerals
import Athena.Ledger.CanonicalForm
import Athena.Library.RecursiveDescent

/-!
# The tokens of JSON

The readers of `json.loads` for a string behind its opening quotation mark, for
a number, and for the constants. A string keeps a surrogate that has no partner;
a number without fraction and exponent is an `int`, any other a float, which is
known by the text that `float.__repr__` gives it.
-/

namespace Athena

namespace JsonLoads

open RecursiveDescent CanonicalJson

abbrev JsonReader (β : Type) := Reader PyErr Char β

theorem ok_pair_inj {ε β : Type} {b c : β} {r s : List Char}
    (h : (.ok (b, r) : Except ε (β × List Char)) = .ok (c, s)) : b = c ∧ r = s :=
  Prod.mk.inj (Except.ok.inj h)

section Strings

/-- The value of a hexadecimal digit of either case. -/
def hexDigitValue (c : Char) : Option ℕ :=
  let n := c.toNat
  if 48 ≤ n ∧ n ≤ 57 then some (n - 48)
  else if 97 ≤ n ∧ n ≤ 102 then some (n - 87)
  else if 65 ≤ n ∧ n ≤ 70 then some (n - 55)
  else none

/-- The four hexadecimal digits behind a `\u`. -/
def readUnit : List Char → Option (ℕ × List Char)
  | a :: b :: c :: d :: rest => do
    let a ← hexDigitValue a
    let b ← hexDigitValue b
    let c ← hexDigitValue c
    let d ← hexDigitValue d
    return (a * 0x1000 + b * 0x100 + c * 0x10 + d, rest)
  | _ => none

/-- What the character behind a backslash stands for. -/
def simpleEscapes : List (Char × ℕ) :=
  [(quotationMark, 0x22), (backslash, 0x5c), ('/', 0x2f), ('b', 0x08), ('f', 0x0c), ('n', 0x0a),
    ('r', 0x0d), ('t', 0x09)]

theorem mod_codePoints_lt (n : ℕ) : n % 0x110000 < 0x110000 := Nat.mod_lt n (by decide)

def codePoint (n : ℕ) : Fin 0x110000 := ⟨n % 0x110000, mod_codePoints_lt n⟩

/-- The unit behind a high surrogate, if there is an escape of one. -/
def readPartner : List Char → Except PyErr (Option (ℕ × List Char))
  | b :: u :: rest =>
    if b = backslash ∧ u = 'u' then
      match readUnit rest with
      | none => .error .jsonDecodeError
      | some unit => .ok (some unit)
    else .ok none
  | _ => .ok none

/-- An escape behind its `\u`; two that make a surrogate pair are read as one. -/
def scanUnicode (s : List Char) : Except PyErr (Fin 0x110000 × List Char) :=
  match readUnit s with
  | none => .error .jsonDecodeError
  | some (hi, rest) =>
    if 0xd800 ≤ hi ∧ hi ≤ 0xdbff then
      match readPartner rest with
      | .error e => .error e
      | .ok none => .ok (codePoint hi, rest)
      | .ok (some (lo, rest')) =>
        if 0xdc00 ≤ lo ∧ lo ≤ 0xdfff then
          .ok (codePoint (0x10000 + (hi - 0xd800) * 0x400 + (lo - 0xdc00)), rest')
        else .ok (codePoint hi, rest)
    else .ok (codePoint hi, rest)

/-- One code point of a string; control characters have to be escaped. -/
def scanChar : List Char → Except PyErr (Fin 0x110000 × List Char)
  | [] => .error .jsonDecodeError
  | c :: s =>
    if c = backslash then
      match s with
      | [] => .error .jsonDecodeError
      | d :: s =>
        if d = 'u' then scanUnicode s
        else
          match simpleEscapes.lookup d with
          | none => .error .jsonDecodeError
          | some n => .ok (codePoint n, s)
    else if c.toNat ≤ 0x1f then .error .jsonDecodeError
    else .ok (codePoint c.toNat, s)

theorem readUnit_eq_some {s rest : List Char} {n : ℕ} (h : readUnit s = some (n, rest)) :
    ∃ a b c d, s = a :: b :: c :: d :: rest ∧
      ∀ t, readUnit (a :: b :: c :: d :: t) = some (n, t) := by
  match s, h with
  | a :: b :: c :: d :: rest', h =>
    simp only [readUnit, bind, Option.bind_eq_some_iff, pure, Option.some.injEq,
      Prod.mk.injEq] at h
    obtain ⟨x, hx, y, hy, z, hz, w, hw, hn, rfl⟩ := h
    refine ⟨a, b, c, d, rfl, fun t => ?_⟩
    simp only [readUnit, hx, hy, hz, hw, bind, Option.bind_some, pure, hn]

theorem readUnit_append {s rest : List Char} {n : ℕ} (h : readUnit s = some (n, rest))
    (t : List Char) : readUnit (s ++ t) = some (n, rest ++ t) := by
  obtain ⟨a, b, c, d, rfl, hread⟩ := readUnit_eq_some h
  exact hread (rest ++ t)

theorem readUnit_length {s rest : List Char} {n : ℕ} (h : readUnit s = some (n, rest)) :
    rest.length < s.length := by
  obtain ⟨a, b, c, d, rfl, -⟩ := readUnit_eq_some h
  simp only [List.length_cons]
  omega

/-- What the unit behind a high surrogate can be. -/
theorem readPartner_eq_some {s rest : List Char} {n : ℕ}
    (h : readPartner s = .ok (some (n, rest))) :
    ∃ u, s = backslash :: 'u' :: u ∧ readUnit u = some (n, rest) := by
  match s, h with
  | b :: u :: s, h =>
    rw [readPartner] at h
    split_ifs at h with hbu
    · obtain ⟨rfl, rfl⟩ := hbu
      cases hread : readUnit s with
      | none => rw [hread] at h; cases h
      | some unit =>
        rw [hread] at h
        cases h
        exact ⟨s, rfl, hread⟩
    · cases h

theorem scanUnicode_length {s r : List Char} {c : Fin 0x110000}
    (h : scanUnicode s = .ok (c, r)) : r.length < s.length := by
  have hrest : ∀ {d : Fin 0x110000} {rest : List Char}, rest.length < s.length →
      (Except.ok (d, rest) : Except PyErr _) = .ok (c, r) → r.length < s.length :=
    fun hlt heq => (ok_pair_inj heq).2 ▸ hlt
  unfold scanUnicode at h
  cases hunit : readUnit s with
  | none => rw [hunit] at h; cases h
  | some unit =>
    have hlength := readUnit_length hunit
    rw [hunit] at h
    dsimp only at h
    split_ifs at h with hhigh
    · cases hpartner : readPartner unit.2 with
      | error e => rw [hpartner] at h; cases h
      | ok partner =>
        rw [hpartner] at h
        cases partner with
        | none => exact hrest hlength h
        | some low =>
          dsimp only at h
          split_ifs at h with hlow
          · obtain ⟨u, hu, hread⟩ := readPartner_eq_some hpartner
            have hlength' := readUnit_length hread
            rw [hu, List.length_cons, List.length_cons] at hlength
            exact hrest (by omega) h
          · exact hrest hlength h
    · exact hrest hlength h

theorem scanChar_length {s r : List Char} {c : Fin 0x110000} (h : scanChar s = .ok (c, r)) :
    r.length < s.length := by
  have hrest : ∀ {d : Fin 0x110000} {rest : List Char}, rest.length < s.length →
      (Except.ok (d, rest) : Except PyErr _) = .ok (c, r) → r.length < s.length :=
    fun hlt heq => (ok_pair_inj heq).2 ▸ hlt
  cases s with
  | nil => cases h
  | cons d s =>
    rw [scanChar.eq_def] at h
    dsimp only at h
    split_ifs at h with hback hcontrol
    · cases s with
      | nil => cases h
      | cons x s =>
        dsimp only at h
        split_ifs at h with hu
        · have hlength := scanUnicode_length h
          simp only [List.length_cons]
          omega
        · cases hlookup : simpleEscapes.lookup x with
          | none => rw [hlookup] at h; cases h
          | some n =>
            rw [hlookup] at h
            exact hrest (by simp only [List.length_cons]; omega) h
    · exact hrest (Nat.lt_succ_self _) h

/-- `scanstring`, behind the opening quotation mark. -/
def scanString : JsonReader PyStr :=
  readUntil .jsonDecodeError quotationMark ⟨scanChar, scanChar_length⟩

theorem hexDigitValue_hexDigit {n : ℕ} (hn : n < 16) : hexDigitValue (hexDigit n) = some n := by
  interval_cases n <;> decide

theorem readUnit_escapeUnit {n : ℕ} (hn : n < 0x10000) (rest : List Char) :
    ∃ u, escapeUnit n ++ rest = backslash :: 'u' :: u ∧ readUnit u = some (n, rest) := by
  refine ⟨[hexDigit (n / 0x1000 % 16), hexDigit (n / 0x100 % 16), hexDigit (n / 0x10 % 16),
    hexDigit (n % 16)] ++ rest, rfl, ?_⟩
  have hdigit : ∀ m : ℕ, hexDigitValue (hexDigit (m % 16)) = some (m % 16) :=
    fun m => hexDigitValue_hexDigit (Nat.mod_lt _ (by decide))
  have hsum : n / 0x1000 % 16 * 0x1000 + n / 0x100 % 16 * 0x100 + n / 0x10 % 16 * 0x10 + n % 16 =
      n := by omega
  simp only [List.cons_append, List.nil_append, readUnit, hdigit, bind, Option.bind_some, pure,
    hsum]

theorem codePoint_val (c : Fin 0x110000) : codePoint c.val = c :=
  Fin.ext (Nat.mod_eq_of_lt c.isLt)

theorem scanChar_unicode (s : List Char) :
    scanChar (backslash :: 'u' :: s) = scanUnicode s := by
  simp only [scanChar, if_true]

theorem scanChar_plain {c : Char} (hback : c ≠ backslash) (hcontrol : ¬ c.toNat ≤ 0x1f)
    (s : List Char) : scanChar (c :: s) = .ok (codePoint c.toNat, s) := by
  rw [scanChar.eq_def]
  dsimp only
  rw [if_neg hback, if_neg hcontrol]

theorem scanUnicode_plain {n : ℕ} (hplain : ¬ (0xd800 ≤ n ∧ n ≤ 0xdbff)) {u rest : List Char}
    (hread : readUnit u = some (n, rest)) : scanUnicode u = .ok (codePoint n, rest) := by
  simp only [scanUnicode, hread, if_neg hplain]

def IsHighSurrogate (c : Fin 0x110000) : Prop := 0xd800 ≤ c.val ∧ c.val ≤ 0xdbff

def IsLowSurrogate (c : Fin 0x110000) : Prop := 0xdc00 ≤ c.val ∧ c.val ≤ 0xdfff

/-- No high surrogate stands right before a low one. -/
def Unpaired (s : PyStr) : Prop := s.IsChain fun a b => ¬ (IsHighSurrogate a ∧ IsLowSurrogate b)

theorem Unpaired.of_isText {s : PyStr} (hs : IsText s) : Unpaired s := by
  refine List.Pairwise.isChain (List.pairwise_iff_forall_sublist.mpr fun {a b} hab hpair => ?_)
  have ha := hs a (hab.subset List.mem_cons_self)
  obtain ⟨⟨hlo, hhi⟩, -⟩ := hpair
  rcases ha with ha | ha <;> omega

/-- No low surrogate is read in front of the text. -/
def PartnerFree (s : List Char) : Prop :=
  ∃ partner, readPartner s = .ok partner ∧
    ∀ unit ∈ partner, ¬ (0xdc00 ≤ unit.1 ∧ unit.1 ≤ 0xdfff)

theorem partnerFree_cons {c : Char} (hc : c ≠ backslash) (s : List Char) :
    PartnerFree (c :: s) := by
  refine ⟨none, ?_, nofun⟩
  cases s with
  | nil => rfl
  | cons u s => exact if_neg fun h => hc h.1

theorem partnerFree_escape {c : Fin 0x110000} (hc : ¬ IsLowSurrogate c) (rest : List Char) :
    PartnerFree (escapeChar c ++ rest) := by
  have hunit : ∀ {n u t}, readUnit u = some (n, t) → ¬ (0xdc00 ≤ n ∧ n ≤ 0xdfff) →
      PartnerFree (backslash :: 'u' :: u) := by
    intro n u t hread hn
    refine ⟨some (n, t), by simp only [readPartner, and_self, if_true, hread], ?_⟩
    rintro unit ⟨⟩
    exact hn
  have hshort : ∀ e ∈ shortEscapes, e.2 ≠ 'u' := by decide
  rcases escapeChar_cases c with
    ⟨d, hd, heq⟩ | ⟨⟨-, hne⟩, hprint, heq⟩ | ⟨hplane, heq⟩ | ⟨hplane, heq⟩
  · rw [heq]
    exact ⟨none, if_neg fun h => hshort _ hd h.2, nofun⟩
  · rw [heq]
    refine partnerFree_cons (fun hback => hne ?_) rest
    rw [← toNat_ofNat_printable hprint, hback]
    rfl
  · obtain ⟨u, hu, hread⟩ := readUnit_escapeUnit hplane rest
    rw [heq, hu]
    exact hunit hread hc
  · have hlt := c.isLt
    obtain ⟨w, hw, -⟩ := readUnit_escapeUnit
      (by omega : 0xdc00 + (c.val - 0x10000) % 0x400 < 0x10000) rest
    obtain ⟨u, hu, hhigh⟩ := readUnit_escapeUnit
      (by omega : 0xd800 + (c.val - 0x10000) / 0x400 < 0x10000) (backslash :: 'u' :: w)
    rw [heq, List.append_assoc, hw, hu]
    exact hunit hhigh (by omega)

/-- A code point is recovered from its escape; a high surrogate, unless a low one follows. -/
theorem scanChar_escapeChar {c : Fin 0x110000} {rest : List Char}
    (hc : IsHighSurrogate c → PartnerFree rest) :
    scanChar (escapeChar c ++ rest) = .ok (c, rest) := by
  have hshort : ∀ e ∈ shortEscapes, simpleEscapes.lookup e.2 = some e.1 ∧ e.2 ≠ 'u' := by decide
  have hlt := c.isLt
  rcases escapeChar_cases c with
    ⟨d, hd, heq⟩ | ⟨⟨-, hne⟩, hprint, heq⟩ | ⟨hplane, heq⟩ | ⟨hplane, heq⟩
  · obtain ⟨hlookup, hu⟩ := hshort _ hd
    dsimp only at hlookup hu
    rw [heq]
    simp only [List.cons_append, List.nil_append, scanChar, if_true, if_neg hu, hlookup,
      codePoint_val]
  · have hnat : (Char.ofNat c.val).toNat = c.val := toNat_ofNat_printable hprint
    have hplain : Char.ofNat c.val ≠ backslash := by
      intro hback
      rw [hback] at hnat
      exact hne hnat.symm
    rw [heq, List.singleton_append, scanChar_plain hplain (by rw [hnat]; omega), hnat,
      codePoint_val]
  · obtain ⟨u, hu, hread⟩ := readUnit_escapeUnit hplane rest
    rw [heq, hu, scanChar_unicode]
    by_cases hhigh : IsHighSurrogate c
    · obtain ⟨partner, hpartner, hlow⟩ := hc hhigh
      have hhigh' : 0xd800 ≤ c.val ∧ c.val ≤ 0xdbff := hhigh
      rw [scanUnicode, hread]
      simp only [if_pos hhigh', hpartner, codePoint_val]
      cases partner with
      | none => rfl
      | some unit => exact if_neg (hlow unit rfl)
    · rw [scanUnicode_plain hhigh hread, codePoint_val]
  · have hvalue : 0x10000 + (0xd800 + (c.val - 0x10000) / 0x400 - 0xd800) * 0x400 +
        (0xdc00 + (c.val - 0x10000) % 0x400 - 0xdc00) = c.val := by omega
    rw [heq, List.append_assoc]
    obtain ⟨w, hw, hlow⟩ := readUnit_escapeUnit
      (by omega : 0xdc00 + (c.val - 0x10000) % 0x400 < 0x10000) rest
    obtain ⟨u, hu, hhigh⟩ := readUnit_escapeUnit
      (by omega : 0xd800 + (c.val - 0x10000) / 0x400 < 0x10000) (backslash :: 'u' :: w)
    rw [hw, hu, scanChar_unicode, scanUnicode, hhigh]
    simp only [readPartner, and_self, if_true, hlow]
    rw [if_pos (by omega), if_pos (by omega), hvalue, codePoint_val]

/-- A string is recovered from its encoding behind the quotation mark. -/
theorem scanString_recovers {s : PyStr} (hs : Unpaired s) :
    Recovers scanString (fun _ => True) (s.flatMap escapeChar ++ [quotationMark]) s := by
  have hchar : ∀ c ys r, c :: ys <:+ s →
      scanChar (escapeChar c ++ (ys.flatMap escapeChar ++ quotationMark :: r)) =
        .ok (id c, ys.flatMap escapeChar ++ quotationMark :: r) := by
    intro c ys r hys
    apply scanChar_escapeChar
    intro hhigh
    cases ys with
    | nil => exact partnerFree_cons (by decide) r
    | cons d ys =>
      have hnext : ¬ (IsHighSurrogate c ∧ IsLowSurrogate d) :=
        (List.isChain_cons_cons.mp (hs.suffix hys)).1
      rw [List.flatMap_cons, List.append_assoc]
      exact partnerFree_escape (fun hlow => hnext ⟨hhigh, hlow⟩) _
  have h := @readUntil_recovers PyErr Char (Fin 0x110000) (Fin 0x110000) _ .jsonDecodeError
    quotationMark ⟨scanChar, scanChar_length⟩ escapeChar id s (fun c _ => escapeChar_head c) hchar
  rwa [List.map_id] at h

/-- In front of a quotation mark or of a further character, an escape is read likewise when the
text goes on. -/
theorem readPartner_append {s : List Char} {partner : Option (ℕ × List Char)}
    (h : readPartner s = .ok partner)
    (hnext : (∃ r, s = quotationMark :: r) ∨ ∃ x, scanChar s = .ok x) (t : List Char) :
    readPartner (s ++ t) = .ok (partner.map fun unit => (unit.1, unit.2 ++ t)) := by
  match s, h with
  | [], _ =>
    rcases hnext with ⟨_, h⟩ | ⟨_, h⟩ <;> cases h
  | [b], h =>
    have hb : b ≠ backslash := by
      rintro rfl
      rcases hnext with ⟨_, h⟩ | ⟨_, h⟩
      · exact absurd (List.cons.inj h).1 (by decide)
      · simp [scanChar] at h
    cases h
    cases t with
    | nil => rfl
    | cons u t =>
      rw [List.singleton_append, readPartner, if_neg (fun h => hb h.1)]
      rfl
  | b :: u :: s, h =>
    rw [List.cons_append, List.cons_append]
    rw [readPartner] at h ⊢
    split_ifs at h ⊢ with hbu
    · cases hread : readUnit s with
      | none => rw [hread] at h; cases h
      | some unit =>
        rw [hread] at h
        cases h
        rw [readUnit_append hread t]
        rfl
    · cases h
      rfl

theorem scanUnicode_append {s r : List Char} {c : Fin 0x110000} (h : scanUnicode s = .ok (c, r))
    (hnext : (∃ r', r = quotationMark :: r') ∨ ∃ x, scanChar r = .ok x) (t : List Char) :
    scanUnicode (s ++ t) = .ok (c, r ++ t) := by
  unfold scanUnicode at h ⊢
  cases hunit : readUnit s with
  | none => rw [hunit] at h; cases h
  | some unit =>
    rw [hunit] at h
    rw [readUnit_append hunit t]
    dsimp only at h ⊢
    split_ifs at h ⊢ with hhigh
    · cases hpartner : readPartner unit.2 with
      | error e => rw [hpartner] at h; cases h
      | ok partner =>
        rw [hpartner] at h
        cases partner with
        | none =>
          obtain ⟨rfl, rfl⟩ := ok_pair_inj h
          rw [readPartner_append hpartner hnext t]
          rfl
        | some low =>
          obtain ⟨u, hu, hread⟩ := readPartner_eq_some hpartner
          have happend : readPartner (unit.2 ++ t) = .ok (some (low.1, low.2 ++ t)) := by
            rw [hu, List.cons_append, List.cons_append]
            simp only [readPartner, and_self, if_true, readUnit_append hread t]
          rw [happend]
          dsimp only at h ⊢
          split_ifs at h ⊢ with hlow
          · obtain ⟨rfl, rfl⟩ := ok_pair_inj h
            rfl
          · obtain ⟨rfl, rfl⟩ := ok_pair_inj h
            rfl
    · obtain ⟨rfl, rfl⟩ := ok_pair_inj h
      rfl

theorem scanChar_append {s r : List Char} {c : Fin 0x110000} (h : scanChar s = .ok (c, r))
    (hnext : (∃ r', r = quotationMark :: r') ∨ ∃ x, scanChar r = .ok x) (t : List Char) :
    scanChar (s ++ t) = .ok (c, r ++ t) := by
  cases s with
  | nil => cases h
  | cons d s =>
    rw [List.cons_append]
    rw [scanChar.eq_def] at h ⊢
    dsimp only at h ⊢
    split_ifs at h ⊢ with hback hcontrol
    · cases s with
      | nil => cases h
      | cons x s =>
        rw [List.cons_append]
        dsimp only at h ⊢
        split_ifs at h ⊢ with hu
        · exact scanUnicode_append h hnext t
        · cases hlookup : simpleEscapes.lookup x with
          | none => rw [hlookup] at h; cases h
          | some n =>
            rw [hlookup] at h
            obtain ⟨rfl, rfl⟩ := ok_pair_inj h
            rfl
    · obtain ⟨rfl, rfl⟩ := ok_pair_inj h
      rfl

theorem scanString_closed : Closed scanString :=
  readUntil_closed fun _ _ _ t h hnext => scanChar_append h hnext t

end Strings

section Numbers

structure NumberToken where
  sign : List Char
  whole : List Char
  fraction : List Char
  exponent : List Char

namespace NumberToken

def text (token : NumberToken) : List Char :=
  token.sign ++ (token.whole ++ (token.fraction ++ token.exponent))

/-- The value of a number; a float is known by its text. -/
def value (parseFloat : List Char → FloatText) (token : NumberToken) : PyValue :=
  if token.fraction = [] ∧ token.exponent = [] then
    .int ((if token.sign = [] then 1 else -1) * Nat.ofDigitChars 10 token.whole 0)
  else .float (parseFloat token.text)

end NumberToken

/-- `-?` -/
def signPart (s : List Char) : List Char := if s.head? = some '-' then ['-'] else []

/-- `0|[1-9][0-9]*` -/
def wholePart : List Char → List Char
  | [] => []
  | c :: s =>
    if c = '0' then ['0'] else if c.isDigit then c :: s.takeWhile Char.isDigit else []

/-- `(\.[0-9]+)?` -/
def fractionPart : List Char → List Char
  | [] => []
  | c :: s =>
    if c = '.' ∧ s.takeWhile Char.isDigit ≠ [] then c :: s.takeWhile Char.isDigit else []

/-- `[-+]?` -/
def exponentSign (s : List Char) : List Char :=
  if s.head? = some '-' ∨ s.head? = some '+' then s.take 1 else []

/-- `([eE][-+]?[0-9]+)?` -/
def exponentPart : List Char → List Char
  | [] => []
  | c :: s =>
    let sign := exponentSign s
    let digits := (s.drop sign.length).takeWhile Char.isDigit
    if (c = 'e' ∨ c = 'E') ∧ digits ≠ [] then c :: (sign ++ digits) else []

/-- The longest number in front of the text; its whole part is empty if there is none. -/
def readToken (s : List Char) : NumberToken :=
  let sign := signPart s
  let s := s.drop sign.length
  let whole := wholePart s
  let s := s.drop whole.length
  let fraction := fractionPart s
  let s := s.drop fraction.length
  ⟨sign, whole, fraction, exponentPart s⟩

def matchNumber (parseFloat : List Char → FloatText) (s : List Char) :
    Except PyErr (PyValue × List Char) :=
  let token := readToken s
  if token.whole = [] then .error .jsonDecodeError
  else .ok (token.value parseFloat, s.drop token.text.length)

def IsSign (w : List Char) : Prop := w = [] ∨ w = ['-']

/-- The numbers of the JSON grammar. -/
structure NumberToken.WellFormed (token : NumberToken) : Prop where
  sign : IsSign token.sign
  whole : IsWhole token.whole
  fraction : IsFraction token.fraction
  exponent : IsExponent token.exponent

def Prolongs (c : Char) : Prop := c.isDigit = true ∨ c ∈ ['-', '+', '.', 'e', 'E']

instance (c : Char) : Decidable (Prolongs c) := inferInstanceAs (Decidable (_ ∨ _))

/-- A character behind which a value has ended. -/
def Halts (c : Char) : Prop := ¬ Prolongs c

instance (c : Char) : Decidable (Halts c) := inferInstanceAs (Decidable (¬ Prolongs c))

/-- What may follow a value. -/
def HaltsAt (r : List Char) : Prop := ∀ c ∈ r.head?, Halts c

theorem haltsAt_cons {c : Char} (hc : Halts c) (r : List Char) : HaltsAt (c :: r) := by
  intro d hd
  cases hd
  exact hc

theorem StopsAt.haltsAt {r : List Char} (h : StopsAt Halts r) (t : List Char) :
    HaltsAt (r ++ t) := by
  obtain ⟨c, u, rfl, hc⟩ := h
  exact haltsAt_cons hc _

theorem takeWhile_run {p : Char → Bool} {ds r : List Char} (hds : ∀ c ∈ ds, p c = true)
    (hr : ∀ c ∈ r.head?, p c = false) : (ds ++ r).takeWhile p = ds := by
  rw [List.takeWhile_append_of_pos hds]
  cases r with
  | nil => rw [List.takeWhile_nil, List.append_nil]
  | cons c r =>
    rw [List.takeWhile_cons, hr c rfl]
    exact List.append_nil ds

theorem drop_of_eq_append {s w r : List Char} (h : s = w ++ r) : s.drop w.length = r := by
  rw [h, List.drop_left]

theorem isDigits_takeWhile {s : List Char} (h : s.takeWhile Char.isDigit ≠ []) :
    IsDigits (s.takeWhile Char.isDigit) :=
  ⟨h, fun _ hc => List.mem_takeWhile_imp hc⟩

theorem signPart_spec (s : List Char) : IsSign (signPart s) ∧ ∃ r, s = signPart s ++ r := by
  unfold signPart
  split_ifs with h
  · cases s with
    | nil => cases h
    | cons c s =>
      cases h
      exact ⟨.inr rfl, s, rfl⟩
  · exact ⟨.inl rfl, s, rfl⟩

theorem signPart_append {w r : List Char} (hw : IsSign w) (hr : r.head? ≠ some '-') :
    signPart (w ++ r) = w := by
  rcases hw with rfl | rfl
  · exact if_neg hr
  · exact if_pos rfl

theorem isWhole_zero : IsWhole ['0'] :=
  ⟨⟨List.cons_ne_nil _ _, fun _ hc => List.mem_singleton.mp hc ▸ rfl⟩, fun _ => rfl⟩

theorem wholePart_spec (s : List Char) :
    (wholePart s ≠ [] → IsWhole (wholePart s)) ∧ ∃ r, s = wholePart s ++ r := by
  cases s with
  | nil => exact ⟨fun h => absurd rfl h, [], rfl⟩
  | cons c s =>
    rw [wholePart]
    split_ifs with hzero hdigit
    · subst hzero
      exact ⟨fun _ => isWhole_zero, s, rfl⟩
    · refine ⟨fun _ => ⟨⟨by simp, ?_⟩, ?_⟩, s.dropWhile Char.isDigit, ?_⟩
      · intro d hd
        rcases List.mem_cons.mp hd with rfl | hd
        · exact hdigit
        · exact List.mem_takeWhile_imp hd
      · intro hhead
        exact absurd (Option.some.inj hhead) hzero
      · rw [List.cons_append, List.takeWhile_append_dropWhile]
    · exact ⟨fun h => absurd rfl h, c :: s, rfl⟩

theorem wholePart_append {w r : List Char} (hw : IsWhole w)
    (hr : ∀ c ∈ r.head?, c.isDigit = false) : wholePart (w ++ r) = w := by
  obtain ⟨⟨hne, hdigits⟩, hzero⟩ := hw
  cases w with
  | nil => exact absurd rfl hne
  | cons c w =>
    rw [List.cons_append, wholePart]
    by_cases hc : c = '0'
    · rw [if_pos hc]
      exact (hzero (by rw [hc]; rfl)).symm
    · rw [if_neg hc, if_pos (hdigits c List.mem_cons_self),
        takeWhile_run (fun d hd => hdigits d (List.mem_cons_of_mem _ hd)) hr]

theorem fractionPart_spec (s : List Char) :
    IsFraction (fractionPart s) ∧ ∃ r, s = fractionPart s ++ r := by
  cases s with
  | nil => exact ⟨.inl rfl, [], rfl⟩
  | cons c s =>
    rw [fractionPart]
    split_ifs with h
    · obtain ⟨rfl, hne⟩ := h
      refine ⟨.inr ⟨_, isDigits_takeWhile hne, rfl⟩, s.dropWhile Char.isDigit, ?_⟩
      rw [List.cons_append, List.takeWhile_append_dropWhile]
    · exact ⟨.inl rfl, c :: s, rfl⟩

theorem fractionPart_append {w r : List Char} (hw : IsFraction w)
    (hr : ∀ c ∈ r.head?, c.isDigit = false ∧ c ≠ '.') : fractionPart (w ++ r) = w := by
  rcases hw with rfl | ⟨ds, ⟨hne, hds⟩, rfl⟩
  · cases r with
    | nil => rfl
    | cons c r => exact if_neg fun h => (hr c rfl).2 h.1
  · have hrun := takeWhile_run hds fun c hc => (hr c hc).1
    rw [List.cons_append, fractionPart, hrun]
    exact if_pos ⟨rfl, hne⟩

theorem exponentSign_spec (s : List Char) :
    (exponentSign s = [] ∨ exponentSign s = ['-'] ∨ exponentSign s = ['+']) ∧
      s = exponentSign s ++ s.drop (exponentSign s).length := by
  unfold exponentSign
  split_ifs with h
  · cases s with
    | nil => simp at h
    | cons c s =>
      simp only [List.head?_cons, Option.some.injEq] at h
      rcases h with rfl | rfl
      · exact ⟨.inr (.inl rfl), rfl⟩
      · exact ⟨.inr (.inr rfl), rfl⟩
  · exact ⟨.inl rfl, rfl⟩

theorem exponentSign_append {w ds r : List Char} (hw : w = [] ∨ w = ['-'] ∨ w = ['+'])
    (hds : IsDigits ds) : exponentSign (w ++ (ds ++ r)) = w := by
  obtain ⟨hne, hdigits⟩ := hds
  rcases hw with rfl | rfl | rfl
  · cases ds with
    | nil => exact absurd rfl hne
    | cons d ds =>
      have hd := hdigits d List.mem_cons_self
      refine if_neg ?_
      rintro (h | h) <;> cases h <;> cases hd
  · rfl
  · rfl

theorem exponentPart_spec (s : List Char) :
    IsExponent (exponentPart s) ∧ ∃ r, s = exponentPart s ++ r := by
  cases s with
  | nil => exact ⟨.inl rfl, [], rfl⟩
  | cons c s =>
    obtain ⟨hsign, hsplit⟩ := exponentSign_spec s
    rw [exponentPart]
    generalize hdigits : (s.drop (exponentSign s).length).takeWhile Char.isDigit = digits
    split_ifs with h
    · obtain ⟨he, hne⟩ := h
      refine ⟨.inr ⟨c, exponentSign s, digits, he, hsign, ?_, rfl⟩,
        (s.drop (exponentSign s).length).dropWhile Char.isDigit, ?_⟩
      · exact hdigits ▸ isDigits_takeWhile (hdigits ▸ hne)
      · rw [List.cons_append, List.append_assoc, ← hdigits, List.takeWhile_append_dropWhile,
          ← hsplit]
    · exact ⟨.inl rfl, c :: s, rfl⟩

theorem exponentPart_append {w r : List Char} (hw : IsExponent w)
    (hr : ∀ c ∈ r.head?, c.isDigit = false ∧ c ≠ 'e' ∧ c ≠ 'E') : exponentPart (w ++ r) = w := by
  rcases hw with rfl | ⟨e, sign, ds, he, hsign, hds, rfl⟩
  · cases r with
    | nil => rfl
    | cons c r =>
      refine if_neg ?_
      rintro ⟨h | h, -⟩
      · exact (hr c rfl).2.1 h
      · exact (hr c rfl).2.2 h
  · have hrun := takeWhile_run hds.2 fun c hc => (hr c hc).1
    rw [List.cons_append, List.append_assoc, exponentPart]
    rw [exponentSign_append hsign hds, List.drop_left, hrun]
    exact if_pos ⟨he, hds.1⟩

theorem HaltsAt.head {r : List Char} (h : HaltsAt r) : ∀ c ∈ r.head?,
    c.isDigit = false ∧ c ≠ '-' ∧ c ≠ '.' ∧ c ≠ 'e' ∧ c ≠ 'E' := by
  intro c hc
  have hhalts := h c hc
  simp only [Halts, Prolongs, List.mem_cons, not_or, Bool.not_eq_true] at hhalts
  exact ⟨hhalts.1, hhalts.2.1, hhalts.2.2.2.1, hhalts.2.2.2.2.1, hhalts.2.2.2.2.2.1⟩

theorem readToken_append {token : NumberToken} (h : token.WellFormed) {r : List Char}
    (hr : HaltsAt r) : readToken (token.text ++ r) = token := by
  obtain ⟨sign, whole, fraction, exponent⟩ := token
  obtain ⟨hsign, hwhole, hfraction, hexponent⟩ := h
  have hhead := hr.head
  have hexp : exponentPart (exponent ++ r) = exponent :=
    exponentPart_append hexponent fun c hc => ⟨(hhead c hc).1, (hhead c hc).2.2.2⟩
  have hfrac : fractionPart (fraction ++ (exponent ++ r)) = fraction := by
    apply fractionPart_append hfraction
    intro c hc
    rcases hexponent with rfl | ⟨e, s, ds, he, -, -, rfl⟩
    · exact ⟨(hhead c hc).1, (hhead c hc).2.2.1⟩
    · cases hc
      rcases he with rfl | rfl <;> decide
  have hint : wholePart (whole ++ (fraction ++ (exponent ++ r))) = whole := by
    apply wholePart_append hwhole
    intro c hc
    rcases hfraction with rfl | ⟨ds, -, rfl⟩
    · rcases hexponent with rfl | ⟨e, s, ds, he, -, -, rfl⟩
      · exact (hhead c hc).1
      · cases hc
        rcases he with rfl | rfl <;> rfl
    · cases hc
      rfl
  have hneg : signPart (sign ++ (whole ++ (fraction ++ (exponent ++ r)))) = sign := by
    apply signPart_append hsign
    obtain ⟨⟨hne, hdigits⟩, -⟩ := hwhole
    cases whole with
    | nil => exact absurd rfl hne
    | cons c w =>
      intro hc
      have hdigit := hdigits c List.mem_cons_self
      cases hc
      cases hdigit
  simp only [readToken, NumberToken.text, List.append_assoc, hneg, List.drop_left, hint, hfrac,
    hexp]

theorem readToken_spec {s : List Char} (h : (readToken s).whole ≠ []) :
    (readToken s).WellFormed ∧ s = (readToken s).text ++ s.drop (readToken s).text.length := by
  obtain ⟨hsign, s₁, hs₁⟩ := signPart_spec s
  have hdrop₁ : s.drop (signPart s).length = s₁ := drop_of_eq_append hs₁
  obtain ⟨hwhole, s₂, hs₂⟩ := wholePart_spec s₁
  have hdrop₂ : s₁.drop (wholePart s₁).length = s₂ := drop_of_eq_append hs₂
  obtain ⟨hfraction, s₃, hs₃⟩ := fractionPart_spec s₂
  have hdrop₃ : s₂.drop (fractionPart s₂).length = s₃ := drop_of_eq_append hs₃
  obtain ⟨hexponent, s₄, hs₄⟩ := exponentPart_spec s₃
  have htoken : readToken s = ⟨signPart s, wholePart s₁, fractionPart s₂, exponentPart s₃⟩ := by
    simp only [readToken, hdrop₁, hdrop₂, hdrop₃]
  rw [htoken] at h ⊢
  refine ⟨⟨hsign, hwhole h, hfraction, hexponent⟩, ?_⟩
  have hsplit : s = NumberToken.text
      ⟨signPart s, wholePart s₁, fractionPart s₂, exponentPart s₃⟩ ++ s₄ := by
    simp only [NumberToken.text, List.append_assoc]
    rw [← hs₄, ← hs₃, ← hs₂, ← hs₁]
  rwa [drop_of_eq_append hsplit]

theorem NumberToken.WellFormed.text_ne_nil {token : NumberToken} (h : token.WellFormed) :
    token.text ≠ [] := by
  intro hnil
  simp only [text, List.append_eq_nil_iff] at hnil
  exact h.whole.1.1 hnil.2.1

theorem matchNumber_append (parseFloat : List Char → FloatText) {token : NumberToken}
    (h : token.WellFormed) {r : List Char} (hr : HaltsAt r) :
    matchNumber parseFloat (token.text ++ r) = .ok (token.value parseFloat, r) := by
  simp only [matchNumber, readToken_append h hr, if_neg h.whole.1.1, List.drop_left]

theorem matchNumber_eq_ok {parseFloat : List Char → FloatText} {s r : List Char} {v : PyValue}
    (h : matchNumber parseFloat s = .ok (v, r)) : ∃ token : NumberToken, token.WellFormed ∧
      s = token.text ++ r ∧ v = token.value parseFloat := by
  simp only [matchNumber] at h
  split_ifs at h with hwhole
  obtain ⟨hv, hr⟩ := ok_pair_inj h
  obtain ⟨hform, hsplit⟩ := readToken_spec hwhole
  exact ⟨readToken s, hform, by rw [← hr]; exact hsplit, hv.symm⟩

theorem NumberToken.WellFormed.text_head {token : NumberToken} (h : token.WellFormed) :
    ∃ d w, d.isDigit = true ∧ (token.text = d :: w ∨ token.text = '-' :: d :: w) := by
  obtain ⟨⟨hne, hdigits⟩, -⟩ := h.whole
  cases hwhole : token.whole with
  | nil => exact absurd hwhole hne
  | cons d w =>
    have hd := hdigits d (by rw [hwhole]; exact List.mem_cons_self)
    rcases h.sign with hsign | hsign
    · exact ⟨d, _, hd, .inl (by rw [text, hsign, hwhole]; rfl)⟩
    · exact ⟨d, _, hd, .inr (by rw [text, hsign, hwhole]; rfl)⟩

theorem isWhole_repr (n : ℕ) : IsWhole n.repr.toList := by
  refine ⟨⟨repr_toList_ne_nil n, repr_digits n⟩, ?_⟩
  rw [Nat.toList_repr]
  induction n using Nat.strong_induction_on with
  | _ n ih =>
    intro h
    by_cases hn : n < 10
    · rw [Nat.toDigits_of_lt_base hn] at h ⊢
      rw [Option.some.inj h]
    · rw [Nat.toDigits_of_base_le (by decide) (by omega),
        List.head?_append_of_ne_nil _ Nat.toDigits_ne_nil] at h
      have hzero := ih (n / 10) (Nat.div_lt_self (by omega) (by decide)) h
      have hvalue := @Nat.ofDigitChars_ten_toDigits (n / 10)
      rw [hzero] at hvalue
      have hdiv : n / 10 = 0 := hvalue.symm
      omega

def intToken : Int → NumberToken
  | .ofNat n => ⟨[], n.repr.toList, [], []⟩
  | .negSucc n => ⟨['-'], (n + 1).repr.toList, [], []⟩

theorem intToken_wellFormed (n : Int) : (intToken n).WellFormed := by
  cases n with
  | ofNat n => exact ⟨.inl rfl, isWhole_repr n, .inl rfl, .inl rfl⟩
  | negSucc n => exact ⟨.inr rfl, isWhole_repr (n + 1), .inl rfl, .inl rfl⟩

theorem intToken_text (n : Int) : (intToken n).text = (strInt n).toList := by
  cases n with
  | ofNat n => simp [intToken, NumberToken.text, strInt, Int.repr]
  | negSucc n =>
    simp only [intToken, NumberToken.text, strInt, Int.repr, String.toList_append,
      List.append_nil]
    rfl

theorem intToken_value (parseFloat : List Char → FloatText) (n : Int) :
    (intToken n).value parseFloat = .int n := by
  cases n with
  | ofNat n => simp [intToken, NumberToken.value]
  | negSucc n => simp [intToken, NumberToken.value, Int.negSucc_eq]

end Numbers

section Constants

def constants : List (List Char × PyValue) :=
  [(['n', 'u', 'l', 'l'], .none), (['t', 'r', 'u', 'e'], .bool true),
    (['f', 'a', 'l', 's', 'e'], .bool false),
    (['N', 'a', 'N'], .float .nan),
    (['I', 'n', 'f', 'i', 'n', 'i', 't', 'y'], .float (.infinity false)),
    (['-', 'I', 'n', 'f', 'i', 'n', 'i', 't', 'y'], .float (.infinity true))]

def scanPlain (parseFloat : List Char → FloatText) (s : List Char) :
    Except PyErr (PyValue × List Char) :=
  match constants.find? fun entry => entry.1.isPrefixOf s with
  | some entry => .ok (entry.2, s.drop entry.1.length)
  | none => matchNumber parseFloat s

theorem constants_separated : ∀ a ∈ constants, ∀ b ∈ constants, ∀ s,
    a.1.isPrefixOf s = true → b.1.isPrefixOf s = true → a = b := by
  have hheads : (constants.map fun entry => entry.1.head?).Nodup := by decide
  have hne : ∀ entry ∈ constants, entry.1 ≠ [] := by decide
  have hhead : ∀ entry ∈ constants, ∀ s : List Char, entry.1.isPrefixOf s = true →
      entry.1.head? = s.head? := by
    intro entry hentry s h
    obtain ⟨r, rfl⟩ := List.isPrefixOf_iff_prefix.mp h
    rw [List.head?_append_of_ne_nil _ (hne entry hentry)]
  intro a ha b hb s hsa hsb
  exact List.inj_on_of_nodup_map hheads ha hb ((hhead a ha s hsa).trans (hhead b hb s hsb).symm)

theorem scanPlain_constant (parseFloat : List Char → FloatText) {text : List Char} {v : PyValue}
    (h : (text, v) ∈ constants) (r : List Char) :
    scanPlain parseFloat (text ++ r) = .ok (v, r) := by
  have hfront : text.isPrefixOf (text ++ r) = true :=
    List.isPrefixOf_iff_prefix.mpr (List.prefix_append text r)
  cases hfind : constants.find? fun entry => entry.1.isPrefixOf (text ++ r) with
  | none => exact absurd hfront (List.find?_eq_none.mp hfind _ h)
  | some entry =>
    have hentry := List.find?_some hfind
    have heq := constants_separated entry (List.mem_of_find?_eq_some hfind) _ h _ hentry hfront
    subst heq
    simp only [scanPlain, hfind, List.drop_left]

theorem find?_constants_number {token : NumberToken} (h : token.WellFormed) (r : List Char) :
    (constants.find? fun entry => entry.1.isPrefixOf (token.text ++ r)) = none := by
  have hletters : ∀ entry ∈ constants, ∃ a b t, entry.1 = a :: b :: t ∧ a.isDigit = false ∧
      b.isDigit = false := by
    intro entry hentry
    simp only [constants, List.mem_cons, List.not_mem_nil, or_false] at hentry
    rcases hentry with rfl | rfl | rfl | rfl | rfl | rfl <;> exact ⟨_, _, _, rfl, rfl, rfl⟩
  rw [List.find?_eq_none]
  intro entry hentry hfront
  obtain ⟨u, hu⟩ := List.isPrefixOf_iff_prefix.mp hfront
  obtain ⟨a, b, t, habt, ha, hb⟩ := hletters entry hentry
  rw [habt] at hu
  obtain ⟨d, w, hd, htext | htext⟩ := h.text_head
  · rw [htext] at hu
    rw [(List.cons.inj hu).1, hd] at ha
    cases ha
  · rw [htext] at hu
    rw [(List.cons.inj (List.cons.inj hu).2).1, hd] at hb
    cases hb

theorem scanPlain_number (parseFloat : List Char → FloatText) {token : NumberToken}
    (h : token.WellFormed) {r : List Char} (hr : HaltsAt r) :
    scanPlain parseFloat (token.text ++ r) = .ok (token.value parseFloat, r) := by
  rw [scanPlain, find?_constants_number h]
  exact matchNumber_append parseFloat h hr

theorem scanPlain_eq_ok {parseFloat : List Char → FloatText} {s r : List Char} {v : PyValue}
    (h : scanPlain parseFloat s = .ok (v, r)) :
    (∃ text, (text, v) ∈ constants ∧ s = text ++ r) ∨
      ∃ token : NumberToken, token.WellFormed ∧ s = token.text ++ r ∧
        v = token.value parseFloat := by
  unfold scanPlain at h
  cases hfind : constants.find? fun entry => entry.1.isPrefixOf s with
  | none =>
    rw [hfind] at h
    exact .inr (matchNumber_eq_ok h)
  | some entry =>
    rw [hfind] at h
    obtain ⟨rfl, hr⟩ := ok_pair_inj h
    have hentry := List.find?_some hfind
    obtain ⟨u, hu⟩ := List.isPrefixOf_iff_prefix.mp hentry
    refine .inl ⟨entry.1, List.mem_of_find?_eq_some hfind, ?_⟩
    rw [← hr, drop_of_eq_append hu.symm, hu]

theorem scanPlain_length {parseFloat : List Char → FloatText} {s r : List Char} {v : PyValue}
    (h : scanPlain parseFloat s = .ok (v, r)) : r.length < s.length := by
  have hne : ∀ entry ∈ constants, 0 < entry.1.length := by decide
  rcases scanPlain_eq_ok h with ⟨text, hmem, rfl⟩ | ⟨token, hform, rfl, -⟩
  · have hpos : 0 < text.length := hne _ hmem
    rw [List.length_append]
    omega
  · have hpos := List.length_pos_of_ne_nil hform.text_ne_nil
    rw [List.length_append]
    omega

theorem scanPlain_append {parseFloat : List Char → FloatText} {s r : List Char} {v : PyValue}
    (h : scanPlain parseFloat s = .ok (v, r)) (hstop : StopsAt Halts r) (t : List Char) :
    scanPlain parseFloat (s ++ t) = .ok (v, r ++ t) := by
  rcases scanPlain_eq_ok h with ⟨text, hmem, rfl⟩ | ⟨token, hform, rfl, rfl⟩
  · rw [List.append_assoc]
    exact scanPlain_constant parseFloat hmem (r ++ t)
  · rw [List.append_assoc]
    exact scanPlain_number parseFloat hform (StopsAt.haltsAt hstop t)

theorem floatText_cases (x : FloatText) : (x.text, PyValue.float x) ∈ constants ∨
    ∃ token : NumberToken, token.WellFormed ∧ ¬ (token.fraction = [] ∧ token.exponent = []) ∧
      x.text = token.text := by
  have hsign : ∀ negative, IsSign (FloatText.signText negative) := fun negative =>
    match negative with
    | false => .inl rfl
    | true => .inr rfl
  cases x with
  | nan => exact .inl (by simp [constants, FloatText.text])
  | infinity negative =>
    left
    cases negative <;> simp [constants, FloatText.text, FloatText.signText]
  | zero negative =>
    exact .inr ⟨⟨FloatText.signText negative, ['0'], ['.', '0'], []⟩,
      ⟨hsign negative, ⟨⟨List.cons_ne_nil _ _, by simp⟩, fun _ => rfl⟩,
        .inr ⟨['0'], ⟨List.cons_ne_nil _ _, by simp⟩, rfl⟩, .inl rfl⟩, by simp, by
          simp [FloatText.text, NumberToken.text]⟩
  | finite negative x =>
    obtain ⟨hwhole, hfraction, hexponent, hinexact⟩ := FloatText.numeral_wellFormed x
    exact .inr ⟨⟨FloatText.signText negative, (FloatText.numeral x).whole,
      (FloatText.numeral x).fraction, (FloatText.numeral x).exponent⟩,
      ⟨hsign negative, hwhole, hfraction, hexponent⟩, hinexact, rfl⟩

end Constants

end JsonLoads

end Athena
