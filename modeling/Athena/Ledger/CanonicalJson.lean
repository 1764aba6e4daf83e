import Athena.Core.FloatText

/-!
# Canonical JSON of a ledger payload

`canonicalJson` is `json.dumps(payload, sort_keys=True, separators=(",", ":"),
default=str)`. A payload string may hold lone surrogates, which the ASCII
escaping accepts; a float appears through the text that `float.__repr__` gives it;
a dict with keys other than strings through the order in which `sorted` puts its
items, if they compare; any other object through what `str` returns for it, if
`str` returns.
-/

namespace Athena

/-- A Python `str`: code points, lone surrogates included. -/
abbrev PyStr := List (Fin 0x110000)

def PyStr.ofString (s : String) : PyStr := s.toList.map fun c => Fin.ofNat 0x110000 c.toNat

def PrintableChar (c : Char) : Prop := 32 ≤ c.toNat ∧ c.toNat < 127

instance (c : Char) : Decidable (PrintableChar c) :=
  inferInstanceAs (Decidable (32 ≤ c.toNat ∧ c.toNat < 127))

def Printable (text : List Char) : Prop := ∀ c ∈ text, PrintableChar c

instance (text : List Char) : Decidable (Printable text) :=
  List.decidableBAll PrintableChar text

/-- A dict key. `json` writes each kind but `other` as a string. -/
inductive PyKey
  | none
  | bool (b : Bool)
  | int (n : Int)
  | float (x : FloatText)
  | str (s : PyStr)
  | other

/-- A payload value. `keyed` is a dict that has a key which is not a string, with its
items in sorted order if they are `comparable`. `object` is a value `json` cannot
serialise by itself, with what `str` gives for it (`none` when `str` raises). -/
inductive PyValue
  | none
  | bool (b : Bool)
  | int (n : Int)
  | float (x : FloatText)
  | str (s : PyStr)
  | list (xs : List PyValue)
  | dict (items : List (PyStr × PyValue))
  | keyed (comparable : Bool) (items : List (PyKey × PyValue))
  | object (asStr : Option PyStr)

namespace CanonicalJson

def quotationMark : Char := Char.ofNat 0x22

def backslash : Char := Char.ofNat 0x5c

/-- `'\\u{0:04x}'.format(n)` for a number below `0x10000`. -/
def escapeUnit (n : ℕ) : List Char :=
  [backslash, 'u', hexDigit (n / 0x1000 % 16), hexDigit (n / 0x100 % 16),
    hexDigit (n / 0x10 % 16), hexDigit (n % 16)]

/-- One code point under `ensure_ascii`; beyond the basic plane a surrogate pair. -/
def escapeChar (c : Fin 0x110000) : List Char :=
  let n := c.val
  if n = 0x22 then [backslash, quotationMark]
  else if n = 0x5c then [backslash, backslash]
  else if n = 0x0a then [backslash, 'n']
  else if n = 0x0d then [backslash, 'r']
  else if n = 0x09 then [backslash, 't']
  else if n = 0x0c then [backslash, 'f']
  else if n = 0x08 then [backslash, 'b']
  else if 0x20 ≤ n ∧ n ≤ 0x7e then [Char.ofNat n]
  else if n < 0x10000 then escapeUnit n
  else escapeUnit (0xd800 + (n - 0x10000) / 0x400) ++ escapeUnit (0xdc00 + (n - 0x10000) % 0x400)

def encodeStr (s : PyStr) : List Char :=
  quotationMark :: (s.flatMap escapeChar ++ [quotationMark])

/-- `sort_keys`: the members in increasing order of their keys. -/
def sortItems (items : List (PyStr × List Char)) : List (PyStr × List Char) :=
  items.insertionSort fun a b => a.1 ≤ b.1

def joinList (texts : List (List Char)) : List Char :=
  '[' :: (List.intercalate [','] texts ++ [']'])

def joinItems (items : List (PyStr × List Char)) : List Char :=
  Char.ofNat 0x7b ::
    (List.intercalate [','] (items.map fun kv => encodeStr kv.1 ++ ':' :: kv.2) ++
      [Char.ofNat 0x7d])

def joinDict (items : List (PyStr × List Char)) : List Char := joinItems (sortItems items)

def keyName : PyKey → Except PyErr PyStr
  | .none => .ok (PyStr.ofString "null")
  | .bool b => .ok (PyStr.ofString (if b then "true" else "false"))
  | .int n => .ok (PyStr.ofString (strInt n))
  | .float x => .ok (PyStr.ofString (String.ofList x.text))
  | .str s => .ok s
  | .other => .error .typeError

mutual

def dumps : PyValue → Except PyErr (List Char)
  | .none => .ok "null".toList
  | .bool b => .ok (if b then "true".toList else "false".toList)
  | .int n => .ok (strInt n).toList
  | .float x => .ok x.text
  | .str s => .ok (encodeStr s)
  | .list xs => (dumpsList xs).map joinList
  | .dict items => (dumpsItems items).map joinDict
  | .keyed true items => (dumpsKeyed items).map joinItems
  | .keyed false _ => .error .typeError
  | .object none => .error .typeError
  | .object (some s) => .ok (encodeStr s)

def dumpsList : List PyValue → Except PyErr (List (List Char))
  | [] => .ok []
  | x :: xs => do
    let text ← dumps x
    let texts ← dumpsList xs
    return text :: texts

def dumpsItems : List (PyStr × PyValue) → Except PyErr (List (PyStr × List Char))
  | [] => .ok []
  | (k, v) :: items => do
    let text ← dumps v
    let texts ← dumpsItems items
    return (k, text) :: texts

def dumpsKeyed : List (PyKey × PyValue) → Except PyErr (List (PyStr × List Char))
  | [] => .ok []
  | (k, v) :: items => do
    let name ← keyName k
    let text ← dumps v
    let texts ← dumpsKeyed items
    return (name, text) :: texts

end

end CanonicalJson

def canonicalJson (payload : PyValue) : Except PyErr String :=
  (CanonicalJson.dumps payload).map String.ofList

namespace CanonicalJson

theorem printable_append {s t : List Char} : Printable (s ++ t) ↔ Printable s ∧ Printable t :=
  List.forall_mem_append

theorem printable_cons {c : Char} {s : List Char} :
    Printable (c :: s) ↔ PrintableChar c ∧ Printable s :=
  List.forall_mem_cons

theorem printable_intercalate {sep : List Char} (hsep : Printable sep) {texts : List (List Char)}
    (h : ∀ t ∈ texts, Printable t) : Printable (List.intercalate sep texts) := by
  induction texts with
  | nil => simp [Printable]
  | cons t ts ih =>
    cases ts with
    | nil => simpa using h t (by simp)
    | cons u us =>
      rw [List.intercalate_cons_cons, printable_append, printable_append]
      exact ⟨⟨h t (by simp), hsep⟩, ih fun x hx => h x (by simp [hx])⟩

theorem hexDigit_printable {n : ℕ} (hn : n < 16) : PrintableChar (hexDigit n) := by
  interval_cases n <;> decide

theorem escapeUnit_printable (n : ℕ) : Printable (escapeUnit n) := by
  simp only [escapeUnit, printable_cons]
  exact ⟨by decide, by decide, hexDigit_printable (Nat.mod_lt _ (by omega)),
    hexDigit_printable (Nat.mod_lt _ (by omega)), hexDigit_printable (Nat.mod_lt _ (by omega)),
    hexDigit_printable (Nat.mod_lt _ (by omega)), by simp [Printable]⟩

theorem printableChar_ofNat {n : ℕ} (h : 0x20 ≤ n ∧ n ≤ 0x7e) : PrintableChar (Char.ofNat n) := by
  obtain ⟨h1, h2⟩ := h
  interval_cases n <;> decide

/-- The code points with a short escape, each with the character that stands for it. -/
def shortEscapes : List (ℕ × Char) :=
  [(0x22, quotationMark), (0x5c, backslash), (0x0a, 'n'), (0x0d, 'r'), (0x09, 't'), (0x0c, 'f'),
    (0x08, 'b')]

theorem escapeChar_cases (c : Fin 0x110000) :
    (∃ d, (c.val, d) ∈ shortEscapes ∧ escapeChar c = [backslash, d]) ∨
    ((c.val ≠ 0x22 ∧ c.val ≠ 0x5c) ∧ (0x20 ≤ c.val ∧ c.val ≤ 0x7e) ∧
      escapeChar c = [Char.ofNat c.val]) ∨
    (c.val < 0x10000 ∧ escapeChar c = escapeUnit c.val) ∨
    (0x10000 ≤ c.val ∧ escapeChar c = escapeUnit (0xd800 + (c.val - 0x10000) / 0x400) ++
      escapeUnit (0xdc00 + (c.val - 0x10000) % 0x400)) := by
  unfold escapeChar shortEscapes
  dsimp only
  generalize c.val = n
  by_cases hshort : n = 0x22 ∨ n = 0x5c ∨ n = 0x0a ∨ n = 0x0d ∨ n = 0x09 ∨ n = 0x0c ∨ n = 0x08
  · left
    rcases hshort with rfl | rfl | rfl | rfl | rfl | rfl | rfl
    all_goals exact ⟨_, by simp, rfl⟩
  · simp only [not_or] at hshort
    obtain ⟨h1, h2, h3, h4, h5, h6, h7⟩ := hshort
    right
    rw [if_neg h1, if_neg h2, if_neg h3, if_neg h4, if_neg h5, if_neg h6, if_neg h7]
    by_cases hprint : 0x20 ≤ n ∧ n ≤ 0x7e
    · exact .inl ⟨⟨h1, h2⟩, hprint, if_pos hprint⟩
    · rw [if_neg hprint]
      by_cases hplane : n < 0x10000
      · exact .inr (.inl ⟨hplane, if_pos hplane⟩)
      · exact .inr (.inr ⟨by omega, if_neg hplane⟩)

theorem escapeChar_printable (c : Fin 0x110000) : Printable (escapeChar c) := by
  have hshort : ∀ e ∈ shortEscapes, PrintableChar e.2 := by decide
  have hnil : Printable [] := by simp [Printable]
  rcases escapeChar_cases c with
    ⟨d, hd, hc⟩ | ⟨-, hprint, hc⟩ | ⟨-, hc⟩ | ⟨-, hc⟩
  · rw [hc, printable_cons, printable_cons]
    exact ⟨by decide, hshort _ hd, hnil⟩
  · rw [hc, printable_cons]
    exact ⟨printableChar_ofNat hprint, hnil⟩
  · rw [hc]
    exact escapeUnit_printable _
  · rw [hc, printable_append]
    exact ⟨escapeUnit_printable _, escapeUnit_printable _⟩

theorem encodeStr_printable (s : PyStr) : Printable (encodeStr s) := by
  have hbody : Printable (s.flatMap escapeChar) := by
    intro c hc
    obtain ⟨x, -, hx⟩ := List.mem_flatMap.mp hc
    exact escapeChar_printable x c hx
  exact printable_cons.mpr ⟨by decide, printable_append.mpr ⟨hbody, by decide⟩⟩

theorem printable_of_isDigit {w : List Char} (h : ∀ c ∈ w, c.isDigit = true) : Printable w := by
  intro c hc
  have hd := h c hc
  simp only [Char.isDigit, Bool.and_eq_true, decide_eq_true_eq, UInt32.le_iff_toNat_le] at hd
  exact ⟨le_trans (by decide) hd.1, lt_of_le_of_lt hd.2 (by decide)⟩

theorem strInt_printable (n : Int) : Printable (strInt n).toList := by
  cases n with
  | ofNat m => exact printable_of_isDigit (repr_digits m)
  | negSucc m =>
    simp only [strInt, Int.repr, String.toList_append]
    exact printable_append.mpr ⟨by decide, printable_of_isDigit (repr_digits _)⟩

theorem floatText_printable (x : FloatText) : Printable x.text := by
  have hsign : ∀ negative, Printable (FloatText.signText negative) := by decide
  have hnil : Printable [] := by simp [Printable]
  cases x with
  | nan => decide
  | infinity negative => exact printable_append.mpr ⟨hsign negative, by decide⟩
  | zero negative => exact printable_append.mpr ⟨hsign negative, by decide⟩
  | finite negative x =>
    obtain ⟨⟨hwhole, -⟩, hfraction, hexponent, -⟩ := FloatText.numeral_wellFormed x
    refine printable_append.mpr ⟨hsign negative, printable_append.mpr
      ⟨printable_of_isDigit hwhole.2, printable_append.mpr ⟨?_, ?_⟩⟩⟩
    · rcases hfraction with h | ⟨ds, hds, h⟩
      · exact h ▸ hnil
      · exact h ▸ printable_cons.mpr ⟨by decide, printable_of_isDigit hds.2⟩
    · rcases hexponent with h | ⟨e, sign, ds, he, hs, hds, h⟩
      · exact h ▸ hnil
      · have hmark : PrintableChar e := by rcases he with rfl | rfl <;> decide
        have hsigned : Printable sign := by rcases hs with rfl | rfl | rfl <;> decide
        exact h ▸ printable_cons.mpr ⟨hmark,
          printable_append.mpr ⟨hsigned, printable_of_isDigit hds.2⟩⟩

theorem not_mem_encodeUtf8 {s : String} (hs : Printable s.toList) {b : UInt8} (hb : b.toNat < 32) :
    b ∉ encodeUtf8 s := by
  have hascii : IsAscii s := fun c hc => lt_trans (hs c hc).2 (by decide)
  rw [encodeUtf8_of_isAscii hascii, List.mem_map]
  rintro ⟨c, hc, rfl⟩
  have hlo := (hs c hc).1
  have hhi := (hs c hc).2
  rw [UInt8.toNat_ofNat'] at hb
  omega

theorem joinList_printable {texts : List (List Char)} (h : ∀ t ∈ texts, Printable t) :
    Printable (joinList texts) :=
  printable_cons.mpr ⟨by decide,
    printable_append.mpr ⟨printable_intercalate (by decide) h, by decide⟩⟩

theorem joinItems_printable {items : List (PyStr × List Char)} (h : ∀ kv ∈ items, Printable kv.2) :
    Printable (joinItems items) := by
  refine printable_cons.mpr ⟨by decide, printable_append.mpr ⟨?_, by decide⟩⟩
  apply printable_intercalate (by decide)
  intro t ht
  obtain ⟨kv, hkv, rfl⟩ := List.mem_map.mp ht
  exact printable_append.mpr ⟨encodeStr_printable _, printable_cons.mpr ⟨by decide, h kv hkv⟩⟩

theorem joinDict_printable {items : List (PyStr × List Char)} (h : ∀ kv ∈ items, Printable kv.2) :
    Printable (joinDict items) :=
  joinItems_printable fun kv hkv => h kv ((List.mem_insertionSort _).mp hkv)

mutual

/-- Structural induction over the payload: every emitted text is printable ASCII. -/
theorem dumps_printable : ∀ (v : PyValue) (text : List Char), dumps v = .ok text → Printable text
  | .none, _, h => by cases h; decide
  | .bool true, _, h => by cases h; decide
  | .bool false, _, h => by cases h; decide
  | .int n, _, h => by cases h; exact strInt_printable n
  | .float x, _, h => by cases h; exact floatText_printable x
  | .str s, _, h => by cases h; exact encodeStr_printable s
  | .list xs, text, h => by
    rw [dumps] at h
    cases hx : dumpsList xs with
    | error e => rw [hx] at h; cases h
    | ok texts =>
      rw [hx] at h
      cases h
      exact joinList_printable (dumpsList_printable xs texts hx)
  | .dict items, text, h => by
    rw [dumps] at h
    cases hx : dumpsItems items with
    | error e => rw [hx] at h; cases h
    | ok texts =>
      rw [hx] at h
      cases h
      exact joinDict_printable (dumpsItems_printable items texts hx)
  | .keyed true items, text, h => by
    rw [dumps] at h
    cases hx : dumpsKeyed items with
    | error e => rw [hx] at h; cases h
    | ok texts =>
      rw [hx] at h
      cases h
      exact joinItems_printable (dumpsKeyed_printable items texts hx)
  | .object (some s), _, h => by cases h; exact encodeStr_printable s

theorem dumpsList_printable : ∀ (xs : List PyValue) (texts : List (List Char)),
    dumpsList xs = .ok texts → ∀ t ∈ texts, Printable t
  | [], _, h => by cases h; simp
  | x :: xs, texts, h => by
    rw [dumpsList] at h
    cases hx : dumps x with
    | error e => rw [hx] at h; cases h
    | ok text =>
      cases hxs : dumpsList xs with
      | error e => rw [hx, hxs] at h; cases h
      | ok rest =>
        rw [hx, hxs] at h
        cases h
        exact List.forall_mem_cons.mpr
          ⟨dumps_printable x text hx, dumpsList_printable xs rest hxs⟩

theorem dumpsItems_printable :
    ∀ (items : List (PyStr × PyValue)) (texts : List (PyStr × List Char)),
      dumpsItems items = .ok texts → ∀ kv ∈ texts, Printable kv.2
  | [], _, h => by cases h; simp
  | (k, v) :: items, texts, h => by
    rw [dumpsItems] at h
    cases hx : dumps v with
    | error e => rw [hx] at h; cases h
    | ok text =>
      cases hxs : dumpsItems items with
      | error e => rw [hx, hxs] at h; cases h
      | ok rest =>
        rw [hx, hxs] at h
        cases h
        exact List.forall_mem_cons.mpr
          ⟨dumps_printable v text hx, dumpsItems_printable items rest hxs⟩

theorem dumpsKeyed_printable :
    ∀ (items : List (PyKey × PyValue)) (texts : List (PyStr × List Char)),
      dumpsKeyed items = .ok texts → ∀ kv ∈ texts, Printable kv.2
  | [], _, h => by cases h; simp
  | (k, v) :: items, texts, h => by
    rw [dumpsKeyed] at h
    cases hk : keyName k with
    | error e => rw [hk] at h; cases h
    | ok name =>
      cases hx : dumps v with
      | error e => rw [hk, hx] at h; cases h
      | ok text =>
        cases hxs : dumpsKeyed items with
        | error e => rw [hk, hx, hxs] at h; cases h
        | ok rest =>
          rw [hk, hx, hxs] at h
          cases h
          exact List.forall_mem_cons.mpr
            ⟨dumps_printable v text hx, dumpsKeyed_printable items rest hxs⟩

end

end CanonicalJson

theorem canonicalJson_printable {payload : PyValue} {text : String}
    (h : canonicalJson payload = .ok text) : Printable text.toList := by
  unfold canonicalJson at h
  cases hd : CanonicalJson.dumps payload with
  | error e => rw [hd] at h; cases h
  | ok cs =>
    rw [hd] at h
    cases h
    rw [String.toList_ofList]
    exact CanonicalJson.dumps_printable payload cs hd

theorem canonicalJson_nulFree {payload : PyValue} {text : String}
    (h : canonicalJson payload = .ok text) : NulFree text :=
  fun hmem => absurd (canonicalJson_printable h _ hmem) (by decide)

example : canonicalJson (.dict [([98], .int 2), ([97], .list [.none, .str [0x1f600]])]) =
    .ok "\x7b\"a\":[null,\"\\ud83d\\ude00\"],\"b\":2\x7d" := by decide

end Athena
