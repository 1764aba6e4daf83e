import Mathlib

/-!
# Python text, bytes and dictionaries

Stored text is a Lean `String`, a sequence of Unicode scalar values, as a
database column delivers it. `encodeUtf8` and `encodeAscii` are `str.encode`
with the two codecs the code uses, and `hexdigest` is the method of a `hashlib`
digest. The numbers that enter a hash are printed in decimal.
-/

namespace Athena

abbrev Bytes := List UInt8

/-- The exceptions the modelled functions raise or pass on. -/
inductive PyErr
  | unicodeEncodeError
  | typeError
  | duckdbError
  | fileNotFoundError
  | jsonDecodeError
  | runtimeError (message : String)
  | valueError (message : String)
  deriving DecidableEq, Repr

def encodeUtf8 (s : String) : Bytes := s.toList.flatMap String.utf8EncodeChar

def IsAscii (s : String) : Prop := ∀ c ∈ s.toList, c.toNat < 128

instance (s : String) : Decidable (IsAscii s) :=
  List.decidableBAll (fun c : Char => c.toNat < 128) s.toList

theorem isAscii_empty : IsAscii "" := by decide

/-- `s.encode("ascii")`; on ASCII text the two codecs agree. -/
def encodeAscii (s : String) : Except PyErr Bytes :=
  if IsAscii s then .ok (encodeUtf8 s) else .error .unicodeEncodeError

def NulFree (s : String) : Prop := Char.ofNat 0 ∉ s.toList

instance (s : String) : Decidable (NulFree s) := inferInstanceAs (Decidable (_ ∉ s.toList))

/-- `$` in a pattern without MULTILINE: the end of the text, or just before a final newline. -/
def atEnd (s : List Char) : Bool := s = [] || s = [Char.ofNat 10]

/-- The characters that `str.strip()` takes off. -/
def isSpace (c : Char) : Bool :=
  let n := c.toNat
  (9 ≤ n && n ≤ 13) || (28 ≤ n && n ≤ 32) || n = 0x85 || n = 0xA0 || n = 0x1680 ||
    (0x2000 ≤ n && n ≤ 0x200A) || n = 0x2028 || n = 0x2029 || n = 0x202F || n = 0x205F || n = 0x3000

def strip (s : List Char) : List Char :=
  ((s.dropWhile isSpace).reverse.dropWhile isSpace).reverse

/-- The first digits of the runs of ten that make up the Unicode category `Nd`. -/
def decimalDigitRuns : List ℕ :=
  [0x30, 0x660, 0x6f0, 0x7c0, 0x966, 0x9e6, 0xa66, 0xae6, 0xb66, 0xbe6, 0xc66, 0xce6, 0xd66, 0xde6,
    0xe50, 0xed0, 0xf20, 0x1040, 0x1090, 0x17e0, 0x1810, 0x1946, 0x19d0, 0x1a80, 0x1a90, 0x1b50,
    0x1bb0, 0x1c40, 0x1c50, 0xa620, 0xa8d0, 0xa900, 0xa9d0, 0xa9f0, 0xaa50, 0xabf0, 0xff10, 0x104a0,
    0x10d30, 0x11066, 0x110f0, 0x11136, 0x111d0, 0x112f0, 0x11450, 0x114d0, 0x11650, 0x116c0,
    0x11730, 0x118e0, 0x11950, 0x11c50, 0x11d50, 0x11da0, 0x11f50, 0x16a60, 0x16ac0, 0x16b50,
    0x1d7ce, 0x1d7d8, 0x1d7e2, 0x1d7ec, 0x1d7f6, 0x1e140, 0x1e2f0, 0x1e4f0, 0x1e950, 0x1fbf0]

/-- `\d`. -/
def isDecimalDigit (c : Char) : Bool :=
  decimalDigitRuns.any fun first => first ≤ c.toNat && c.toNat ≤ first + 9

/-- `d[k] = v` on the items of a dictionary in insertion order. -/
def dictSet {κ ν : Type*} [DecidableEq κ] (d : List (κ × ν)) (k : κ) (v : ν) : List (κ × ν) :=
  if (d.map Prod.fst).contains k then d.map fun kv => if kv.1 = k then (k, v) else kv
  else d ++ [(k, v)]

theorem lookup_dictSet_self {κ ν : Type*} [DecidableEq κ] {d : List (κ × ν)} {k : κ}
    (h : k ∉ d.map Prod.fst) (v : ν) : (dictSet d k v).lookup k = some v := by
  have hnone : d.lookup k = none := by
    rw [List.lookup_eq_none_iff]
    intro kv hkv
    simpa using fun heq : k = kv.1 => h (heq ▸ List.mem_map_of_mem hkv)
  simp [dictSet, h, List.lookup_append, hnone]

theorem toByteArray_encodeUtf8 (s : String) : (encodeUtf8 s).toByteArray = s.toByteArray := by
  rw [← String.utf8Encode_toList]
  rfl

theorem fromUTF8_encodeUtf8 (s : String) :
    String.fromUTF8? (encodeUtf8 s).toByteArray = some s := by
  rw [toByteArray_encodeUtf8, String.fromUTF8?, dif_pos s.isValidUTF8]
  rfl

theorem encodeUtf8_injective : Function.Injective encodeUtf8 := by
  intro s t h
  apply String.toByteArray_inj.mp
  rw [← toByteArray_encodeUtf8, ← toByteArray_encodeUtf8, h]

@[simp] theorem encodeUtf8_inj {s t : String} : encodeUtf8 s = encodeUtf8 t ↔ s = t :=
  encodeUtf8_injective.eq_iff

@[simp] theorem encodeUtf8_empty : encodeUtf8 "" = [] := rfl

@[simp] theorem encodeUtf8_eq_nil {s : String} : encodeUtf8 s = [] ↔ s = "" := by
  rw [← encodeUtf8_empty, encodeUtf8_inj]

theorem zero_mem_utf8EncodeChar {c : Char} :
    0 ∈ String.utf8EncodeChar c ↔ c = Char.ofNat 0 := by
  constructor
  · intro h
    have hv := c.val.toNat_lt
    unfold String.utf8EncodeChar at h
    dsimp only at h
    split_ifs at h with h1 h2 h3
    · have hz : c.val.toNat = 0 := by
        simp only [List.mem_singleton, ← UInt8.toNat_inj, UInt8.toNat_ofNat'] at h
        have : (0 : UInt8).toNat = 0 := rfl
        omega
      exact Char.ext (UInt32.toNat_inj.mp hz)
    all_goals
      exfalso
      simp only [List.mem_cons, List.not_mem_nil, or_false, ← UInt8.toNat_inj,
        UInt8.toNat_ofNat'] at h
      have : (0 : UInt8).toNat = 0 := rfl
      omega
  · rintro rfl
    decide

theorem zero_mem_encodeUtf8 {s : String} : 0 ∈ encodeUtf8 s ↔ ¬ NulFree s := by
  simp [encodeUtf8, NulFree, zero_mem_utf8EncodeChar]

theorem encodeUtf8_of_isAscii {s : String} (h : IsAscii s) :
    encodeUtf8 s = s.toList.map fun c => UInt8.ofNat c.toNat := by
  rw [encodeUtf8, List.map_eq_flatMap]
  refine List.flatMap_congr fun c hc => ?_
  have hlt : c.val.toNat < 128 := h c hc
  unfold String.utf8EncodeChar
  dsimp only
  rw [if_pos (by omega)]
  rfl

def strInt (n : Int) : String := Int.repr n

theorem strInt_injective : Function.Injective strInt := fun _ _ h => Int.repr_injective h

theorem strInt_ne_empty (n : Int) : strInt n ≠ "" := by
  cases n with
  | ofNat m => exact fun h => Nat.repr_ne_empty h
  | negSucc m => simp [strInt, Int.repr]

def zeroPad (width : ℕ) (n : Int) : String :=
  let sign := if n < 0 then ['-'] else []
  let digits := n.natAbs.repr.toList
  String.ofList (sign ++ List.replicate (width - sign.length - digits.length) '0' ++ digits)

theorem zeroPad_inj {width m n : ℕ} (h : zeroPad width m = zeroPad width n) : m = n := by
  have hvalue : ∀ k : ℕ, Nat.ofDigitChars 10 (zeroPad width k).toList 0 = k := by
    intro k
    have hsign : ¬ (k : Int) < 0 := by omega
    simp [zeroPad, hsign, Nat.ofDigitChars_append, Nat.ofDigitChars_replicate_zero]
  rw [← hvalue m, h, hvalue n]

def hexDigit (n : ℕ) : Char := if n < 10 then Char.ofNat (48 + n) else Char.ofNat (87 + n)

/-- `hashlib.sha256(...).hexdigest()`, from the digest. -/
def hexdigest (digest : Bytes) : String :=
  String.ofList (digest.flatMap fun b => [hexDigit (b.toNat / 16), hexDigit (b.toNat % 16)])

theorem hexDigit_injOn {m n : ℕ} (hm : m < 16) (hn : n < 16) (h : hexDigit m = hexDigit n) :
    m = n := by
  interval_cases m <;> interval_cases n <;> first | rfl | exact absurd h (by decide)

theorem hexDigit_isHex {n : ℕ} (hn : n < 16) :
    (hexDigit n).toNat < 128 ∧ hexDigit n ≠ Char.ofNat 0 := by
  interval_cases n <;> decide

@[simp] theorem length_hexdigest (digest : Bytes) :
    (hexdigest digest).toList.length = 2 * digest.length := by
  simp [hexdigest, List.length_flatMap, Nat.mul_comm]

theorem hexdigest_injective : Function.Injective hexdigest := by
  intro x y h
  have hl := String.ofList_injective h
  induction x generalizing y with
  | nil =>
    cases y with
    | nil => rfl
    | cons b y => simp at hl
  | cons a x ih =>
    cases y with
    | nil => simp at hl
    | cons b y =>
      simp only [List.flatMap_cons, List.cons_append, List.nil_append, List.cons.injEq] at hl
      have ha := a.toNat_lt
      have hb := b.toNat_lt
      have hhi := hexDigit_injOn (by omega) (by omega) hl.1
      have hlo := hexDigit_injOn (by omega) (by omega) hl.2.1
      have hab : a = b := UInt8.toNat_inj.mp (by omega)
      have hxy : x = y := ih (congrArg String.ofList hl.2.2) hl.2.2
      rw [hab, hxy]

theorem mem_hexdigest {digest : Bytes} {c : Char} (h : c ∈ (hexdigest digest).toList) :
    ∃ n < 16, c = hexDigit n := by
  simp only [hexdigest, String.toList_ofList, List.mem_flatMap, List.mem_cons, List.not_mem_nil,
    or_false] at h
  obtain ⟨b, -, hc⟩ := h
  have hb := b.toNat_lt
  rcases hc with rfl | rfl
  · exact ⟨_, by omega, rfl⟩
  · exact ⟨_, by omega, rfl⟩

theorem hexdigest_isAscii (digest : Bytes) : IsAscii (hexdigest digest) := by
  intro c hc
  obtain ⟨n, hn, rfl⟩ := mem_hexdigest hc
  exact (hexDigit_isHex hn).1

theorem hexdigest_nulFree (digest : Bytes) : NulFree (hexdigest digest) := by
  intro hc
  obtain ⟨n, hn, h⟩ := mem_hexdigest hc
  exact (hexDigit_isHex hn).2 h.symm

theorem hexdigest_eq_empty_iff {digest : Bytes} : hexdigest digest = "" ↔ digest = [] := by
  have hempty : hexdigest [] = "" := rfl
  rw [← hempty, hexdigest_injective.eq_iff]

end Athena
