import Athena.Ledger.CanonicalJson
import Athena.Library.PrefixCode

/-!
# Canonical JSON as a canonical form

On trees of null, booleans, integers, text, lists and string-keyed dicts,
`canonicalJson` returns, and it identifies exactly the trees that differ in the
order of dict members only. That it separates all others is unique readability:
every emitted text can be read off the front of whatever it begins.
-/

namespace Athena

def IsScalar (c : Fin 0x110000) : Prop := c.val < 0xd800 ∨ 0xe000 ≤ c.val

instance (c : Fin 0x110000) : Decidable (IsScalar c) := inferInstanceAs (Decidable (_ ∨ _))

def IsText (s : PyStr) : Prop := ∀ c ∈ s, IsScalar c

instance (s : PyStr) : Decidable (IsText s) := List.decidableBAll IsScalar s

mutual

/-- A tree of null, booleans, integers, text, lists and string-keyed dicts. -/
def IsJson : PyValue → Prop
  | .none | .bool _ | .int _ => True
  | .str s => IsText s
  | .list xs => AllJson xs
  | .dict items => (items.map Prod.fst).Nodup ∧ AllJsonItems items
  | .float _ | .keyed _ _ | .object _ => False

def AllJson : List PyValue → Prop
  | [] => True
  | x :: xs => IsJson x ∧ AllJson xs

def AllJsonItems : List (PyStr × PyValue) → Prop
  | [] => True
  | (k, v) :: items => (IsText k ∧ IsJson v) ∧ AllJsonItems items

end

mutual

/-- Equal up to the order of dict members, at every level. -/
def SameJson : PyValue → PyValue → Prop
  | .list xs, .list ys => SameJsonList xs ys
  | .dict xs, .dict ys => ∃ zs : List (PyStr × PyValue), zs.Perm ys ∧ SameJsonItems xs zs
  | .none, .none => True
  | .bool b, .bool c => b = c
  | .int m, .int n => m = n
  | .str s, .str t => s = t
  | _, _ => False

def SameJsonList : List PyValue → List PyValue → Prop
  | [], [] => True
  | x :: xs, y :: ys => SameJson x y ∧ SameJsonList xs ys
  | _, _ => False

def SameJsonItems : List (PyStr × PyValue) → List (PyStr × PyValue) → Prop
  | [], [] => True
  | (k, v) :: xs, (l, w) :: ys => (k = l ∧ SameJson v w) ∧ SameJsonItems xs ys
  | _, _ => False

end

theorem allJson_iff {xs : List PyValue} : AllJson xs ↔ ∀ x ∈ xs, IsJson x := by
  induction xs with
  | nil => simp [AllJson]
  | cons x xs ih => rw [AllJson, ih, List.forall_mem_cons]

theorem allJsonItems_iff {items : List (PyStr × PyValue)} :
    AllJsonItems items ↔ ∀ kv ∈ items, IsText kv.1 ∧ IsJson kv.2 := by
  induction items with
  | nil => simp [AllJsonItems]
  | cons kv items ih => rw [AllJsonItems, ih, List.forall_mem_cons]

theorem sameJsonList_iff {xs ys : List PyValue} :
    SameJsonList xs ys ↔ List.Forall₂ SameJson xs ys := by
  induction xs generalizing ys with
  | nil => cases ys <;> simp [SameJsonList]
  | cons x xs ih =>
    cases ys with
    | nil => simp [SameJsonList]
    | cons y ys => rw [SameJsonList, ih, List.forall₂_cons]

theorem sameJsonItems_iff {xs ys : List (PyStr × PyValue)} :
    SameJsonItems xs ys ↔ List.Forall₂ (fun p q => p.1 = q.1 ∧ SameJson p.2 q.2) xs ys := by
  induction xs generalizing ys with
  | nil => cases ys <;> simp [SameJsonItems]
  | cons x xs ih =>
    cases ys with
    | nil => simp [SameJsonItems]
    | cons y ys => rw [SameJsonItems, ih, List.forall₂_cons]

namespace CanonicalJson

open PrefixCode

def textOf (v : PyValue) : List Char := (dumps v).toOption.getD []

theorem textOf_eq {v : PyValue} {text : List Char} (h : dumps v = .ok text) : textOf v = text := by
  rw [textOf, h]
  rfl

theorem dumpsList_ok {xs : List PyValue} (h : ∀ x ∈ xs, dumps x = .ok (textOf x)) :
    dumpsList xs = .ok (xs.map textOf) := by
  induction xs with
  | nil => rfl
  | cons x xs ih =>
    rw [dumpsList, h x List.mem_cons_self, ih fun y hy => h y (List.mem_cons_of_mem _ hy)]
    rfl

theorem dumps_list {xs : List PyValue} (h : ∀ x ∈ xs, dumps x = .ok (textOf x)) :
    dumps (.list xs) = .ok (joinList (xs.map textOf)) := by
  rw [dumps, dumpsList_ok h]
  rfl

theorem dumpsItems_ok {items : List (PyStr × PyValue)}
    (h : ∀ kv ∈ items, dumps kv.2 = .ok (textOf kv.2)) :
    dumpsItems items = .ok (items.map fun kv => (kv.1, textOf kv.2)) := by
  induction items with
  | nil => rfl
  | cons kv items ih =>
    rw [dumpsItems, h kv List.mem_cons_self, ih fun y hy => h y (List.mem_cons_of_mem _ hy)]
    rfl

theorem dumps_dict {items : List (PyStr × PyValue)}
    (h : ∀ kv ∈ items, dumps kv.2 = .ok (textOf kv.2)) :
    dumps (.dict items) = .ok (joinDict (items.map fun kv => (kv.1, textOf kv.2))) := by
  rw [dumps, dumpsItems_ok h]
  rfl

mutual

theorem dumps_ok : ∀ v : PyValue, IsJson v → dumps v = .ok (textOf v)
  | .none, _ => rfl
  | .bool _, _ => rfl
  | .int _, _ => rfl
  | .str _, _ => rfl
  | .list xs, h => by
    rw [IsJson, allJson_iff] at h
    have hdumps := dumps_list (forall_dumps_ok xs h)
    rw [textOf_eq hdumps, hdumps]
  | .dict items, h => by
    rw [IsJson, allJsonItems_iff] at h
    have hdumps := dumps_dict (forall_items_dumps_ok items h.2)
    rw [textOf_eq hdumps, hdumps]

theorem forall_dumps_ok : ∀ xs : List PyValue, (∀ x ∈ xs, IsJson x) →
    ∀ x ∈ xs, dumps x = .ok (textOf x)
  | [], _ => by simp
  | x :: xs, h => by
    obtain ⟨hx, hxs⟩ := List.forall_mem_cons.mp h
    exact List.forall_mem_cons.mpr ⟨dumps_ok x hx, forall_dumps_ok xs hxs⟩

theorem forall_items_dumps_ok : ∀ items : List (PyStr × PyValue),
    (∀ kv ∈ items, IsText kv.1 ∧ IsJson kv.2) → ∀ kv ∈ items, dumps kv.2 = .ok (textOf kv.2)
  | [], _ => by simp
  | (k, v) :: items, h => by
    obtain ⟨hv, hitems⟩ := List.forall_mem_cons.mp h
    exact List.forall_mem_cons.mpr ⟨dumps_ok v hv.2, forall_items_dumps_ok items hitems⟩

end

section Escapes

def hexValue (c : Char) : ℕ := if c.toNat < 58 then c.toNat - 48 else c.toNat - 87

theorem hexValue_hexDigit {n : ℕ} (hn : n < 16) : hexValue (hexDigit n) = n := by
  interval_cases n <;> decide

/-- The inverse of `escapeUnit`, with what follows the six characters. -/
def unescapeUnit : List Char → Option (ℕ × List Char)
  | a :: b :: c :: d :: e :: f :: rest =>
    if a = backslash ∧ b = 'u' then
      some (hexValue c * 0x1000 + hexValue d * 0x100 + hexValue e * 0x10 + hexValue f, rest)
    else none
  | _ => none

theorem unescapeUnit_escapeUnit {n : ℕ} (hn : n < 0x10000) (rest : List Char) :
    unescapeUnit (escapeUnit n ++ rest) = some (n, rest) := by
  have hsum : n / 0x1000 % 16 * 0x1000 + n / 0x100 % 16 * 0x100 + n / 0x10 % 16 * 0x10 + n % 16 =
      n := by omega
  simp only [escapeUnit, List.cons_append, List.nil_append, unescapeUnit, and_self, if_true,
    hexValue_hexDigit (Nat.mod_lt _ (by decide : 16 > 0)), hsum]

/-- The code point that a two-character escape stands for. -/
def shortEscape (c : Char) : ℕ :=
  if c = 'n' then 0x0a else if c = 'r' then 0x0d else if c = 't' then 0x09
  else if c = 'f' then 0x0c else if c = 'b' then 0x08 else c.toNat

theorem toNat_ofNat_printable {n : ℕ} (h : 0x20 ≤ n ∧ n ≤ 0x7e) : (Char.ofNat n).toNat = n := by
  obtain ⟨hlo, hhi⟩ := h
  rw [Char.toNat_ofNat, if_pos (Or.inl (by omega))]

/-- The code point at the front of an escaped text, a surrogate pair taken as one. -/
def unescapeChar : List Char → Option (ℕ × List Char)
  | [] => none
  | [c] => if c = backslash then none else some (c.toNat, [])
  | c :: d :: rest =>
    if c ≠ backslash then some (c.toNat, d :: rest)
    else if d ≠ 'u' then some (shortEscape d, rest)
    else (unescapeUnit (c :: d :: rest)).bind fun hi =>
      if 0xd800 ≤ hi.1 ∧ hi.1 < 0xdc00 then
        (unescapeUnit hi.2).map fun lo =>
          (0x10000 + (hi.1 - 0xd800) * 0x400 + (lo.1 - 0xdc00), lo.2)
      else some hi

theorem unescapeChar_of_ne {c : Char} (hc : c ≠ backslash) (rest : List Char) :
    unescapeChar (c :: rest) = some (c.toNat, rest) := by
  cases rest with
  | nil => simp [unescapeChar, hc]
  | cons d rest => simp [unescapeChar, hc]

theorem unescapeChar_short {n : ℕ} {c : Char} (hn : n = shortEscape c) (hc : c ≠ 'u')
    (rest : List Char) : unescapeChar ([backslash, c] ++ rest) = some (n, rest) := by
  simp [unescapeChar, hc, hn]

theorem unescapeChar_plain {n : ℕ} (hn : n < 0x10000) (hplain : ¬ (0xd800 ≤ n ∧ n < 0xdc00))
    (rest : List Char) : unescapeChar (escapeUnit n ++ rest) = some (n, rest) := by
  have hunit := unescapeUnit_escapeUnit hn rest
  rw [escapeUnit] at hunit ⊢
  simp only [List.cons_append, List.nil_append] at hunit ⊢
  simp only [unescapeChar, ne_eq, not_true_eq_false, if_false, hunit, Option.bind_some,
    if_neg hplain]

theorem unescapeChar_pair {hi lo : ℕ} (hhi : 0xd800 ≤ hi ∧ hi < 0xdc00) (hlo : lo < 0x10000)
    (rest : List Char) :
    unescapeChar (escapeUnit hi ++ (escapeUnit lo ++ rest)) =
      some (0x10000 + (hi - 0xd800) * 0x400 + (lo - 0xdc00), rest) := by
  have hunit := unescapeUnit_escapeUnit (by omega : hi < 0x10000) (escapeUnit lo ++ rest)
  have hlow := unescapeUnit_escapeUnit hlo rest
  rw [escapeUnit] at hunit ⊢
  simp only [List.cons_append, List.nil_append] at hunit ⊢
  simp only [unescapeChar, ne_eq, not_true_eq_false, if_false, hunit, Option.bind_some,
    if_pos hhi, hlow, Option.map_some]

theorem unescapeChar_escapeChar {c : Fin 0x110000} (hc : IsScalar c) (rest : List Char) :
    unescapeChar (escapeChar c ++ rest) = some (c.val, rest) := by
  have hshort : ∀ e ∈ shortEscapes, e.1 = shortEscape e.2 ∧ e.2 ≠ 'u' := by decide
  have hlt := c.isLt
  rcases escapeChar_cases c with
    ⟨d, hd, heq⟩ | ⟨⟨-, hne⟩, hprint, heq⟩ | ⟨hplane, heq⟩ | ⟨hplane, heq⟩
  · rw [heq]
    exact unescapeChar_short (hshort _ hd).1 (hshort _ hd).2 rest
  · have hnat : (Char.ofNat c.val).toNat = c.val := toNat_ofNat_printable hprint
    have hplain : Char.ofNat c.val ≠ backslash := by
      intro hback
      rw [hback] at hnat
      exact hne hnat.symm
    rw [heq, List.singleton_append, unescapeChar_of_ne hplain, hnat]
  · rw [heq]
    apply unescapeChar_plain hplane
    rcases hc with h | h <;> omega
  · have hvalue : 0x10000 + (0xd800 + (c.val - 0x10000) / 0x400 - 0xd800) * 0x400 +
        (0xdc00 + (c.val - 0x10000) % 0x400 - 0xdc00) = c.val := by omega
    rw [heq, List.append_assoc, unescapeChar_pair (by omega) (by omega), hvalue]

theorem escapeChar_readOff {c : Fin 0x110000} (hc : IsScalar c) :
    ReadOff (fun _ => True) {d | IsScalar d} escapeChar Eq c := by
  intro d hd r s _ _ h
  have hread := congrArg unescapeChar h
  rw [unescapeChar_escapeChar hc, unescapeChar_escapeChar hd] at hread
  obtain ⟨hval, hrs⟩ := Prod.mk.inj (Option.some.inj hread)
  exact ⟨Fin.ext hval, hrs⟩

theorem escapeChar_head (c : Fin 0x110000) :
    ∃ d w, escapeChar c = d :: w ∧ d ≠ quotationMark := by
  have hback : backslash ≠ quotationMark := by decide
  rcases escapeChar_cases c with
    ⟨d, -, heq⟩ | ⟨⟨hne, -⟩, hprint, heq⟩ | ⟨-, heq⟩ | ⟨-, heq⟩
  · exact ⟨_, _, heq, hback⟩
  · refine ⟨_, _, heq, ?_⟩
    intro hquote
    have hnat := congrArg Char.toNat hquote
    rw [toNat_ofNat_printable hprint] at hnat
    exact hne hnat
  · exact ⟨_, _, heq, hback⟩
  · exact ⟨_, _, heq, hback⟩

theorem escapeChar_avoids : Avoids {c | IsScalar c} escapeChar quotationMark :=
  Avoids.of_head fun c _ => escapeChar_head c

theorem encodeStr_readOff {s : PyStr} (hs : IsText s) :
    ReadOff (fun _ => True) {t | IsText t} encodeStr Eq s := by
  intro t ht r r' _ _ h
  have hbody : s.flatMap escapeChar ++ quotationMark :: r =
      t.flatMap escapeChar ++ quotationMark :: r' := by
    simpa [encodeStr] using h
  obtain ⟨hst, hrest⟩ := flatMap_terminated escapeChar_avoids
    (fun c hc => ⟨hs c hc, escapeChar_readOff (hs c hc)⟩) ht hbody
  exact ⟨List.forall₂_eq_eq_eq.symm ▸ hst, hrest⟩

end Escapes

section Integers

/-- A character that the text of an integer can contain. -/
def IsNumeral (c : Char) : Prop := c = '-' ∨ c.isDigit = true

instance (c : Char) : Decidable (IsNumeral c) := inferInstanceAs (Decidable (_ ∨ _))

/-- What may follow a value: nothing, or a text that does not prolong an integer. -/
def Ends (r : List Char) : Prop := ∀ c ∈ r.head?, ¬ IsNumeral c

theorem ends_cons {c : Char} (hc : ¬ IsNumeral c) (r : List Char) : Ends (c :: r) := by
  intro d hd
  cases hd
  exact hc

theorem strInt_numeral (n : Int) : ∀ c ∈ (strInt n).toList, IsNumeral c := by
  have hdigits : ∀ (m : ℕ), ∀ c ∈ m.repr.toList, IsNumeral c := by
    intro m c hc
    rw [Nat.toList_repr] at hc
    exact .inr (Nat.isDigit_of_mem_toDigits (by omega) le_rfl hc)
  cases n with
  | ofNat m => exact hdigits m
  | negSucc m =>
    simp only [strInt, Int.repr, String.toList_append]
    intro c hc
    rcases List.mem_append.mp hc with hc | hc
    · exact .inl (List.mem_singleton.mp hc)
    · exact hdigits _ c hc

theorem strInt_head (n : Int) : ∃ c w, (strInt n).toList = c :: w ∧ IsNumeral c := by
  cases htext : (strInt n).toList with
  | nil => exact absurd (String.toList_eq_nil_iff.mp htext) (strInt_ne_empty n)
  | cons c w => exact ⟨c, w, rfl, strInt_numeral n c (by rw [htext]; exact List.mem_cons_self)⟩

/-- An integer is read off at the first character that is neither a digit nor a sign. -/
theorem strInt_append_inj {m n : Int} {r s : List Char} (hr : Ends r) (hs : Ends s)
    (h : (strInt m).toList ++ r = (strInt n).toList ++ s) : m = n ∧ r = s := by
  obtain ⟨htext, hrest⟩ := run_append_inj (strInt_numeral m) (strInt_numeral n) hr hs h
  exact ⟨strInt_injective (String.toList_injective htext), hrest⟩

end Integers

section Kinds

/-- The kind of value that a text beginning with this character is of. -/
def kindAt (c : Char) : ℕ :=
  if c = 'n' then 1
  else if c = 't' then 2
  else if c = 'f' then 3
  else if IsNumeral c then 4
  else if c = quotationMark then 5
  else if c = '[' then 6
  else if c = Char.ofNat 0x7b then 7
  else 0

def kind : PyValue → ℕ
  | .none => 1
  | .bool true => 2
  | .bool false => 3
  | .int _ => 4
  | .str _ => 5
  | .list _ => 6
  | .dict _ => 7
  | .float _ | .keyed _ _ | .object _ => 0

theorem kindAt_numeral {c : Char} (h : IsNumeral c) : kindAt c = 4 := by
  have hne : ∀ d, ¬ IsNumeral d → c ≠ d := fun d hd heq => hd (heq ▸ h)
  unfold kindAt
  rw [if_neg (hne _ (by decide)), if_neg (hne _ (by decide)), if_neg (hne _ (by decide)), if_pos h]

theorem textOf_list {xs : List PyValue} (h : IsJson (.list xs)) :
    textOf (.list xs) = joinList (xs.map textOf) := by
  rw [IsJson, allJson_iff] at h
  exact textOf_eq (dumps_list (forall_dumps_ok xs h))

theorem textOf_dict {items : List (PyStr × PyValue)} (h : IsJson (.dict items)) :
    textOf (.dict items) = joinDict (items.map fun kv => (kv.1, textOf kv.2)) := by
  rw [IsJson, allJsonItems_iff] at h
  exact textOf_eq (dumps_dict (forall_items_dumps_ok items h.2))

theorem kind_ne_zero {v : PyValue} (h : IsJson v) : kind v ≠ 0 := by
  cases v with
  | float x => exact absurd h (by simp [IsJson])
  | keyed b items => exact absurd h (by simp [IsJson])
  | object s => exact absurd h (by simp [IsJson])
  | bool b => cases b <;> decide
  | _ => simp [kind]

theorem textOf_head {v : PyValue} (h : IsJson v) :
    ∃ c w, textOf v = c :: w ∧ kindAt c = kind v := by
  cases v with
  | none => exact ⟨_, _, rfl, by decide⟩
  | bool b => cases b <;> exact ⟨_, _, rfl, by decide⟩
  | int n =>
    obtain ⟨c, w, hw, hc⟩ := strInt_head n
    exact ⟨c, w, hw, kindAt_numeral hc⟩
  | str s => exact ⟨_, _, rfl, (by decide : kindAt quotationMark = 5)⟩
  | list xs => exact ⟨_, _, textOf_list h, (by decide : kindAt '[' = 6)⟩
  | dict items => exact ⟨_, _, textOf_dict h, (by decide : kindAt (Char.ofNat 0x7b) = 7)⟩
  | float x => exact absurd rfl (kind_ne_zero h)
  | keyed b items => exact absurd rfl (kind_ne_zero h)
  | object s => exact absurd rfl (kind_ne_zero h)

theorem kind_eq_of_append {v w : PyValue} (hv : IsJson v) (hw : IsJson w) {r s : List Char}
    (h : textOf v ++ r = textOf w ++ s) : kind v = kind w := by
  obtain ⟨c, x, hx, hcx⟩ := textOf_head hv
  obtain ⟨d, y, hy, hdy⟩ := textOf_head hw
  rw [hx, hy] at h
  rw [← hcx, ← hdy, (List.cons.inj h).1]

theorem textOf_avoids : Avoids {v | IsJson v} textOf ']' := by
  apply Avoids.of_head
  intro v hv
  obtain ⟨c, w, hw, hc⟩ := textOf_head hv
  refine ⟨c, w, hw, ?_⟩
  rintro rfl
  exact kind_ne_zero hv (hc.symm.trans (by decide))

end Kinds

section Readability

def sortMembers (items : List (PyStr × PyValue)) : List (PyStr × PyValue) :=
  items.insertionSort fun a b => a.1 ≤ b.1

def memberText (kv : PyStr × PyValue) : List Char := encodeStr kv.1 ++ ':' :: textOf kv.2

theorem textOf_dict_eq {items : List (PyStr × PyValue)} (h : IsJson (.dict items)) :
    textOf (.dict items) = Char.ofNat 0x7b ::
      (List.intercalate [','] ((sortMembers items).map memberText) ++ [Char.ofNat 0x7d]) := by
  have hsort : sortItems (items.map fun kv => (kv.1, textOf kv.2)) =
      (sortMembers items).map fun kv => (kv.1, textOf kv.2) :=
    (List.map_insertionSort (fun a b : PyStr × PyValue => a.1 ≤ b.1)
      (fun a b : PyStr × List Char => a.1 ≤ b.1) (fun kv => (kv.1, textOf kv.2)) items
      fun _ _ _ _ => Iff.rfl).symm
  rw [textOf_dict h, joinDict, joinItems, hsort, List.map_map]
  rfl

theorem memberText_avoids :
    Avoids {kv : PyStr × PyValue | IsText kv.1 ∧ IsJson kv.2} memberText (Char.ofNat 0x7d) :=
  Avoids.of_head fun _ _ => ⟨_, _, rfl, by decide⟩

/-- The text of the value can be told from every other text, up to the order of dict members. -/
def Readable (v : PyValue) : Prop := ReadOff Ends {w | IsJson w} textOf SameJson v

theorem readable_none : Readable .none := by
  intro w hw r s _ _ h
  have hk := kind_eq_of_append (v := .none) trivial hw h
  cases w with
  | none => exact ⟨trivial, List.append_cancel_left h⟩
  | bool b => cases b <;> cases hk
  | _ => cases hk

theorem readable_bool (b : Bool) : Readable (.bool b) := by
  intro w hw r s _ _ h
  have hk := kind_eq_of_append (v := .bool b) trivial hw h
  cases w with
  | bool c =>
    have hbc : b = c := by cases b <;> cases c <;> first | rfl | cases hk
    subst hbc
    exact ⟨rfl, List.append_cancel_left h⟩
  | _ => cases b <;> cases hk

theorem readable_int (m : Int) : Readable (.int m) := by
  intro w hw r s hr hs h
  have hk := kind_eq_of_append (v := .int m) trivial hw h
  cases w with
  | int n => exact strInt_append_inj hr hs h
  | bool b => cases b <;> cases hk
  | _ => cases hk

theorem readable_str {t : PyStr} (ht : IsText t) : Readable (.str t) := by
  intro w hw r s _ _ h
  have hk := kind_eq_of_append (v := .str t) ht hw h
  cases w with
  | str u => exact encodeStr_readOff ht u hw r s trivial trivial h
  | bool b => cases b <;> cases hk
  | _ => cases hk

theorem readable_list {xs : List PyValue} (hxs : IsJson (.list xs))
    (hread : ∀ x ∈ xs, Readable x) : Readable (.list xs) := by
  intro w hw r s _ _ h
  have hk := kind_eq_of_append hxs hw h
  cases w with
  | list ys =>
    have hbody : List.intercalate [','] (xs.map textOf) ++ ']' :: r =
        List.intercalate [','] (ys.map textOf) ++ ']' :: s := by
      simpa [textOf_list hxs, textOf_list hw, joinList] using h
    obtain ⟨hsame, hrest⟩ := separated (by decide) (ends_cons (by decide)) (ends_cons (by decide))
      textOf_avoids (fun x hx => ⟨allJson_iff.mp hxs x hx, hread x hx⟩) (allJson_iff.mp hw) hbody
    exact ⟨sameJsonList_iff.mpr hsame, hrest⟩
  | bool b => cases b <;> cases hk
  | _ => cases hk

theorem sameJson_dict {xs ys : List (PyStr × PyValue)}
    (h : List.Forall₂ (fun p q => p.1 = q.1 ∧ SameJson p.2 q.2) (sortMembers xs)
      (sortMembers ys)) : SameJson (.dict xs) (.dict ys) := by
  have hcomp : Relation.Comp List.Perm
      (List.Forall₂ fun p q : PyStr × PyValue => p.1 = q.1 ∧ SameJson p.2 q.2) xs
      (sortMembers ys) := ⟨sortMembers xs, (List.perm_insertionSort _ xs).symm, h⟩
  rw [← List.forall₂_comp_perm_eq_perm_comp_forall₂] at hcomp
  obtain ⟨zs, hsame, hperm⟩ := hcomp
  exact ⟨zs, hperm.trans (List.perm_insertionSort _ ys), sameJsonItems_iff.mpr hsame⟩

theorem readable_dict {xs : List (PyStr × PyValue)} (hxs : IsJson (.dict xs))
    (hread : ∀ kv ∈ xs, Readable kv.2) : Readable (.dict xs) := by
  intro w hw r s _ _ h
  have hk := kind_eq_of_append hxs hw h
  cases w with
  | dict ys =>
    have hx := allJsonItems_iff.mp hxs.2
    have hy := allJsonItems_iff.mp hw.2
    have hbody : List.intercalate [','] ((sortMembers xs).map memberText) ++
          Char.ofNat 0x7d :: r =
        List.intercalate [','] ((sortMembers ys).map memberText) ++ Char.ofNat 0x7d :: s := by
      simpa [textOf_dict_eq hxs, textOf_dict_eq hw] using h
    have hmembers : ∀ kv ∈ sortMembers xs, (IsText kv.1 ∧ IsJson kv.2) ∧
        ReadOff Ends {q | IsText q.1 ∧ IsJson q.2} memberText
          (fun p q => p.1 = q.1 ∧ SameJson p.2 q.2) kv := by
      intro kv hkv
      have hmem : kv ∈ xs := (List.mem_insertionSort _).mp hkv
      exact ⟨hx kv hmem, ReadOff.pair (encodeStr_readOff (hx kv hmem).1) (hread kv hmem)⟩
    obtain ⟨hsame, hrest⟩ := separated (by decide) (ends_cons (by decide)) (ends_cons (by decide))
      memberText_avoids hmembers (fun kv hkv => hy kv ((List.mem_insertionSort _).mp hkv)) hbody
    exact ⟨sameJson_dict hsame, hrest⟩
  | bool b => cases b <;> cases hk
  | _ => cases hk

mutual

theorem readable_of_isJson : ∀ v : PyValue, IsJson v → Readable v
  | .none, _ => readable_none
  | .bool b, _ => readable_bool b
  | .int n, _ => readable_int n
  | .str _, h => readable_str h
  | .list xs, h => readable_list h (forall_readable xs (allJson_iff.mp h))
  | .dict items, h => readable_dict h (forall_items_readable items (allJsonItems_iff.mp h.2))

theorem forall_readable : ∀ xs : List PyValue, (∀ x ∈ xs, IsJson x) → ∀ x ∈ xs, Readable x
  | [], _ => by simp
  | x :: xs, h => by
    obtain ⟨hx, hxs⟩ := List.forall_mem_cons.mp h
    exact List.forall_mem_cons.mpr ⟨readable_of_isJson x hx, forall_readable xs hxs⟩

theorem forall_items_readable : ∀ items : List (PyStr × PyValue),
    (∀ kv ∈ items, IsText kv.1 ∧ IsJson kv.2) → ∀ kv ∈ items, Readable kv.2
  | [], _ => by simp
  | (k, v) :: items, h => by
    obtain ⟨hv, hitems⟩ := List.forall_mem_cons.mp h
    exact List.forall_mem_cons.mpr ⟨readable_of_isJson v hv.2, forall_items_readable items hitems⟩

end

theorem sameJson_of_textOf_eq {v w : PyValue} (hv : IsJson v) (hw : IsJson w)
    (h : textOf v = textOf w) : SameJson v w := by
  have hnil : Ends [] := fun c hc => by cases hc
  exact (readable_of_isJson v hv w hw [] [] hnil hnil (by rw [h])).1

end Readability

section KeyOrder

/-- Members with distinct keys are sorted into an order of their own. -/
theorem sortItems_eq_of_perm {xs ys : List (PyStr × List Char)} (hperm : xs.Perm ys)
    (hkeys : (xs.map Prod.fst).Nodup) : sortItems xs = sortItems ys := by
  have hxs := List.perm_insertionSort (fun a b : PyStr × List Char => a.1 ≤ b.1) xs
  have hys := List.perm_insertionSort (fun a b : PyStr × List Char => a.1 ≤ b.1) ys
  refine List.Perm.eq_of_pairwise ?_ (List.pairwise_insertionSort _ xs)
    (List.pairwise_insertionSort _ ys) (hxs.trans (hperm.trans hys.symm))
  intro a b ha hb hab hba
  exact List.inj_on_of_nodup_map hkeys (hxs.mem_iff.mp ha)
    (hperm.mem_iff.mpr (hys.mem_iff.mp hb)) (le_antisymm hab hba)

theorem textOf_dict_congr {xs ys zs : List (PyStr × PyValue)} (hxs : IsJson (.dict xs))
    (hys : IsJson (.dict ys)) (hperm : zs.Perm ys)
    (h : xs.map (fun kv => (kv.1, textOf kv.2)) = zs.map fun kv => (kv.1, textOf kv.2)) :
    textOf (.dict xs) = textOf (.dict ys) := by
  have hkeys : ((zs.map fun kv => (kv.1, textOf kv.2)).map Prod.fst).Nodup := by
    rw [← h, List.map_map]
    exact hxs.1
  rw [textOf_dict hxs, textOf_dict hys, joinDict, joinDict, h,
    sortItems_eq_of_perm (hperm.map _) hkeys]

mutual

theorem textOf_congr : ∀ v w : PyValue, IsJson v → IsJson w → SameJson v w → textOf v = textOf w
  | .none, w, _, _, h => by
    cases w with
    | none => rfl
    | _ => cases h
  | .bool b, w, _, _, h => by
    cases w with
    | bool c => exact congrArg (fun x => textOf (.bool x)) h
    | _ => cases h
  | .int m, w, _, _, h => by
    cases w with
    | int n => exact congrArg (fun x => textOf (.int x)) h
    | _ => cases h
  | .str s, w, _, _, h => by
    cases w with
    | str t => exact congrArg (fun x => textOf (.str x)) h
    | _ => cases h
  | .list xs, w, hv, hw, h => by
    cases w with
    | list ys =>
      rw [textOf_list hv, textOf_list hw, map_textOf_congr xs ys hv hw h]
    | _ => cases h
  | .dict xs, w, hv, hw, h => by
    cases w with
    | dict ys =>
      obtain ⟨zs, hperm, hsame⟩ := h
      have hzs : AllJsonItems zs := allJsonItems_iff.mpr fun kv hkv =>
        allJsonItems_iff.mp hw.2 kv (hperm.mem_iff.mp hkv)
      exact textOf_dict_congr hv hw hperm (written_congr xs zs hv.2 hzs hsame)
    | _ => cases h

theorem map_textOf_congr : ∀ xs ys : List PyValue, AllJson xs → AllJson ys → SameJsonList xs ys →
    xs.map textOf = ys.map textOf
  | [], [], _, _, _ => rfl
  | x :: xs, y :: ys, hx, hy, h => by
    rw [List.map_cons, List.map_cons, textOf_congr x y hx.1 hy.1 h.1,
      map_textOf_congr xs ys hx.2 hy.2 h.2]
  | [], _ :: _, _, _, h => by cases h
  | _ :: _, [], _, _, h => by cases h

theorem written_congr : ∀ xs ys : List (PyStr × PyValue), AllJsonItems xs → AllJsonItems ys →
    SameJsonItems xs ys →
      xs.map (fun kv => (kv.1, textOf kv.2)) = ys.map fun kv => (kv.1, textOf kv.2)
  | [], [], _, _, _ => rfl
  | (k, v) :: xs, (l, w) :: ys, hx, hy, h => by
    rw [List.map_cons, List.map_cons, textOf_congr v w hx.1.2 hy.1.2 h.1.2, h.1.1,
      written_congr xs ys hx.2 hy.2 h.2]
  | [], _ :: _, _, _, h => by cases h
  | _ :: _, [], _, _, h => by cases h

end

end KeyOrder

end CanonicalJson

/-- `canonicalJson` is a canonical form of JSON trees up to the order of dict members. -/
theorem canonical_form {a b : PyValue} (ha : IsJson a) (hb : IsJson b) :
    ∃ s t, canonicalJson a = .ok s ∧ canonicalJson b = .ok t ∧ (s = t ↔ SameJson a b) := by
  refine ⟨String.ofList (CanonicalJson.textOf a), String.ofList (CanonicalJson.textOf b),
    ?_, ?_, ?_⟩
  · rw [canonicalJson, CanonicalJson.dumps_ok a ha]
    rfl
  · rw [canonicalJson, CanonicalJson.dumps_ok b hb]
    rfl
  · constructor
    · intro h
      exact CanonicalJson.sameJson_of_textOf_eq ha hb (String.ofList_injective h)
    · intro h
      rw [CanonicalJson.textOf_congr a b ha hb h]

/-- Two nested dicts whose members stand in different orders. -/
theorem canonical_form_swapped :
    ∃ s t,
      canonicalJson (.dict
        [([97], .int 1), ([98], .list [.dict [([99], .none), ([100], .str [])]])]) = .ok s ∧
      canonicalJson (.dict
        [([98], .list [.dict [([100], .str []), ([99], .none)]]), ([97], .int 1)]) = .ok t ∧
      (s = t ↔ SameJson
        (.dict [([97], .int 1), ([98], .list [.dict [([99], .none), ([100], .str [])]])])
        (.dict [([98], .list [.dict [([100], .str []), ([99], .none)]]), ([97], .int 1)])) := by
  apply canonical_form
  · simp [IsJson, AllJson, AllJsonItems, IsText, IsScalar]
  · simp [IsJson, AllJson, AllJsonItems, IsText, IsScalar]

end Athena
