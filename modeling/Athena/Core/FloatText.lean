import Athena.Core.Numerals
import Athena.Library.ShortestDecimal

/-!
# The texts of floats

A float is known by what `float.__repr__` prints for it: one of three constants,
a zero with its sign, or the digits of the shortest decimal, with the point in
place from `0.0001` up to sixteen digits and with an exponent otherwise.
-/

namespace Athena

/-- A float that is told by its text; the `nan`s are one. -/
inductive FloatText
  | nan
  | infinity (negative : Bool)
  | zero (negative : Bool)
  | finite (negative : Bool) (x : Binary64.ShortestDecimal)

/-- A numeral without its sign. -/
structure NumeralParts where
  whole : List Char
  fraction : List Char
  exponent : List Char

/-- `%+.02d` behind an `e`. -/
def exponentText (exponent : ℤ) : List Char :=
  'e' :: (if exponent < 0 then '-' else '+') :: (zeroPad 2 exponent.natAbs).toList

/-- `format_float_short` with the format code `r`: the point stands behind the first `point` of
the digits. -/
def formatFloatShort (digits : List Char) (point : ℤ) : NumeralParts :=
  if -4 < point ∧ point ≤ 16 then
    if point ≤ 0 then ⟨['0'], '.' :: (List.replicate (-point).toNat '0' ++ digits), []⟩
    else if point < digits.length then
      ⟨digits.take point.toNat, '.' :: digits.drop point.toNat, []⟩
    else ⟨digits ++ List.replicate (point - digits.length).toNat '0', ['.', '0'], []⟩
  else ⟨digits.take 1, if digits.length = 1 then [] else '.' :: digits.drop 1,
    exponentText (point - 1)⟩

namespace FloatText

def signText (negative : Bool) : List Char := if negative then ['-'] else []

def numeral (x : Binary64.ShortestDecimal) : NumeralParts :=
  let digits := x.significand.repr.toList
  formatFloatShort digits (digits.length + x.exponent)

/-- `float.__repr__`, but for the names that JSON gives to the constants. -/
def text : FloatText → List Char
  | nan => ['N', 'a', 'N']
  | infinity negative => signText negative ++ ['I', 'n', 'f', 'i', 'n', 'i', 't', 'y']
  | zero negative => signText negative ++ ['0', '.', '0']
  | finite negative x =>
    signText negative ++
      ((numeral x).whole ++ ((numeral x).fraction ++ (numeral x).exponent))

def value : FloatText → Option (WithBot (WithTop ℚ))
  | nan => none
  | infinity negative => some (if negative then ⊥ else ((⊤ : WithTop ℚ) : WithBot (WithTop ℚ)))
  | zero _ => some (((0 : ℚ) : WithTop ℚ) : WithBot (WithTop ℚ))
  | finite negative x =>
    some (((if negative then -x.value else x.value : ℚ) : WithTop ℚ) : WithBot (WithTop ℚ))

end FloatText

section Grammar

def IsDigits (w : List Char) : Prop := w ≠ [] ∧ ∀ c ∈ w, c.isDigit = true

/-- The digits of an integer without leading zeros. -/
def IsWhole (w : List Char) : Prop := IsDigits w ∧ (w.head? = some '0' → w = ['0'])

def IsFraction (w : List Char) : Prop := w = [] ∨ ∃ ds, IsDigits ds ∧ w = '.' :: ds

def IsExponent (w : List Char) : Prop :=
  w = [] ∨ ∃ e sign ds, (e = 'e' ∨ e = 'E') ∧ (sign = [] ∨ sign = ['-'] ∨ sign = ['+']) ∧
    IsDigits ds ∧ w = e :: (sign ++ ds)

/-- A numeral of a number that is written with a fraction or an exponent. -/
structure NumeralParts.WellFormed (p : NumeralParts) : Prop where
  whole : IsWhole p.whole
  fraction : IsFraction p.fraction
  exponent : IsExponent p.exponent
  inexact : ¬ (p.fraction = [] ∧ p.exponent = [])

theorem repr_head_ne_zero {n : ℕ} (hn : n ≠ 0) : n.repr.toList.head? ≠ some '0' := by
  rw [Nat.toList_repr]
  induction n using Nat.strong_induction_on with
  | _ n ih =>
    by_cases hlt : n < 10
    · rw [Nat.toDigits_of_lt_base hlt]
      interval_cases n <;> first | exact absurd rfl hn | decide
    · rw [Nat.toDigits_of_base_le (by decide) (by omega),
        List.head?_append_of_ne_nil _ Nat.toDigits_ne_nil]
      exact ih (n / 10) (Nat.div_lt_self (by omega) (by decide)) (by omega)

theorem isDigits_append_zeros {w : List Char} (h : IsDigits w) (n : ℕ) :
    IsDigits (w ++ List.replicate n '0') ∧ IsDigits (List.replicate n '0' ++ w) := by
  have hzeros : ∀ c ∈ List.replicate n '0', c.isDigit = true := by
    intro c hc
    rw [List.eq_of_mem_replicate hc]
    rfl
  exact ⟨⟨List.append_ne_nil_of_left_ne_nil h.1 _, List.forall_mem_append.mpr ⟨h.2, hzeros⟩⟩,
    ⟨List.append_ne_nil_of_right_ne_nil _ h.1, List.forall_mem_append.mpr ⟨hzeros, h.2⟩⟩⟩

theorem isExponent_exponentText (exponent : ℤ) :
    IsExponent (exponentText exponent) ∧ exponentText exponent ≠ [] := by
  refine ⟨.inr ⟨'e', [if exponent < 0 then '-' else '+'],
    (zeroPad 2 exponent.natAbs).toList, .inl rfl, ?_, ?_, rfl⟩,
    List.cons_ne_nil _ _⟩
  · split_ifs
    · exact .inr (.inl rfl)
    · exact .inr (.inr rfl)
  · have hsign : ¬ ((exponent.natAbs : ℕ) : Int) < 0 := by omega
    rw [zeroPad, if_neg hsign, String.toList_ofList, List.nil_append, Int.natAbs_natCast]
    exact (isDigits_append_zeros ⟨repr_toList_ne_nil _, repr_digits _⟩ _).2

theorem isWhole_take {digits : List Char} (h : IsDigits digits) (hhead : digits.head? ≠ some '0')
    {n : ℕ} (hn : n ≠ 0) : IsWhole (digits.take n) := by
  obtain ⟨c, rest, rfl⟩ := List.exists_cons_of_ne_nil h.1
  obtain ⟨k, rfl⟩ := Nat.exists_eq_succ_of_ne_zero hn
  rw [List.take_succ_cons]
  exact ⟨⟨List.cons_ne_nil _ _, fun d hd => h.2 d (List.mem_of_mem_take (i := k + 1) hd)⟩,
    fun h0 => absurd h0 hhead⟩

/-- What is printed for a float is a number of the JSON grammar, and no integer. -/
theorem formatFloatShort_wellFormed {digits : List Char} (h : IsDigits digits)
    (hhead : digits.head? ≠ some '0') (point : ℤ) :
    (formatFloatShort digits point).WellFormed := by
  have hzero : IsWhole ['0'] := ⟨⟨List.cons_ne_nil _ _, by simp⟩, fun _ => rfl⟩
  have hdrop : ∀ n < digits.length, IsDigits (digits.drop n) := fun n hn =>
    ⟨fun hnil => absurd (List.drop_eq_nil_iff.mp hnil) (by omega),
      fun c hc => h.2 c (List.mem_of_mem_drop hc)⟩
  have hpos := List.length_pos_of_ne_nil h.1
  unfold formatFloatShort
  split_ifs with hplain hfront hinside hone
  · exact ⟨hzero, .inr ⟨_, (isDigits_append_zeros h _).2, rfl⟩, .inl rfl, by simp⟩
  · exact ⟨isWhole_take h hhead (by omega), .inr ⟨_, hdrop _ (by omega), rfl⟩, .inl rfl, by simp⟩
  · refine ⟨⟨(isDigits_append_zeros h _).1, fun h0 => absurd h0 ?_⟩,
      .inr ⟨['0'], hzero.1, rfl⟩, .inl rfl, by simp⟩
    rwa [List.head?_append_of_ne_nil _ h.1]
  · obtain ⟨hexponent, hne⟩ := isExponent_exponentText (point - 1)
    exact ⟨isWhole_take h hhead one_ne_zero, .inl rfl, hexponent, fun hnil => hne hnil.2⟩
  · obtain ⟨hexponent, hne⟩ := isExponent_exponentText (point - 1)
    exact ⟨isWhole_take h hhead one_ne_zero, .inr ⟨_, hdrop 1 (by omega), rfl⟩, hexponent,
      fun hnil => hne hnil.2⟩

theorem FloatText.numeral_wellFormed (x : Binary64.ShortestDecimal) : (numeral x).WellFormed :=
  formatFloatShort_wellFormed ⟨repr_toList_ne_nil _, repr_digits _⟩
    (repr_head_ne_zero x.significand_ne_zero) _

end Grammar

example : (formatFloatShort ['1'] (-6)).exponent = "e-07".toList ∧
    (formatFloatShort ['1', '5'] 1).fraction = ".5".toList := by decide

end Athena
