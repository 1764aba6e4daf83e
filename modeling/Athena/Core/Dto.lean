import Athena.Core.Version

/-!
# The common fields of all DTOs

`BaseDTO` checks three fields. Its two patterns are matched by a Rust regular
expression engine: `$` is the very end of the text, and `\d` is any decimal
digit of Unicode.
-/

namespace Athena

/-- A `datetime` value, as far as validators look at it. -/
inductive TimestampValue
  | aware (instant : Int)
  | naive (wall : Int)
  deriving DecidableEq, Repr

def requireUtc : TimestampValue → Except PyErr Int
  | .aware instant => .ok instant
  | .naive _ => .error (.valueError ("timestamp must be timezone-aware (UTC); naive datetime " ++
      "forbidden per architecture.md#Enforcement-Guidelines #6"))

/-- The fields that a `ValidationError` names, from the checks in the order of the model. -/
def rejectedFields (checks : List (String × Bool)) : List String :=
  (checks.filter fun check => !check.2).map Prod.fst

def dropDigits (s : List Char) : Option (List Char) :=
  if s.takeWhile isDecimalDigit = [] then none else some (s.dropWhile isDecimalDigit)

def dropChar (c : Char) : List Char → Option (List Char)
  | [] => none
  | d :: s => if d = c then some s else none

/-- `\.v\d+\.\d+\.\d+$`. -/
def isVersionTail (s : List Char) : Bool :=
  ((((((dropChar '.' s).bind (dropChar 'v')).bind dropDigits).bind (dropChar '.')).bind
    dropDigits).bind (dropChar '.')).bind dropDigits = some []

def isLowerLetter (c : Char) : Bool := 'a' ≤ c && c ≤ 'z'

/-- `_MODULE_VERSION_PATTERN`. -/
def isModuleVersion (s : String) : Bool :=
  match s.toList with
  | [] => false
  | c :: rest =>
    (c = 'M' && (dropDigits rest).any isVersionTail) ||
      (isLowerLetter c && isVersionTail (rest.dropWhile fun d => isLowerLetter d || d = '_'))

/-- `_POLICY_SHA_PATTERN`. -/
def isPolicySha (s : String) : Bool :=
  let sha := s.toList.takeWhile isHexLower
  let rest := s.toList.dropWhile isHexLower
  7 ≤ sha.length && sha.length ≤ 40 && (rest = [] || rest = "-dirty".toList)

/-- The values of `POLICY_VERSION_SHA`: what `_extract_policy_sha` makes of a commit string,
or the fallback when there is none. -/
def IsPolicyVersionSha (sha : String) : Prop :=
  (∃ raw, sha = extractPolicySha raw) ∨ sha = "unknown-dev"

theorem isPolicySha_of_hex {sha : List Char} (hhex : ∀ c ∈ sha, isHexLower c)
    (hlen : 7 ≤ sha.length ∧ sha.length ≤ 40) {rest : List Char}
    (hrest : rest = [] ∨ rest = "-dirty".toList) : isPolicySha (String.ofList (sha ++ rest)) := by
  have hstop : rest.takeWhile isHexLower = [] ∧ rest.dropWhile isHexLower = rest := by
    rcases hrest with rfl | rfl
    · exact ⟨rfl, rfl⟩
    · exact ⟨by decide, by decide⟩
  unfold isPolicySha
  rw [String.toList_ofList, List.takeWhile_append_of_pos hhex, List.dropWhile_append_of_pos hhex,
    hstop.1, hstop.2, List.append_nil]
  simp only [Bool.and_eq_true, Bool.or_eq_true, decide_eq_true_eq]
  exact ⟨hlen, hrest⟩

theorem isPolicySha_iff {sha : String} (hsha : IsPolicyVersionSha sha) :
    isPolicySha sha ↔ sha ≠ "unknown-dev" := by
  have hfallback : ¬ isPolicySha "unknown-dev" := by decide
  rcases hsha with ⟨raw, rfl⟩ | rfl
  · rcases extractPolicySha_cases raw with h | ⟨chars, ⟨hhex, hlen⟩, h | h⟩ <;> rw [h]
    · exact ⟨fun ht => absurd ht hfallback, fun hne => absurd rfl hne⟩
    · have hmatch := isPolicySha_of_hex hhex hlen (.inl rfl)
      rw [List.append_nil] at hmatch
      exact ⟨fun ht hne => hfallback (hne ▸ ht), fun _ => hmatch⟩
    · have hmatch := isPolicySha_of_hex hhex hlen (.inr rfl)
      rw [String.ofList_append, String.ofList_toList] at hmatch
      exact ⟨fun ht hne => hfallback (hne ▸ ht), fun _ => hmatch⟩
  · exact ⟨fun ht => absurd ht hfallback, fun hne => absurd rfl hne⟩

end Athena
