import Athena.Core.Text

/-!
# The policy version SHA

`POLICY_VERSION_SHA` is `_extract_policy_sha` of what `git describe` printed.
The regular expression is followed by hand: a hexadecimal run is maximal
wherever it can end a match, so its greedy repetition never backtracks.
-/

namespace Athena

def isHexLower (c : Char) : Bool := ('0' ≤ c && c ≤ '9') || ('a' ≤ c && c ≤ 'f')

def IsHex64 (h : String) : Prop := h.toList.length = 64 ∧ ∀ c ∈ h.toList, isHexLower c

instance (h : String) : Decidable (IsHex64 h) := inferInstanceAs (Decidable (_ ∧ _))

/-- `([0-9a-f]{7,40})(-dirty)?$` at the start of the text. -/
def matchShaTail (s : List Char) : Option (List Char × Bool) :=
  let sha := s.takeWhile isHexLower
  let rest := s.dropWhile isHexLower
  if 7 ≤ sha.length ∧ sha.length ≤ 40 then
    if atEnd rest then some (sha, false)
    else if "-dirty".toList.isPrefixOf rest ∧ atEnd (rest.drop 6) then some (sha, true)
    else none
  else none

/-- The alternative `-g` of `(?:^|-g)`, at the leftmost position that matches. -/
def searchShaTail : List Char → Option (List Char × Bool)
  | [] => none
  | c :: s =>
    let here := if "-g".toList.isPrefixOf (c :: s) then matchShaTail (s.drop 1) else none
    here.or (searchShaTail s)

def extractPolicySha (raw : String) : String :=
  match (matchShaTail raw.toList).or (searchShaTail raw.toList) with
  | none => "unknown-dev"
  | some (sha, dirty) => if dirty then String.ofList sha ++ "-dirty" else String.ofList sha

theorem matchShaTail_some {s sha : List Char} {dirty : Bool}
    (h : matchShaTail s = some (sha, dirty)) :
    (∀ c ∈ sha, isHexLower c) ∧ 7 ≤ sha.length ∧ sha.length ≤ 40 := by
  unfold matchShaTail at h
  dsimp only at h
  split_ifs at h with hlen <;> cases h <;> exact ⟨fun c hc => List.mem_takeWhile_imp hc, hlen⟩

theorem searchShaTail_some {s sha : List Char} {dirty : Bool}
    (h : searchShaTail s = some (sha, dirty)) :
    (∀ c ∈ sha, isHexLower c) ∧ 7 ≤ sha.length ∧ sha.length ≤ 40 := by
  induction s with
  | nil => cases h
  | cons c s ih =>
    rw [searchShaTail, Option.or_eq_some_iff] at h
    rcases h with h | ⟨-, h⟩
    · split_ifs at h
      exact matchShaTail_some h
    · exact ih h

/-- Whatever `git describe` printed, the result is a short hexadecimal text, possibly
marked dirty, or the fallback. -/
theorem extractPolicySha_cases (raw : String) :
    extractPolicySha raw = "unknown-dev" ∨ ∃ sha : List Char,
      ((∀ c ∈ sha, isHexLower c) ∧ 7 ≤ sha.length ∧ sha.length ≤ 40) ∧
        (extractPolicySha raw = String.ofList sha ∨
          extractPolicySha raw = String.ofList sha ++ "-dirty") := by
  unfold extractPolicySha
  split
  · exact Or.inl rfl
  · rename_i sha dirty hmatch
    refine Or.inr ⟨sha, ?_, ?_⟩
    · rcases Option.or_eq_some_iff.mp hmatch with h | ⟨-, h⟩
      · exact matchShaTail_some h
      · exact searchShaTail_some h
    · cases dirty with
      | true => exact Or.inr rfl
      | false => exact Or.inl rfl

theorem isHexLower_ascii {c : Char} (h : isHexLower c) : c.toNat < 128 ∧ c ≠ Char.ofNat 0 := by
  simp only [isHexLower, Bool.or_eq_true, Bool.and_eq_true, decide_eq_true_eq] at h
  have hle : c ≤ 'f' := h.elim (fun h => le_trans h.2 (by decide)) And.right
  have hge : '0' ≤ c := h.elim And.left fun h => le_trans (by decide) h.1
  refine ⟨lt_of_le_of_lt (UInt32.le_iff_toNat_le.mp hle) (by decide), ?_⟩
  rintro rfl
  exact absurd hge (by decide)

theorem extractPolicySha_nulFree (raw : String) : NulFree (extractPolicySha raw) := by
  rcases extractPolicySha_cases raw with h | ⟨sha, ⟨hsha, -⟩, h | h⟩ <;> rw [h]
  · decide
  · intro hc
    rw [String.toList_ofList] at hc
    exact (isHexLower_ascii (hsha _ hc)).2 rfl
  · intro hc
    rw [String.toList_append, String.toList_ofList, List.mem_append] at hc
    rcases hc with hc | hc
    · exact (isHexLower_ascii (hsha _ hc)).2 rfl
    · exact (by decide : NulFree "-dirty") hc

end Athena
