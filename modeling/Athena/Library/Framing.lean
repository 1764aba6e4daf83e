import Mathlib.Data.List.Basic
import Mathlib.Algebra.BigOperators.Group.List.Basic
import Mathlib.Tactic

/-!
# Separator-joined frames

A frame joins finitely many parts with one separator symbol. The joined word
determines its parts as soon as the parts of one side avoid the separator and
the number of parts is known: the other side then cannot hide a separator
inside a part, because the occurrences of the separator are counted.
-/

namespace Framing

variable {α : Type*}

def join (sep : α) (parts : List (List α)) : List α := List.intercalate [sep] parts

def SeparatorFree (sep : α) (parts : List (List α)) : Prop := ∀ part ∈ parts, sep ∉ part

@[simp] theorem join_nil (sep : α) : join sep [] = [] := rfl

@[simp] theorem join_singleton (sep : α) (part : List α) : join sep [part] = part := by
  simp [join]

@[simp] theorem join_cons_cons (sep : α) (part next : List α) (rest : List (List α)) :
    join sep (part :: next :: rest) = part ++ sep :: join sep (next :: rest) := by
  simp [join, List.intercalate_cons_cons]

theorem SeparatorFree.tail {sep : α} {part : List α} {parts : List (List α)}
    (h : SeparatorFree sep (part :: parts)) : SeparatorFree sep parts :=
  fun p hp => h p (List.mem_cons_of_mem _ hp)

/-- Two words that agree up to their first separator agree on both sides of it. -/
theorem split_at_separator {sep : α} {a b s t : List α} (ha : sep ∉ a) (hb : sep ∉ b)
    (h : a ++ sep :: s = b ++ sep :: t) : a = b ∧ s = t := by
  induction a generalizing b with
  | nil =>
    cases b with
    | nil => exact ⟨rfl, (List.cons.inj h).2⟩
    | cons y ys => exact absurd (List.cons.inj h).1 fun he => hb (he ▸ List.mem_cons_self)
  | cons x xs ih =>
    cases b with
    | nil => exact absurd (List.cons.inj h).1 fun he => ha (he ▸ List.mem_cons_self)
    | cons y ys =>
      obtain ⟨hxy, hrest⟩ := List.cons.inj h
      obtain ⟨hxs, hst⟩ := ih (fun hm => ha (List.mem_cons_of_mem _ hm))
        (fun hm => hb (List.mem_cons_of_mem _ hm)) hrest
      exact ⟨by rw [hxy, hxs], hst⟩

section Counting

variable [DecidableEq α]

theorem count_join (sep : α) (parts : List (List α)) :
    (join sep parts).count sep = (parts.length - 1) + (parts.map (List.count sep)).sum := by
  induction parts with
  | nil => simp
  | cons part rest ih =>
    cases rest with
    | nil => simp
    | cons next rest =>
      simp only [join_cons_cons, List.count_append, List.count_cons_self, ih, List.length_cons,
        List.map_cons, List.sum_cons]
      omega

theorem separatorFree_iff_sum_count (sep : α) (parts : List (List α)) :
    SeparatorFree sep parts ↔ (parts.map (List.count sep)).sum = 0 := by
  simp [SeparatorFree, List.sum_eq_zero_iff, List.count_eq_zero]

/-- A frame with as many parts as a separator-free one, joining to the same
word, is separator-free as well. -/
theorem SeparatorFree.of_join_eq {sep : α} {xs ys : List (List α)} (hx : SeparatorFree sep xs)
    (hlen : xs.length = ys.length) (h : join sep xs = join sep ys) : SeparatorFree sep ys := by
  have hcount := congrArg (List.count sep) h
  rw [count_join, count_join, hlen, (separatorFree_iff_sum_count sep xs).mp hx] at hcount
  rw [separatorFree_iff_sum_count]
  omega

end Counting

/-- Separator-free frames with the same number of parts are determined by their words. -/
theorem join_injective_of_length {sep : α} {xs ys : List (List α)} (hx : SeparatorFree sep xs)
    (hy : SeparatorFree sep ys) (hlen : xs.length = ys.length) (h : join sep xs = join sep ys) :
    xs = ys := by
  induction xs generalizing ys with
  | nil => exact (List.length_eq_zero_iff.mp hlen.symm).symm
  | cons x xs ih =>
    match ys, hlen with
    | [], hlen => simp at hlen
    | y :: ys, hlen =>
      have hlen' : xs.length = ys.length := by simpa using hlen
      match xs, ys, hlen' with
      | [], [], _ => simpa using h
      | x' :: xs, y' :: ys, hlen' =>
        simp only [join_cons_cons] at h
        obtain ⟨hxy, hrest⟩ := split_at_separator (hx x (by simp)) (hy y (by simp)) h
        rw [hxy, ih hx.tail hy.tail hlen' hrest]

theorem separatorFree_splitOn [BEq α] [LawfulBEq α] (sep : α) (word : List α) :
    SeparatorFree sep (word.splitOn sep) := by
  induction word with
  | nil => simp [SeparatorFree]
  | cons x word ih =>
    rw [List.splitOn_cons_eq_if_modifyHead]
    split_ifs with hx
    · simpa [SeparatorFree] using ih
    · have hne : sep ≠ x := fun heq => hx (beq_iff_eq.mpr heq.symm)
      generalize word.splitOn sep = parts at ih
      cases parts with
      | nil => simp [SeparatorFree]
      | cons part parts => simpa [SeparatorFree, hne] using ih

/-- The framing rule: a separator-free frame is told apart from every other frame
with the same number of parts, whether or not that one is separator-free. -/
theorem join_eq_join_iff [DecidableEq α] {sep : α} {xs ys : List (List α)}
    (hx : SeparatorFree sep xs) (hlen : xs.length = ys.length) :
    join sep xs = join sep ys ↔ xs = ys :=
  ⟨fun h => join_injective_of_length hx (hx.of_join_eq hlen h) hlen h, fun h => h ▸ rfl⟩

/-- Without a known number of parts, the parts are still determined when both
sides are separator-free and have a part. -/
theorem join_injective [DecidableEq α] {sep : α} {xs ys : List (List α)}
    (hx : SeparatorFree sep xs) (hy : SeparatorFree sep ys) (hxs : xs ≠ []) (hys : ys ≠ [])
    (h : join sep xs = join sep ys) : xs = ys := by
  have hcount := congrArg (List.count sep) h
  rw [count_join, count_join, (separatorFree_iff_sum_count sep xs).mp hx,
    (separatorFree_iff_sum_count sep ys).mp hy] at hcount
  have hxl := List.length_pos_iff.mpr hxs
  have hyl := List.length_pos_iff.mpr hys
  exact join_injective_of_length hx hy (by omega) h

end Framing
