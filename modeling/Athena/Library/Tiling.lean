import Mathlib.Order.Monotone.Basic
import Mathlib.Data.List.Basic
import Mathlib.Tactic

/-!
# Half-open tiles

A monotone sequence of bounds cuts an order into half-open tiles. The elements
of a list whose keys fall into consecutive tiles make up, without repetition or
loss, those whose keys fall between the outer bounds.
-/

namespace Tiling

variable {α β : Type*} [LinearOrder β] {key : α → β}

/-- The elements with a key from `lo` up to, not including, `hi`. -/
def slice (key : α → β) (lo hi : β) (l : List α) : List α :=
  l.filter fun a => lo ≤ key a ∧ key a < hi

theorem mem_slice {lo hi : β} {l : List α} {a : α} :
    a ∈ slice key lo hi l ↔ a ∈ l ∧ lo ≤ key a ∧ key a < hi := by
  simp [slice]

theorem slice_append (lo hi : β) (l m : List α) :
    slice key lo hi (l ++ m) = slice key lo hi l ++ slice key lo hi m := List.filter_append _ _

theorem slice_self (lo : β) (l : List α) : slice key lo lo l = [] := by
  rw [List.eq_nil_iff_forall_not_mem]
  intro a ha
  obtain ⟨-, hle, hlt⟩ := mem_slice.mp ha
  exact absurd hlt (not_lt.mpr hle)

theorem slice_append_perm {lo mid hi : β} (hlo : lo ≤ mid) (hhi : mid ≤ hi) (l : List α) :
    (slice key lo mid l ++ slice key mid hi l).Perm (slice key lo hi l) := by
  have hleft : slice key lo mid l = (slice key lo hi l).filter fun a => key a < mid := by
    rw [slice, slice, List.filter_filter]
    apply List.filter_congr
    intro a _
    rw [← Bool.decide_and]
    exact decide_eq_decide.mpr
      ⟨fun h => ⟨h.2, h.1, h.2.trans_le hhi⟩, fun h => ⟨h.2.1, h.1⟩⟩
  have hright : slice key mid hi l = (slice key lo hi l).filter fun a => !decide (key a < mid) := by
    rw [slice, slice, List.filter_filter]
    apply List.filter_congr
    intro a _
    rw [← decide_not, ← Bool.decide_and]
    exact decide_eq_decide.mpr
      ⟨fun h => ⟨not_lt.mpr h.1, hlo.trans h.1, h.2⟩, fun h => ⟨not_lt.mp h.1, h.2.2⟩⟩
  rw [hleft, hright]
  exact List.filter_append_perm _ _

variable {bound : ℕ → β}

/-- The tiling rule: consecutive tiles make up the whole interval. -/
theorem tiles_perm (hb : Monotone bound) (l : List α) (n : ℕ) :
    ((List.range n).flatMap fun i => slice key (bound i) (bound (i + 1)) l).Perm
      (slice key (bound 0) (bound n) l) := by
  induction n with
  | zero => simp [slice_self]
  | succ n ih =>
    rw [List.range_succ, List.flatMap_append, List.flatMap_singleton]
    exact (ih.append_right _).trans (slice_append_perm (hb n.zero_le) (hb n.le_succ) l)

theorem tile_unique (hb : Monotone bound) {i j : ℕ} {x : β} (hi : bound i ≤ x ∧ x < bound (i + 1))
    (hj : bound j ≤ x ∧ x < bound (j + 1)) : i = j := by
  by_contra hne
  rcases Nat.lt_or_gt_of_ne hne with hlt | hlt
  · exact absurd (hi.2.trans_le (hb hlt)) (not_lt.mpr hj.1)
  · exact absurd (hj.2.trans_le (hb hlt)) (not_lt.mpr hi.1)

theorem sum_length_tiles (hb : Monotone bound) (l : List α) (n : ℕ) :
    ∑ i ∈ Finset.range n, (slice key (bound i) (bound (i + 1)) l).length =
      (slice key (bound 0) (bound n) l).length := by
  induction n with
  | zero => simp [slice_self]
  | succ n ih =>
    rw [Finset.sum_range_succ, ih, ← List.length_append]
    exact (slice_append_perm (hb n.zero_le) (hb n.le_succ) l).length_eq

theorem exists_mem_tile_iff (hb : Monotone bound) {l : List α} {n : ℕ} {a : α} :
    (∃ i < n, a ∈ slice key (bound i) (bound (i + 1)) l) ↔ a ∈ slice key (bound 0) (bound n) l := by
  rw [← (tiles_perm hb l n).mem_iff]
  simp

end Tiling
