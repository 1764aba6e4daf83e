import Mathlib.Order.Lattice
import Mathlib.Tactic

/-!
# Time zones

A zone has an offset before its first transition and another one from each
transition on. An instant has one offset; a wall-clock reading may have two or
none, and `fold` chooses. If the transitions are far enough apart, the reading
that an instant has leads back to the offset of the instant.
-/

namespace TimeZone

/-- From `instant` on the offset is `offset`. -/
structure Transition where
  instant : Int
  offset : Int
  deriving DecidableEq, Repr

/-- The wall-clock reading from which the transition counts as passed: the later of the two
readings at its instant for `fold = 0`, the earlier one for `fold = 1`. -/
def Transition.wall (t : Transition) (before : Int) (fold : Bool) : Int :=
  t.instant + if fold then min before t.offset else max before t.offset

/-- The offset and the `fold` of an instant. A reading is the second of two if the clock
has been set back by more than the time since then. -/
def findUtc (current : Int × Bool) : List Transition → Int → Int × Bool
  | [], _ => current
  | t :: ts, u =>
    if u < t.instant then current
    else findUtc (t.offset, decide (u - t.instant < current.1 - t.offset)) ts u

/-- The offset of a wall-clock reading. -/
def findWall (before : Int) : List Transition → Int → Bool → Int
  | [], _, _ => before
  | t :: ts, w, fold => if w < t.wall before fold then before else findWall t.offset ts w fold

/-- On the wall clock, a transition is over before the next one begins. -/
def Separated (before : Int) : List Transition → Prop
  | [] => True
  | t :: ts => (∀ t' ∈ ts.head?, t.wall before false ≤ t'.wall t.offset true) ∧
      Separated t.offset ts

instance decidableSeparated (before : Int) :
    (ts : List Transition) → Decidable (Separated before ts)
  | [] => .isTrue trivial
  | t :: ts =>
    have := decidableSeparated t.offset ts
    inferInstanceAs (Decidable (_ ∧ _))

section Lookup

variable {before : Int} {fold : Bool} {ts : List Transition} {u w : Int}

theorem Transition.wall_le_wall (t : Transition) (before : Int) (fold fold' : Bool) :
    t.wall before true ≤ t.wall before fold ∧ t.wall before fold' ≤ t.wall before false := by
  unfold Transition.wall
  cases fold <;> cases fold' <;> simp

/-- The clock after a transition, read with the `fold` it has then, is behind the transition. -/
theorem Transition.wall_le (t : Transition) (h : t.instant ≤ u) :
    t.wall before (decide (u - t.instant < before - t.offset)) ≤ u + t.offset := by
  unfold Transition.wall
  by_cases hfold : u - t.instant < before - t.offset
  · rw [if_pos (decide_eq_true hfold)]
    omega
  · rw [if_neg (by simpa using hfold)]
    omega

theorem wall_le_of_reached {t : Transition} (h : Separated before (t :: ts))
    (hreached : t.instant ≤ u) :
    t.wall before (findUtc (before, fold) (t :: ts) u).2 ≤
      u + (findUtc (before, fold) (t :: ts) u).1 := by
  induction ts generalizing before fold t with
  | nil =>
    rw [findUtc, if_neg (Int.not_lt.mpr hreached)]
    exact t.wall_le hreached
  | cons t' ts ih =>
    rw [findUtc, if_neg (Int.not_lt.mpr hreached)]
    by_cases hnext : u < t'.instant
    · rw [findUtc, if_pos hnext]
      exact t.wall_le hreached
    · have hlater := @ih t.offset (decide (u - t.instant < before - t.offset)) t' h.2
        (Int.not_lt.mp hnext)
      have hbetween := h.1 t' rfl
      have hearly := (t.wall_le_wall before true
        (findUtc (t.offset, decide (u - t.instant < before - t.offset)) (t' :: ts) u).2).2
      have hlate := (t'.wall_le_wall t.offset
        (findUtc (t.offset, decide (u - t.instant < before - t.offset)) (t' :: ts) u).2 true).1
      exact hearly.trans (hbetween.trans (hlate.trans hlater))

/-- The offset of an instant is the offset of its reading, if the reading is before the next
transition whenever it is a second one. -/
theorem findWall_findUtc (h : Separated before ts)
    (hsecond : fold = true → ∀ t ∈ ts.head?, u + before < t.wall before true) :
    findWall before ts (u + (findUtc (before, fold) ts u).1) (findUtc (before, fold) ts u).2 =
      (findUtc (before, fold) ts u).1 := by
  induction ts generalizing before fold with
  | nil => rfl
  | cons t ts ih =>
    by_cases hreached : u < t.instant
    · have hbefore : u + before < t.wall before fold := by
        cases fold with
        | false =>
          simp only [Transition.wall, Bool.false_eq_true, if_false]
          omega
        | true => exact hsecond rfl t rfl
      rw [findUtc, if_pos hreached, findWall, if_pos hbefore]
    · have hwall := @wall_le_of_reached before fold ts u t h (Int.not_lt.mp hreached)
      have hrest : decide (u - t.instant < before - t.offset) = true →
          ∀ t' ∈ ts.head?, u + t.offset < t'.wall t.offset true := by
        intro hfold t' ht'
        have hbetween := h.1 t' ht'
        have hfold := of_decide_eq_true hfold
        have hmax : t.instant + before ≤ t.wall before false := by
          simp [Transition.wall]
        omega
      rw [findWall, if_neg (Int.not_lt.mpr hwall), findUtc, if_neg hreached]
      exact ih h.2 hrest

theorem findUtc_fst_mem (before : Int) (fold : Bool) (ts : List Transition) (u : Int) :
    (findUtc (before, fold) ts u).1 ∈ before :: ts.map Transition.offset := by
  induction ts generalizing before fold with
  | nil => exact List.mem_cons_self
  | cons t ts ih =>
    rw [findUtc]
    split_ifs with hreached
    · exact List.mem_cons_self
    · exact List.mem_cons_of_mem _ (ih t.offset _)

theorem findUtc_of_reached (h : ∀ t ∈ ts, t.instant ≤ u) :
    (findUtc (before, fold) ts u).1 = (ts.getLast?.map Transition.offset).getD before := by
  induction ts generalizing before fold with
  | nil => rfl
  | cons t ts ih =>
    have hreached := h t List.mem_cons_self
    rw [findUtc, if_neg (Int.not_lt.mpr hreached),
      ih fun t' ht' => h t' (List.mem_cons_of_mem _ ht')]
    cases ts with
    | nil => rfl
    | cons t' ts =>
      rw [List.getLast?_cons_cons, List.getLast?_eq_some_getLast (List.cons_ne_nil t' ts)]
      rfl

end Lookup

structure Zone where
  before : Int
  transitions : List Transition
  separated : Separated before transitions

namespace Zone

variable (z : Zone)

def offsetAt (u : Int) : Int := (findUtc (z.before, false) z.transitions u).1

def foldAt (u : Int) : Bool := (findUtc (z.before, false) z.transitions u).2

def utcoffset (w : Int) (fold : Bool) : Int := findWall z.before z.transitions w fold

/-- The zone without transitions. -/
def fixed (offset : Int) : Zone := ⟨offset, [], trivial⟩

/-- The reading that an instant has, with its `fold`, has the offset of the instant. -/
theorem utcoffset_offsetAt (u : Int) : z.utcoffset (u + z.offsetAt u) (z.foldAt u) = z.offsetAt u :=
  findWall_findUtc z.separated (by simp)

theorem offsetAt_mem (u : Int) : z.offsetAt u ∈ z.before :: z.transitions.map Transition.offset :=
  findUtc_fst_mem z.before false z.transitions u

theorem offsetAt_of_reached {u : Int} (h : ∀ t ∈ z.transitions, t.instant ≤ u) :
    z.offsetAt u = (z.transitions.getLast?.map Transition.offset).getD z.before :=
  findUtc_of_reached h

end Zone

end TimeZone
