import Mathlib.Algebra.Order.Monoid.Defs
import Mathlib.Data.List.Induction

/-!
# Alerts with a hold time

A rule is evaluated again and again. An alert becomes pending when the condition
holds, fires when it is still active at an evaluation at least `hold` later, and
is over as soon as the condition fails.
-/

namespace AlertRule

variable {T α : Type*} [LinearOrder T] [Add T]

/-- An active alert knows since when it has been active. -/
inductive Phase (T : Type*)
  | inactive
  | pending (activeAt : T)
  | firing (activeAt : T)
  deriving DecidableEq, Repr

def Phase.Firing (p : Phase T) : Prop := ∃ activeAt, p = .firing activeAt

def settle (hold activeAt t : T) : Phase T :=
  if activeAt + hold ≤ t then .firing activeAt else .pending activeAt

def evaluate (hold : T) (p : Phase T) (t : T) (active : Bool) : Phase T :=
  if active then
    match p with
    | .inactive => settle hold t t
    | .pending activeAt => settle hold activeAt t
    | .firing activeAt => .firing activeAt
  else .inactive

def run (hold : T) (time : α → T) (active : α → Bool) (evaluations : List α) : Phase T :=
  evaluations.foldl (fun p a => evaluate hold p (time a) (active a)) .inactive

/-- The condition has held without a break since an evaluation at time `t`. -/
def HeldSince (time : α → T) (active : α → Bool) (evaluations : List α) (t : T) : Prop :=
  ∃ before first after, evaluations = before ++ first :: after ∧ time first = t ∧
    ∀ a ∈ first :: after, active a = true

/-- What the phase tells about the evaluations, of which `now` is the time of the last one. -/
def Tells (hold : T) (time : α → T) (active : α → Bool) (evaluations : List α) (now : T) :
    Phase T → Prop
  | .inactive => ∀ t, ¬ HeldSince time active evaluations t
  | .pending t => HeldSince time active evaluations t ∧
      (∀ u, HeldSince time active evaluations u → t ≤ u) ∧ ¬ t + hold ≤ now
  | .firing t => HeldSince time active evaluations t ∧ t + hold ≤ now

section Run

variable {hold : T} {time : α → T} {active : α → Bool}

theorem run_append (evaluations : List α) (a : α) :
    run hold time active (evaluations ++ [a]) =
      evaluate hold (run hold time active evaluations) (time a) (active a) := by
  simp [run]

omit [LinearOrder T] [Add T] in
theorem heldSince_append {evaluations : List α} {a : α} {t : T} :
    HeldSince time active (evaluations ++ [a]) t ↔
      active a = true ∧ (time a = t ∨ HeldSince time active evaluations t) := by
  constructor
  · rintro ⟨before, first, after, hsplit, htime, hactive⟩
    induction after using List.reverseRecOn with
    | nil =>
      obtain ⟨rfl, hlast⟩ := List.append_inj' hsplit rfl
      obtain rfl : a = first := List.singleton_inj.mp hlast
      exact ⟨hactive a (List.mem_singleton_self a), .inl htime⟩
    | append_singleton after b =>
      rw [← List.cons_append, ← List.append_assoc] at hsplit
      obtain ⟨rfl, hlast⟩ := List.append_inj' hsplit rfl
      obtain rfl : a = b := List.singleton_inj.mp hlast
      refine ⟨hactive a (by simp), .inr ⟨before, first, after, rfl, htime, ?_⟩⟩
      intro c hc
      exact hactive c (List.mem_append_left [a] hc)
  · rintro ⟨ha, htime | ⟨before, first, after, rfl, htime, hactive⟩⟩
    · exact ⟨evaluations, a, [], rfl, htime, List.forall_mem_singleton.mpr ha⟩
    · refine ⟨before, first, after ++ [a], by simp, htime, ?_⟩
      exact List.forall_mem_append.mpr ⟨hactive, List.forall_mem_singleton.mpr ha⟩

omit [LinearOrder T] [Add T] in
theorem HeldSince.mem {evaluations : List α} {t : T} (h : HeldSince time active evaluations t) :
    ∃ a ∈ evaluations, time a = t := by
  obtain ⟨before, first, after, rfl, htime, -⟩ := h
  exact ⟨first, by simp, htime⟩

theorem Tells.settle {evaluations : List α} {now t : T}
    (h : HeldSince time active evaluations t)
    (hleast : ∀ u, HeldSince time active evaluations u → t ≤ u) :
    Tells hold time active evaluations now (settle hold t now) := by
  unfold AlertRule.settle
  split_ifs with hheld
  · exact ⟨h, hheld⟩
  · exact ⟨h, hleast, hheld⟩

theorem Tells.evaluate {evaluations : List α} {now : T} {p : Phase T}
    (h : Tells hold time active evaluations now p) {a : α} (hnow : now ≤ time a)
    (htime : ∀ b ∈ evaluations, time b ≤ time a) :
    Tells hold time active (evaluations ++ [a]) (time a)
      (evaluate hold p (time a) (active a)) := by
  unfold AlertRule.evaluate
  by_cases ha : active a = true
  · rw [if_pos ha]
    cases p with
    | inactive =>
      apply Tells.settle (heldSince_append.mpr ⟨ha, .inl rfl⟩)
      intro u hu
      rcases (heldSince_append.mp hu).2 with rfl | hu
      · exact le_rfl
      · exact absurd hu (h u)
    | pending t =>
      obtain ⟨hheld, hleast, -⟩ := h
      apply Tells.settle (heldSince_append.mpr ⟨ha, .inr hheld⟩)
      intro u hu
      rcases (heldSince_append.mp hu).2 with rfl | hu
      · obtain ⟨b, hb, rfl⟩ := hheld.mem
        exact htime b hb
      · exact hleast u hu
    | firing t => exact ⟨heldSince_append.mpr ⟨ha, .inr h.1⟩, h.2.trans hnow⟩
  · rw [if_neg ha]
    intro t ht
    exact ha (heldSince_append.mp ht).1

theorem tells_run {evaluations : List α} {a : α}
    (htimes : (evaluations ++ [a]).Pairwise fun b c => time b ≤ time c) :
    Tells hold time active (evaluations ++ [a]) (time a)
      (run hold time active (evaluations ++ [a])) := by
  induction evaluations using List.reverseRecOn generalizing a with
  | nil =>
    have hnone : Tells hold time active [] (time a) .inactive := by
      rintro t ⟨before, first, after, hsplit, -⟩
      exact absurd hsplit (by simp)
    rw [run_append]
    exact hnone.evaluate le_rfl (List.forall_mem_nil _)
  | append_singleton evaluations b ih =>
    obtain ⟨hbefore, -, hlast⟩ := List.pairwise_append.mp htimes
    have htime : ∀ c ∈ evaluations ++ [b], time c ≤ time a := fun c hc =>
      hlast c hc a (List.mem_singleton_self a)
    rw [run_append]
    exact (ih hbefore).evaluate (htime b (by simp)) htime

theorem firing_run_iff [AddRightMono T] {evaluations : List α} {a : α}
    (htimes : (evaluations ++ [a]).Pairwise fun b c => time b ≤ time c) :
    (run hold time active (evaluations ++ [a])).Firing ↔
      ∃ t, HeldSince time active (evaluations ++ [a]) t ∧ t + hold ≤ time a := by
  have htells : Tells hold time active (evaluations ++ [a]) (time a)
      (run hold time active (evaluations ++ [a])) := tells_run htimes
  generalize run hold time active (evaluations ++ [a]) = p at htells ⊢
  constructor
  · rintro ⟨t, rfl⟩
    exact ⟨t, htells⟩
  · rintro ⟨u, hu, hheld⟩
    cases p with
    | inactive => exact absurd hu (htells u)
    | pending t =>
      obtain ⟨-, hleast, hearly⟩ := htells
      exact absurd ((add_le_add_left (hleast u hu) hold).trans hheld) hearly
    | firing t => exact ⟨t, rfl⟩

end Run

end AlertRule
