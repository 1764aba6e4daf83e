import Mathlib.Logic.Basic

/-!
# Programs over a world, and simulations between worlds

A program over a world `σ` returns a value or an error, and the world it leaves.
Two outcomes agree when they return the same and leave related worlds; agreement
passes through sequencing and through loops.
-/

namespace WorldSimulation

variable {ε α β γ σ τ : Type*}

/-- One step behind another one that may fail. -/
def andThen (r : Except ε α × σ) (f : α → σ → Except ε β × σ) : Except ε β × σ :=
  match r with
  | (.error e, s) => (.error e, s)
  | (.ok a, s) => f a s

structure Agree (R : σ → τ → Prop) (a : α × σ) (b : α × τ) : Prop where
  value : a.1 = b.1
  world : R a.2 b.2

variable {R : σ → τ → Prop}

theorem Agree.andThen {a : Except ε α × σ} {b : Except ε α × τ} (h : Agree R a b)
    {f : α → σ → Except ε β × σ} {g : α → τ → Except ε β × τ}
    (hnext : ∀ x s t, R s t → Agree R (f x s) (g x t)) :
    Agree R (andThen a f) (andThen b g) := by
  obtain ⟨result, s⟩ := a
  obtain ⟨result', t⟩ := b
  obtain ⟨hvalue, hworld⟩ := h
  obtain rfl : result = result' := hvalue
  cases result with
  | error e => exact ⟨rfl, hworld⟩
  | ok x => exact hnext x s t hworld

/-- What every step keeps, a sequence keeps. -/
theorem andThen_world {P : σ → Prop} {a : Except ε α × σ} (ha : P a.2)
    {f : α → σ → Except ε β × σ} (hnext : ∀ x s, P s → P (f x s).2) : P (andThen a f).2 := by
  obtain ⟨result, s⟩ := a
  cases result with
  | error e => exact ha
  | ok x => exact hnext x s ha

theorem Agree.foldl {l : List γ} {f : α × σ → γ → α × σ} {g : α × τ → γ → α × τ}
    (hround : ∀ x ∈ l, ∀ a b, Agree R a b → Agree R (f a x) (g b x)) {a : α × σ} {b : α × τ}
    (h : Agree R a b) : Agree R (l.foldl f a) (l.foldl g b) := by
  induction l generalizing a b with
  | nil => exact h
  | cons x l ih =>
    obtain ⟨hx, hl⟩ := List.forall_mem_cons.mp hround
    exact ih hl (hx a b h)

end WorldSimulation
