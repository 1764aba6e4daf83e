import Mathlib.Data.Option.Basic
import Mathlib.Logic.Function.Basic
import Mathlib.Tactic

/-!
# Read and replace

Processes share one value. Each reads it once and later replaces it by what it
makes of the value it has read, whatever has happened in between. The value in
the end went through the hands of a chain of processes, each of which read what
the one before it had written; what all others wrote is lost.
-/

namespace ReadReplace

variable {ι V : Type*}

inductive Event (ι : Type*)
  | read (i : ι)
  | replace (i : ι)
  deriving DecidableEq

/-- The shared value, and what each process has read. -/
structure State (ι V : Type*) where
  value : V
  seen : ι → Option V

def State.start (v : V) : State ι V := ⟨v, fun _ => none⟩

/-- Every process appends itself to the chain it has read. -/
def extend (i : ι) (chain : List ι) : Option (List ι) := some (chain ++ [i])

/-- The value that a chain of processes makes of `v`, one after the other. -/
def chained (write : ι → V → Option V) (v : V) (chain : List ι) : Option V :=
  chain.foldlM (fun v i => write i v) v

theorem chained_append (write : ι → V → Option V) (v : V) (chain : List ι) (i : ι) :
    chained write v (chain ++ [i]) = (chained write v chain).bind (write i) := by
  unfold chained
  simp only [List.foldlM_append, List.foldlM_cons, List.foldlM_nil, bind_pure]
  rfl

section Machine

variable [DecidableEq ι]

/-- `write i v` is what process `i` makes of `v`; `none` if it fails and replaces nothing. -/
def step (write : ι → V → Option V) (s : State ι V) : Event ι → State ι V
  | .read i => { s with seen := Function.update s.seen i (some s.value) }
  | .replace i =>
    match (s.seen i).bind (write i) with
    | some v => { s with value := v }
    | none => s

def run (write : ι → V → Option V) (s : State ι V) (es : List (Event ι)) : State ι V :=
  es.foldl (step write) s

theorem run_append (write : ι → V → Option V) (s : State ι V) (es fs : List (Event ι)) :
    run write s (es ++ fs) = run write (run write s es) fs := List.foldl_append

@[simp] theorem run_cons (write : ι → V → Option V) (s : State ι V) (e : Event ι)
    (es : List (Event ι)) : run write s (e :: es) = run write (step write s e) es := rfl

theorem step_replace {write : ι → V → Option V} {s : State ι V} {i : ι} {u u' : V}
    (hseen : s.seen i = some u) (hwrite : write i u = some u') :
    step write s (.replace i) = { s with value := u' } := by
  simp only [step, hseen, Option.bind_some, hwrite]

/-- The processes through whose hands the value went, the last one last. -/
def lineage (es : List (Event ι)) : List ι := (run extend (State.start []) es).value

section Lineage

variable {write : ι → V → Option V} {v : V} {Good : V → Prop}

/-- A chain stands for the good value that it makes of `v`. -/
def Stands (write : ι → V → Option V) (v : V) (Good : V → Prop) (chain : List ι) (u : V) : Prop :=
  chained write v chain = some u ∧ Good u

/-- The machine on chains follows the machine on values. -/
structure Follows (write : ι → V → Option V) (v : V) (Good : V → Prop) (t : State ι (List ι))
    (s : State ι V) : Prop where
  value : Stands write v Good t.value s.value
  seen : ∀ i, Option.Rel (Stands write v Good) (t.seen i) (s.seen i)

theorem Follows.step (hgood : ∀ i u, Good u → ∃ u', write i u = some u' ∧ Good u')
    {t : State ι (List ι)} {s : State ι V} (h : Follows write v Good t s) (e : Event ι) :
    Follows write v Good (step extend t e) (step write s e) := by
  cases e with
  | read i =>
    refine ⟨h.value, fun j => ?_⟩
    by_cases hj : j = i
    · subst hj
      simpa [ReadReplace.step] using Option.Rel.some h.value
    · simpa [ReadReplace.step, hj] using h.seen j
  | replace i =>
    have hseen := h.seen i
    cases ht : t.seen i with
    | none =>
      cases hs : s.seen i with
      | none => simpa [ReadReplace.step, ht, hs] using h
      | some u => rw [ht, hs] at hseen; cases hseen
    | some chain =>
      cases hs : s.seen i with
      | none => rw [ht, hs] at hseen; cases hseen
      | some u =>
        rw [ht, hs] at hseen
        obtain ⟨hchain, hu⟩ := Option.rel_some_some.mp hseen
        obtain ⟨u', hu', hgood'⟩ := hgood i u hu
        have hnew : Stands write v Good (chain ++ [i]) u' := by
          refine ⟨?_, hgood'⟩
          rw [chained_append, hchain]
          exact hu'
        rw [step_replace ht rfl, step_replace hs hu']
        exact ⟨hnew, h.seen⟩

/-- The value after any events is what its lineage makes of the first value. -/
theorem run_value (hv : Good v) (hgood : ∀ i u, Good u → ∃ u', write i u = some u' ∧ Good u')
    (es : List (Event ι)) :
    chained write v (lineage es) = some (run write (State.start v) es).value := by
  have hfollows : ∀ (t : State ι (List ι)) (s : State ι V), Follows write v Good t s →
      Follows write v Good (run extend t es) (run write s es) := by
    intro t s h
    induction es generalizing t s with
    | nil => exact h
    | cons e es ih => exact ih _ _ (h.step hgood e)
  exact (hfollows (State.start []) (State.start v) ⟨⟨rfl, hv⟩, fun _ => .none⟩).value.1

end Lineage

/-- Every process reads once and replaces once, in this order. -/
def Interleaving (es : List (Event ι)) : Prop :=
  es.Nodup ∧ ∀ i, ∃ a b c, es = a ++ .read i :: (b ++ .replace i :: c)

theorem seen_step_ne_none {t : State ι V} {write : ι → V → Option V} {i : ι} (e : Event ι)
    (h : t.seen i ≠ none) : (step write t e).seen i ≠ none := by
  cases e with
  | read j =>
    by_cases hij : i = j
    · subst hij
      simp [step]
    · simpa [step, hij] using h
  | replace j =>
    unfold step
    dsimp only
    split <;> exact h

theorem seen_run_ne_none {t : State ι V} {i : ι} (w : ι → V → Option V) (es : List (Event ι))
    (h : t.seen i ≠ none) : (run w t es).seen i ≠ none := by
  induction es generalizing t with
  | nil => exact h
  | cons e es ih => exact ih (seen_step_ne_none e h)

theorem value_run_ne_nil {t : State ι (List ι)} (es : List (Event ι)) (h : t.value ≠ []) :
    (run extend t es).value ≠ [] := by
  induction es generalizing t with
  | nil => exact h
  | cons e es ih =>
    apply ih
    cases e with
    | read i => exact h
    | replace i => cases hseen : t.seen i <;> simp [step, hseen, extend, h]

/-- Once a process has finished, the value went through some process's hands. -/
theorem lineage_ne_nil {es : List (Event ι)} (h : Interleaving es) (i : ι) : lineage es ≠ [] := by
  obtain ⟨a, b, c, rfl⟩ := h.2 i
  rw [lineage, run_append, run_cons, run_append, run_cons]
  apply value_run_ne_nil
  have hread : (step extend (run extend (State.start []) a) (.read i)).seen i ≠ none := by
    simp [step]
  have hseen := seen_run_ne_none extend b hread
  obtain ⟨chain, hchain⟩ := Option.ne_none_iff_exists'.mp hseen
  rw [step_replace hchain rfl]
  exact List.append_ne_nil_of_right_ne_nil _ (List.cons_ne_nil i [])

end Machine

end ReadReplace
