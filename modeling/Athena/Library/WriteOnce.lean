import Mathlib.Data.List.AList
import Mathlib.Tactic

/-!
# Write-once stores

A writer prepares contents under scratch keys and publishes them under visible
keys that were free until then. Whatever happens in between, readers of visible
keys see complete contents only, and what they have once seen stays.
-/

namespace WriteOnce

variable {κ β : Type*} [DecidableEq κ] (visible : κ → Prop) (complete : κ → β → Prop)

/-- One atomic action of a disciplined writer. -/
inductive Step (s s' : AList fun _ : κ => β) : Prop
  | scratch (k : κ) (hidden : ¬ visible k) (frame : ∀ j ≠ k, s'.lookup j = s.lookup j)
  | publish (k : κ) (b : β) (fresh : s.lookup k = none) (done : complete k b)
      (stored : s'.lookup k = some b) (frame : ∀ j, visible j → j ≠ k → s'.lookup j = s.lookup j)

/-- What readers of visible keys can rely on between two states. -/
structure Extends (s s' : AList fun _ : κ => β) : Prop where
  kept : ∀ k b, visible k → s.lookup k = some b → s'.lookup k = some b
  complete : ∀ k b, visible k → s.lookup k = none → s'.lookup k = some b → complete k b

variable {visible complete}

theorem Extends.trans {s t u : AList fun _ : κ => β} (hst : Extends visible complete s t)
    (htu : Extends visible complete t u) : Extends visible complete s u := by
  constructor
  · intro k b hk h
    exact htu.kept k b hk (hst.kept k b hk h)
  · intro k b hk hnone hsome
    cases hmid : t.lookup k with
    | none => exact htu.complete k b hk hmid hsome
    | some c =>
      have hc : u.lookup k = some c := htu.kept k c hk hmid
      have hbc : c = b := Option.some.inj (hc.symm.trans hsome)
      exact hst.complete k b hk hnone (hbc ▸ hmid)

theorem Step.mono {complete' : κ → β → Prop} {s s' : AList fun _ : κ => β}
    (h : Step visible complete s s') (hmono : ∀ k b, complete k b → complete' k b) :
    Step visible complete' s s' := by
  cases h with
  | scratch k hidden frame => exact .scratch k hidden frame
  | publish k b fresh done stored frame => exact .publish k b fresh (hmono k b done) stored frame

theorem Step.extends {s s' : AList fun _ : κ => β} (h : Step visible complete s s') :
    Extends visible complete s s' := by
  cases h with
  | scratch k hidden frame =>
    have hne : ∀ j, visible j → s'.lookup j = s.lookup j := fun j hj =>
      frame j fun heq => hidden (heq ▸ hj)
    exact ⟨fun j b hj h => (hne j hj).trans h,
      fun j b hj hnone hsome => by rw [hne j hj, hnone] at hsome; cases hsome⟩
  | publish k b fresh done stored frame =>
    constructor
    · intro j c hj h
      have hne : j ≠ k := fun heq => by rw [heq, fresh] at h; cases h
      exact (frame j hj hne).trans h
    · intro j c hj hnone hsome
      by_cases hjk : j = k
      · rw [hjk, stored] at hsome
        rw [hjk, ← Option.some.inj hsome]
        exact done
      · rw [frame j hj hjk, hnone] at hsome
        cases hsome

instance : Trans (Extends visible complete) (Extends visible complete)
    (Extends visible complete) := ⟨Extends.trans⟩

/-- The chain rule: every state along a chain of steps extends the ones before it. -/
theorem pairwise_extends {ss : List (AList fun _ : κ => β)}
    (h : ss.IsChain (Step visible complete)) : ss.Pairwise (Extends visible complete) :=
  (h.imp fun _ _ => Step.extends).pairwise

/-- States that differ under one hidden key only can follow each other in any order. -/
theorem isChain_of_agree {k : κ} (hidden : ¬ visible k) {s : AList fun _ : κ => β}
    {us : List (AList fun _ : κ => β)} (h : ∀ u ∈ us, ∀ j ≠ k, u.lookup j = s.lookup j) :
    us.IsChain (Step visible complete) := by
  apply List.Pairwise.isChain
  apply List.pairwise_of_forall_mem_list
  intro u hu v hv
  exact .scratch k hidden fun j hj => (h v hv j hj).trans (h u hu j hj).symm

theorem isChain_publish {k out : κ} (hidden : ¬ visible k) {s v : AList fun _ : κ => β} {b : β}
    {us : List (AList fun _ : κ => β)} (h : ∀ u ∈ us, ∀ j ≠ k, u.lookup j = s.lookup j)
    (hout : out ≠ k) (fresh : s.lookup out = none) (done : complete out b)
    (stored : v.lookup out = some b)
    (frame : ∀ j, visible j → j ≠ out → v.lookup j = s.lookup j) :
    (us ++ [v]).IsChain (Step visible complete) := by
  rw [List.isChain_append]
  refine ⟨isChain_of_agree hidden h, List.isChain_singleton v, fun u hu v' hv' => ?_⟩
  have hu' := h u (List.mem_of_getLast? hu)
  rw [List.head?_cons, Option.mem_some_iff] at hv'
  subst hv'
  refine .publish out b ((hu' out hout).trans fresh) done stored fun j hj hjo => ?_
  exact (frame j hj hjo).trans (hu' j fun heq => hidden (heq ▸ hj)).symm

theorem isChain_cons_append {σ : Type*} {R : σ → σ → Prop} {s : σ} {xs ys : List σ}
    (hx : (s :: xs).IsChain R) (hy : (xs.getLast?.getD s :: ys).IsChain R) :
    (s :: (xs ++ ys)).IsChain R := by
  rw [← List.cons_append, List.isChain_append]
  obtain ⟨hhead, hys⟩ := List.isChain_cons.mp hy
  refine ⟨hx, hys, fun x hx' y hy' => ?_⟩
  have hlast : x = xs.getLast?.getD s := by
    rw [List.getLast?_cons, Option.mem_some_iff] at hx'
    exact hx'.symm
  exact hlast ▸ hhead y hy'

end WriteOnce
