import Athena.Library.WriteOnce

/-!
# Copies of a write-once store

A copier makes passes over an origin that goes on being written: it lists the
origin, fetches what is listed, puts it in place at once, passes over what is
there already, and removes what is not listed. It may stop anywhere. If the
origin is a write-once store, the copy holds visible contents of the origin
only, never loses one, and after a finished pass holds what was listed.
-/

namespace Replica

open WriteOnce

variable {κ β : Type*} [DecidableEq κ]

/-- The two stores and the pass that is going on, if any: the origin as it was listed, the keys
that are settled, and what has been fetched but not put in place. -/
structure State (κ β : Type*) where
  origin : AList fun _ : κ => β
  copy : AList fun _ : κ => β
  listing : Option (AList fun _ : κ => β)
  settled : List κ
  inFlight : Option (κ × β)

def State.start : State κ β := ⟨∅, ∅, none, [], none⟩

/-- What the copier does. `scratch` is any change under a hidden key of the copy. -/
inductive Action (κ β : Type*)
  | list
  | fetch (k : κ)
  | place
  | pass (k : κ)
  | scratch (k : κ) (content : Option β)
  | remove (k : κ)
  | stop

/-- A pass that has settled every visible key of its listing. -/
def Finished (visible : κ → Prop) (s : State κ β) (listed : AList fun _ : κ => β) : Prop :=
  s.listing = some listed ∧ ∀ k, visible k → k ∈ listed → k ∈ s.settled

section Steps

variable (visible : κ → Prop) [DecidablePred visible]

/-- An action in the states that allow it. -/
def step (s : State κ β) : Action κ β → Option (State κ β)
  | .list =>
    if s.listing.isNone then
      some { s with listing := some s.origin, settled := [], inFlight := none }
    else none
  | .fetch k =>
    match s.listing with
    | none => none
    | some listed =>
      if k ∈ listed then
        (s.origin.lookup k).map fun b => { s with inFlight := some (k, b) }
      else none
  | .place =>
    match s.inFlight with
    | none => none
    | some (k, b) =>
      some { s with copy := s.copy.insert k b, settled := k :: s.settled, inFlight := none }
  | .pass k =>
    if s.listing.isSome ∧ k ∈ s.copy then some { s with settled := k :: s.settled } else none
  | .scratch k content =>
    if visible k then none
    else some { s with copy := content.elim (s.copy.erase k) (s.copy.insert k) }
  | .remove k =>
    match s.listing with
    | none => none
    | some listed => if k ∈ listed then none else some { s with copy := s.copy.erase k }
  | .stop => some { s with listing := none, settled := [], inFlight := none }

/-- The states of a run, the latest first, while the origin goes through a history. -/
inductive Run : List (AList fun _ : κ => β) → List (State κ β) → Prop
  | start : Run [] [State.start]
  | write {history s states} (t : AList fun _ : κ => β) :
      Run history (s :: states) → Run (history ++ [t]) ({ s with origin := t } :: s :: states)
  | copier {history s s' states} (a : Action κ β) :
      Run history (s :: states) → step visible s a = some s' → Run history (s' :: s :: states)

end Steps

section Invariant

variable (visible : κ → Prop)

/-- What holds between the two stores at every moment. -/
structure Faithful (s : State κ β) : Prop where
  copied : ∀ k b, visible k → s.copy.lookup k = some b → s.origin.lookup k = some b
  fetched : ∀ k b, visible k → s.inFlight = some (k, b) → s.origin.lookup k = some b
  listed : ∀ l k b, visible k → s.listing = some l → l.lookup k = some b →
    s.origin.lookup k = some b
  known : ∀ l k, visible k → s.listing = some l → k ∈ s.copy → k ∈ l
  wanted : ∀ l k b, s.listing = some l → s.inFlight = some (k, b) → k ∈ l
  arrived : ∀ k, visible k → k ∈ s.settled → k ∈ s.copy
  idle : s.listing = none → s.inFlight = none

/-- The visible contents of the first copy are those of the second. -/
def Kept (s s' : State κ β) : Prop :=
  ∀ k b, visible k → s.copy.lookup k = some b → s'.copy.lookup k = some b

variable {visible}

theorem Kept.refl (s : State κ β) : Kept visible s s := fun _ _ _ h => h

theorem Kept.trans {s t u : State κ β} (hst : Kept visible s t) (htu : Kept visible t u) :
    Kept visible s u :=
  fun k b hk h => htu k b hk (hst k b hk h)

theorem Faithful.start : Faithful visible (State.start : State κ β) where
  copied k b _ h := by rw [State.start, AList.lookup_empty] at h; cases h
  fetched := nofun
  listed := nofun
  known := nofun
  wanted := nofun
  arrived := nofun
  idle _ := rfl

theorem Faithful.write {complete : κ → β → Prop} {s : State κ β} (h : Faithful visible s)
    {t : AList fun _ : κ => β} (ht : Extends visible complete s.origin t) :
    Faithful visible { s with origin := t } where
  copied k b hk hb := ht.kept k b hk (h.copied k b hk hb)
  fetched k b hk hb := ht.kept k b hk (h.fetched k b hk hb)
  listed l k b hk hl hb := ht.kept k b hk (h.listed l k b hk hl hb)
  known := h.known
  wanted := h.wanted
  arrived := h.arrived
  idle := h.idle

/-- A copy that is changed under hidden keys only, or under keys it does not have. -/
theorem Faithful.of_agree {s : State κ β} (h : Faithful visible s) {u : AList fun _ : κ => β}
    (hu : ∀ k, visible k → u.lookup k = s.copy.lookup k) :
    Faithful visible { s with copy := u } where
  copied k b hk hb := h.copied k b hk ((hu k hk).symm.trans hb)
  fetched := h.fetched
  listed := h.listed
  known l k hk hl hmem := by
    rw [← AList.lookup_isSome, hu k hk, AList.lookup_isSome] at hmem
    exact h.known l k hk hl hmem
  wanted := h.wanted
  arrived k hk hmem := by
    rw [← AList.lookup_isSome, hu k hk, AList.lookup_isSome]
    exact h.arrived k hk hmem
  idle := h.idle

theorem mem_of_lookup {s : AList fun _ : κ => β} {k : κ} {b : β} (h : s.lookup k = some b) :
    k ∈ s :=
  AList.lookup_isSome.mp (by rw [h]; rfl)

theorem Faithful.place {s : State κ β} (h : Faithful visible s) {k : κ} {b : β}
    (hk : s.inFlight = some (k, b)) : Faithful visible
      { s with copy := s.copy.insert k b, settled := k :: s.settled, inFlight := none } where
  copied j c hj hc := by
    by_cases hjk : j = k
    · subst hjk
      rw [AList.lookup_insert] at hc
      cases hc
      exact h.fetched j b hj hk
    · rw [AList.lookup_insert_ne hjk] at hc
      exact h.copied j c hj hc
  fetched := nofun
  listed := h.listed
  known l j hj hl hmem := by
    rcases (AList.mem_insert s.copy).mp hmem with rfl | hmem
    · exact h.wanted l j b hl hk
    · exact h.known l j hj hl hmem
  wanted := nofun
  arrived j hj hmem := by
    rcases List.mem_cons.mp hmem with rfl | hmem
    · exact (AList.mem_insert s.copy).mpr (.inl rfl)
    · exact (AList.mem_insert s.copy).mpr (.inr (h.arrived j hj hmem))
  idle _ := rfl

/-- A place in the copy is only ever taken by what it holds already. -/
theorem Faithful.kept_place {s : State κ β} (h : Faithful visible s) {k : κ} {b : β}
    (hk : s.inFlight = some (k, b)) : Kept visible s
      { s with copy := s.copy.insert k b, settled := k :: s.settled, inFlight := none } := by
  intro j c hj hc
  by_cases hjk : j = k
  · subst hjk
    have hsame : some b = some c := (h.fetched j b hj hk).symm.trans (h.copied j c hj hc)
    rw [← hsame]
    exact AList.lookup_insert s.copy
  · exact (AList.lookup_insert_ne hjk).trans hc

theorem Faithful.remove_agrees {s : State κ β} (h : Faithful visible s)
    {l : AList fun _ : κ => β} (hl : s.listing = some l) {k : κ} (hk : k ∉ l) :
    ∀ j, visible j → (s.copy.erase k).lookup j = s.copy.lookup j := by
  intro j hj
  by_cases hjk : j = k
  · subst hjk
    have habsent : j ∉ s.copy := fun hmem => hk (h.known l j hj hl hmem)
    rw [AList.lookup_erase, AList.lookup_eq_none.mpr habsent]
  · exact AList.lookup_erase_ne hjk

theorem scratch_agrees {s : State κ β} {k : κ} (hk : ¬ visible k) (content : Option β) :
    ∀ j, visible j →
      (content.elim (s.copy.erase k) (s.copy.insert k)).lookup j = s.copy.lookup j := by
  intro j hj
  have hjk : j ≠ k := fun heq => hk (heq ▸ hj)
  cases content with
  | none => exact AList.lookup_erase_ne hjk
  | some b => exact AList.lookup_insert_ne hjk

theorem Faithful.finished {s : State κ β} (h : Faithful visible s)
    {listed : AList fun _ : κ => β} (hdone : Finished visible s listed) {k : κ} {b : β}
    (hk : visible k) (hb : listed.lookup k = some b) : s.copy.lookup k = some b := by
  have hmem : k ∈ s.copy := h.arrived k hk (hdone.2 k hk (mem_of_lookup hb))
  obtain ⟨c, hc⟩ := Option.isSome_iff_exists.mp (AList.lookup_isSome.mpr hmem)
  have hsame : some c = some b :=
    (h.copied k c hk hc).symm.trans (h.listed listed k b hk hdone.1 hb)
  rw [hc, hsame]

variable [DecidablePred visible]

/-- Every action of the copier keeps the two stores faithful and loses nothing visible. -/
theorem Faithful.step {s s' : State κ β} (h : Faithful visible s) {a : Action κ β}
    (hstep : step visible s a = some s') : Faithful visible s' ∧ Kept visible s s' := by
  cases a with
  | list =>
    simp only [Replica.step] at hstep
    split_ifs at hstep with hnone
    cases hstep
    exact ⟨⟨h.copied, nofun, fun l k b _ hl hb => Option.some.inj hl ▸ hb,
      fun l k hk hl hmem => by
        obtain ⟨b, hb⟩ := Option.isSome_iff_exists.mp (AList.lookup_isSome.mpr hmem)
        exact Option.some.inj hl ▸ mem_of_lookup (h.copied k b hk hb),
      nofun, nofun, fun _ => rfl⟩, Kept.refl s⟩
  | fetch k =>
    simp only [Replica.step] at hstep
    cases hl : s.listing with
    | none => rw [hl] at hstep; cases hstep
    | some l =>
      rw [hl] at hstep
      dsimp only at hstep
      split_ifs at hstep with hmem
      obtain ⟨b, hb, rfl⟩ := Option.map_eq_some_iff.mp hstep
      refine ⟨⟨h.copied, fun j c _ hj => ?_, fun l' => hl ▸ h.listed l',
        fun l' => hl ▸ h.known l', fun l' j c hl' hj => ?_, h.arrived, fun hnone => ?_⟩,
        Kept.refl s⟩
      · cases hj
        exact hb
      · cases hj
        cases hl'
        exact hmem
      · cases hnone
  | place =>
    simp only [Replica.step] at hstep
    cases hk : s.inFlight with
    | none => rw [hk] at hstep; cases hstep
    | some kb =>
      rw [hk] at hstep
      cases hstep
      exact ⟨h.place hk, h.kept_place hk⟩
  | pass k =>
    simp only [Replica.step] at hstep
    split_ifs at hstep with hk
    cases hstep
    refine ⟨⟨h.copied, h.fetched, h.listed, h.known, h.wanted, fun j hj hmem => ?_, h.idle⟩,
      Kept.refl s⟩
    rcases List.mem_cons.mp hmem with rfl | hmem
    · exact hk.2
    · exact h.arrived j hj hmem
  | scratch k content =>
    simp only [Replica.step] at hstep
    split_ifs at hstep with hk
    cases hstep
    have hagree := scratch_agrees (s := s) hk content
    exact ⟨h.of_agree hagree, fun j b hj hb => (hagree j hj).trans hb⟩
  | remove k =>
    simp only [Replica.step] at hstep
    cases hl : s.listing with
    | none => rw [hl] at hstep; cases hstep
    | some l =>
      rw [hl] at hstep
      dsimp only at hstep
      split_ifs at hstep with hk
      cases hstep
      have hagree := h.remove_agrees hl hk
      have hfaithful := h.of_agree hagree
      exact ⟨hl ▸ hfaithful, fun j b hj hb => (hagree j hj).trans hb⟩
  | stop =>
    cases hstep
    exact ⟨⟨h.copied, nofun, nofun, nofun, nofun, nofun, fun _ => rfl⟩, Kept.refl s⟩

section Runs

variable {complete : κ → β → Prop} {history : List (AList fun _ : κ => β)}
  {states : List (State κ β)}

theorem step_origin {s s' : State κ β} {a : Action κ β} (h : step visible s a = some s') :
    s'.origin = s.origin := by
  cases a <;> simp only [step] at h
  case list => split_ifs at h; cases h; rfl
  case fetch k =>
    split at h
    · cases h
    · split_ifs at h
      obtain ⟨b, -, rfl⟩ := Option.map_eq_some_iff.mp h
      rfl
  case place => split at h <;> cases h; rfl
  case pass k => split_ifs at h; cases h; rfl
  case scratch k content => split_ifs at h; cases h; rfl
  case remove k =>
    split at h
    · cases h
    · split_ifs at h; cases h; rfl
  case stop => cases h; rfl

theorem Run.origin (h : Run visible history states) :
    ∀ s ∈ states.head?, s.origin = history.getLast?.getD ∅ := by
  induction h with
  | start =>
    intro s hs
    cases hs
    rfl
  | write t _ _ =>
    intro s hs
    cases hs
    rw [List.getLast?_concat, Option.getD_some]
  | copier a _ hstep ih =>
    intro s hs
    cases hs
    exact (step_origin hstep).trans (ih _ rfl)

theorem Run.mem_origin (h : Run visible history states) :
    ∀ s ∈ states, s.origin ∈ ∅ :: history := by
  induction h with
  | start =>
    intro s hs
    rw [List.mem_singleton.mp hs]
    exact List.mem_cons_self
  | @write history u states t _ ih =>
    intro s hs
    rw [← List.cons_append]
    rcases List.mem_cons.mp hs with rfl | hs
    · exact List.mem_append_right _ (List.mem_singleton.mpr rfl)
    · exact List.mem_append_left _ (ih s hs)
  | @copier history u u' states a _ hstep ih =>
    intro s hs
    rcases List.mem_cons.mp hs with rfl | hs
    · rw [step_origin hstep]
      exact ih u List.mem_cons_self
    · exact ih s hs

/-- At every moment of a run the stores are faithful, and no visible content of the copy is
ever lost or changed. -/
theorem Run.faithful (h : Run visible history states)
    (hchain : (∅ :: history).IsChain (Step visible complete)) :
    (∀ s ∈ states, Faithful visible s) ∧
      states.Pairwise fun later s => Kept visible s later := by
  induction h with
  | start => exact ⟨List.forall_mem_singleton.mpr Faithful.start, List.pairwise_singleton _ _⟩
  | @write history s states t hrun ih =>
    rw [← List.cons_append, List.isChain_append] at hchain
    obtain ⟨hfront, -, hlast⟩ := hchain
    obtain ⟨hall, hkept⟩ := ih hfront
    have horigin : s.origin = history.getLast?.getD ∅ := hrun.origin s rfl
    have hstep : Step visible complete s.origin t := by
      rw [horigin]
      exact hlast _ (by rw [List.getLast?_cons]; rfl) t rfl
    have hs := List.forall_mem_cons.mp hall
    refine ⟨List.forall_mem_cons.mpr ⟨hs.1.write hstep.extends, hall⟩, ?_⟩
    exact List.pairwise_cons.mpr ⟨fun u hu => (List.mem_cons.mp hu).elim
      (fun heq => by subst heq; exact fun _ _ _ hb => hb)
      ((List.pairwise_cons.mp hkept).1 u), hkept⟩
  | @copier history s s' states a hrun hstep ih =>
    obtain ⟨hall, hkept⟩ := ih hchain
    obtain ⟨hs', hsame⟩ := (hall s (List.mem_cons_self ..)).step hstep
    refine ⟨List.forall_mem_cons.mpr ⟨hs', hall⟩, ?_⟩
    exact List.pairwise_cons.mpr ⟨fun u hu => (List.mem_cons.mp hu).elim
      (fun heq => heq ▸ hsame) fun hmem => ((List.pairwise_cons.mp hkept).1 u hmem).trans hsame,
      hkept⟩

end Runs

end Invariant

end Replica
