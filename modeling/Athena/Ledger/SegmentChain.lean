import Athena.Ledger.Months

/-!
# Chains of segment hashes

Each month's segment hash is the predecessor of the next one, starting without
any. The last hash of such a chain determines how many months it has, which ids
each of them contained and under which policy SHA it was computed.
-/

namespace Athena

/-- One call of `compute_segment_hash`, with the ledger it reads. -/
structure SegmentStep where
  table : LedgerTable
  year : Int
  month : Int
  policySha : String
  now : String

def SegmentStep.ids (s : SegmentStep) : Except PyErr (List Int) := s.table.monthIds s.year s.month

/-- The contents of a segment, with the hash computed from them. -/
structure Segment where
  prev : Option String
  ids : List Int
  policySha : String
  hash : String

section Definitions

variable (sha256 : Bytes → Bytes)

/-- The calls one after the other, each with the segment hash of the one before. -/
def segmentChain : Option String → List SegmentStep → Except PyErr (List SegmentHashResult)
  | _, [] => .ok []
  | prev, s :: steps => do
    let result ← computeSegmentHash sha256 s.table s.year s.month prev s.policySha s.now
    let results ← segmentChain (some result.segmentHash) steps
    return result :: results

def Segment.Sealed (g : Segment) : Prop :=
  g.hash = hexdigest (sha256 (segmentBody sha256 g.prev g.ids g.policySha))

def Segment.bytes (g : Segment) : List Bytes :=
  [idsText g.ids, segmentBody sha256 g.prev g.ids g.policySha]

/-- The segments of a chain of calls, as far as the calls return. -/
def chainSegments : Option String → List SegmentStep → List Segment
  | _, [] => []
  | prev, s :: steps =>
    match s.ids with
    | .error _ => []
    | .ok ids =>
      let hash := hexdigest (sha256 (segmentBody sha256 prev ids s.policySha))
      ⟨prev, ids, s.policySha, hash⟩ :: chainSegments (some hash) steps

def chainBytes (steps : List SegmentStep) : Set Bytes :=
  {b | ∃ g ∈ chainSegments sha256 none steps, b ∈ g.bytes sha256}

end Definitions

variable {sha256 : Bytes → Bytes}

theorem chainSegments_chained (prev : Option String) (steps : List SegmentStep) :
    HashChain.Chained Segment.prev Segment.hash (Segment.Sealed sha256) prev
      (chainSegments sha256 prev steps) := by
  induction steps generalizing prev with
  | nil => trivial
  | cons s steps ih =>
    unfold chainSegments
    cases s.ids with
    | error e => trivial
    | ok ids => exact ⟨rfl, rfl, ih _⟩

theorem chainSegments_of_ok {prev : Option String} {steps : List SegmentStep}
    {results : List SegmentHashResult} (h : segmentChain sha256 prev steps = .ok results) :
    (chainSegments sha256 prev steps).map Segment.hash = results.map SegmentHashResult.segmentHash ∧
      (chainSegments sha256 prev steps).map (fun g => (Except.ok g.ids, g.policySha)) =
        steps.map fun s => (s.ids, s.policySha) := by
  induction steps generalizing prev results with
  | nil =>
    cases h
    exact ⟨rfl, rfl⟩
  | cons s steps ih =>
    unfold segmentChain computeSegmentHash at h
    unfold chainSegments
    cases hids : s.table.monthIds s.year s.month with
    | error e =>
      rw [hids] at h
      cases h
    | ok ids =>
      have hs : s.ids = .ok ids := hids
      simp only [hids, bind, Except.bind, pure, Except.pure] at h
      rw [hs]
      dsimp only
      cases hrest : segmentChain sha256
          (some (hexdigest (sha256 (segmentBody sha256 prev ids s.policySha)))) steps with
      | error e =>
        rw [hrest] at h
        cases h
      | ok rest =>
        rw [hrest] at h
        cases h
        obtain ⟨hhash, hcontent⟩ := ih hrest
        exact ⟨congrArg₂ List.cons rfl hhash, congrArg₂ List.cons (congrArg₂ Prod.mk hs.symm rfl)
          hcontent⟩

theorem chainSegments_prev {steps : List SegmentStep} {g : Segment}
    (hg : g ∈ chainSegments sha256 none steps) :
    g.prev = none ∨ ∃ b, g.prev = some (hexdigest (sha256 b)) := by
  rcases (chainSegments_chained none steps).prev_of_mem hg with h | ⟨f, -, hf, h⟩
  · exact Or.inl h
  · exact Or.inr ⟨_, h.trans (congrArg some hf)⟩

/-- The outer framing is unambiguous, the empty first field included. -/
theorem segmentBody_eq_iff {prev prev' : Option String} {ids ids' : List Int}
    {policySha policySha' : String} (hprev : NulFree (prev.getD "")) (hsha : NulFree policySha) :
    segmentBody sha256 prev ids policySha = segmentBody sha256 prev' ids' policySha' ↔
      prev.getD "" = prev'.getD "" ∧
        sortedIdsHash sha256 ids = sortedIdsHash sha256 ids' ∧ policySha = policySha' := by
  have hfree : Framing.SeparatorFree 0 [encodeUtf8 (prev.getD ""),
      encodeUtf8 (sortedIdsHash sha256 ids), encodeUtf8 policySha] := by
    intro part hpart
    simp only [List.mem_cons, List.not_mem_nil, or_false] at hpart
    rcases hpart with rfl | rfl | rfl <;> rw [zero_mem_encodeUtf8, not_not]
    · exact hprev
    · rw [sortedIdsHash_eq]
      exact hexdigest_nulFree _
    · exact hsha
  have hlen : [encodeUtf8 (prev.getD ""), encodeUtf8 (sortedIdsHash sha256 ids),
      encodeUtf8 policySha].length = [encodeUtf8 (prev'.getD ""),
        encodeUtf8 (sortedIdsHash sha256 ids'), encodeUtf8 policySha'].length := rfl
  refine (Framing.join_eq_join_iff hfree hlen).trans ?_
  simp

theorem segment_eq_of_hash_eq {a b : List SegmentStep} (hdigest : ∀ b, sha256 b ≠ [])
    (hcf : CollisionFree sha256 (chainBytes sha256 a ∪ chainBytes sha256 b)) {g g' : Segment}
    (hg : g ∈ chainSegments sha256 none a) (hg' : g' ∈ chainSegments sha256 none b)
    (hsha : NulFree g.policySha) (h : g.hash = g'.hash) :
    g.prev = g'.prev ∧ g.ids = g'.ids ∧ g.policySha = g'.policySha := by
  have hseal : g.Sealed sha256 := (chainSegments_chained none a).valid_of_mem hg
  have hseal' : g'.Sealed sha256 := (chainSegments_chained none b).valid_of_mem hg'
  have hbody : segmentBody sha256 g.prev g.ids g.policySha =
      segmentBody sha256 g'.prev g'.ids g'.policySha := by
    refine hcf (Or.inl ⟨g, hg, by simp [Segment.bytes]⟩) (Or.inr ⟨g', hg', by simp [Segment.bytes]⟩)
      (hexdigest_injective ?_)
    rw [← hseal, ← hseal', h]
  have hprev : NulFree (g.prev.getD "") := by
    rcases chainSegments_prev hg with hnone | ⟨b, hsome⟩
    · rw [hnone]
      decide
    · rw [hsome]
      exact hexdigest_nulFree _
  obtain ⟨hp, hinner, hs⟩ := (segmentBody_eq_iff hprev hsha).mp hbody
  refine ⟨?_, ?_, hs⟩
  · have hne : ∀ b, hexdigest (sha256 b) ≠ "" := fun b hb =>
      hdigest b (hexdigest_eq_empty_iff.mp hb)
    rcases chainSegments_prev hg with hq | ⟨x, hq⟩ <;>
      rcases chainSegments_prev hg' with hq' | ⟨y, hq'⟩ <;> rw [hq, hq'] at hp ⊢
    · exact absurd hp.symm (hne y)
    · exact absurd hp (hne x)
    · exact congrArg some hp
  · rw [sortedIdsHash_eq, sortedIdsHash_eq] at hinner
    exact idsText_injective (hcf (Or.inl ⟨g, hg, by simp [Segment.bytes]⟩)
      (Or.inr ⟨g', hg', by simp [Segment.bytes]⟩) (hexdigest_injective hinner))

/-- The chain of segment hashes determines its history. Two sequences of calls that start
without a predecessor and hand every hash on, whatever ledgers they read, end in the same
hash only if they have the same length and, call by call, the same ids and policy SHA. -/
theorem segment_chain_determines_history {a b : List SegmentStep}
    {results results' : List SegmentHashResult} (hdigest : ∀ b, sha256 b ≠ [])
    (hcf : CollisionFree sha256 (chainBytes sha256 a ∪ chainBytes sha256 b))
    (hnul : ∀ s ∈ a ++ b, NulFree s.policySha) (ha : segmentChain sha256 none a = .ok results)
    (hb : segmentChain sha256 none b = .ok results')
    (hlast : results.getLast?.map SegmentHashResult.segmentHash =
      results'.getLast?.map SegmentHashResult.segmentHash) :
    a.length = b.length ∧
      a.map (fun s => (s.ids, s.policySha)) = b.map fun s => (s.ids, s.policySha) := by
  obtain ⟨hhash, hcontent⟩ := chainSegments_of_ok ha
  obtain ⟨hhash', hcontent'⟩ := chainSegments_of_ok hb
  have hsha : ∀ g ∈ chainSegments sha256 none a, NulFree g.policySha := by
    intro g hg
    have hmem := List.mem_map_of_mem (f := fun g => (Except.ok (ε := PyErr) g.ids, g.policySha)) hg
    rw [hcontent] at hmem
    obtain ⟨s, hs, heq⟩ := List.mem_map.mp hmem
    have hpolicy : s.policySha = g.policySha := (Prod.ext_iff.mp heq).2
    exact hpolicy ▸ hnul s (List.mem_append_left _ hs)
  have htip : HashChain.tip Segment.hash none (chainSegments sha256 none a) =
      HashChain.tip Segment.hash none (chainSegments sha256 none b) := by
    rw [HashChain.tip_eq_getLast?, HashChain.tip_eq_getLast?, ← List.getLast?_map,
      ← List.getLast?_map, hhash, hhash', List.getLast?_map, List.getLast?_map, hlast]
  have hsegments : (chainSegments sha256 none a).map (fun g => (g.prev, g.ids, g.policySha)) =
      (chainSegments sha256 none b).map fun g => (g.prev, g.ids, g.policySha) := by
    refine HashChain.contents_eq_of_tip_eq (fun e f h => (Prod.ext_iff.mp h).1) ?_
      (chainSegments_chained none a) (chainSegments_chained none b) htip
    intro g hg g' hg' h
    obtain ⟨hprev, hids, hpolicy⟩ := segment_eq_of_hash_eq hdigest hcf hg hg' (hsha g hg) h
    rw [hprev, hids, hpolicy]
  have hsteps : a.map (fun s => (s.ids, s.policySha)) = b.map fun s => (s.ids, s.policySha) := by
    have h := congrArg (List.map fun c : Option String × List Int × String =>
      ((Except.ok c.2.1 : Except PyErr (List Int)), c.2.2)) hsegments
    rw [List.map_map, List.map_map] at h
    exact hcontent.symm.trans (h.trans hcontent')
  exact ⟨by simpa using congrArg List.length hsteps, hsteps⟩

/-- The segments of December and January. -/
def newYearSteps (now : String) : List SegmentStep :=
  [⟨newYearTable, 2026, 12, "abcdef1", now⟩, ⟨newYearTable, 2027, 1, "abcdef1", now⟩]

/-- Computing a chain again later gives one with the same history. -/
theorem segment_chain_determines_history_again :
    (newYearSteps "").map (fun s => (s.ids, s.policySha)) =
      (newYearSteps "later").map fun s => (s.ids, s.policySha) := by
  obtain ⟨ids, hids⟩ : ∃ ids, newYearTable.monthIds 2026 12 = .ok ids :=
    monthIds_isOk newYearTable (by decide) (by decide)
  obtain ⟨ids', hids'⟩ : ∃ ids, newYearTable.monthIds 2027 1 = .ok ids :=
    monthIds_isOk newYearTable (by decide) (by decide)
  let first := hexdigest (tagDigest (segmentBody tagDigest none ids "abcdef1"))
  have hchain : ∀ now, segmentChain tagDigest none (newYearSteps now) =
      .ok [⟨zeroPad 4 2026 ++ "-" ++ zeroPad 2 12, first, none, ids.length, ids.head?,
          ids.getLast?, now⟩,
        ⟨zeroPad 4 2027 ++ "-" ++ zeroPad 2 1,
          hexdigest (tagDigest (segmentBody tagDigest (some first) ids' "abcdef1")), some first,
          ids'.length, ids'.head?, ids'.getLast?, now⟩] := by
    intro now
    simp only [newYearSteps, segmentChain, computeSegmentHash, hids, hids', bind, Except.bind,
      pure, Except.pure, first]
  exact (segment_chain_determines_history (fun _ => List.cons_ne_nil _ _) tagDigest_injective.injOn
    (by decide) (hchain "") (hchain "later") rfl).2

end Athena
