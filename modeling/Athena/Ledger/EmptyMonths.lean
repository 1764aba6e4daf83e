import Athena.Ledger.Months

/-!
# Segment hashes of different months

The month is not part of what is hashed. Two months of one ledger, with the same
predecessor and policy SHA, are told apart by their ids, and the ids of empty
months are the same.
-/

namespace Athena

/-- The row was created in the month. -/
def Row.CreatedIn (r : Row) (m : Calendar.Month) : Prop :=
  firstInstant m ≤ r.createdAtUtc ∧ r.createdAtUtc < endInstant m

instance (r : Row) (m : Calendar.Month) : Decidable (r.CreatedIn m) :=
  inferInstanceAs (Decidable (_ ∧ _))

theorem LedgerTable.mem_monthIds {t : LedgerTable} {m : Calendar.Month} {ids : List Int}
    (h : t.monthIds m.year m.month = .ok ids) (id : Int) :
    id ∈ ids ↔ ∃ r ∈ t.rows, r.CreatedIn m ∧ r.id = id := by
  rw [t.monthIds_month] at h
  split_ifs at h
  rw [← Except.ok.inj h, LedgerTable.mem_idsBetween]
  simp only [Tiling.mem_slice, t.mem_byId, Row.CreatedIn, and_assoc]

theorem Row.CreatedIn.unique {r : Row} {m m' : Calendar.Month} (h : r.CreatedIn m)
    (h' : r.CreatedIn m') : m = m' := by
  have hle : ∀ {a b : Calendar.Month}, r.CreatedIn a → r.CreatedIn b → a.index ≤ b.index := by
    intro a b ha hb
    by_contra hlt
    have hend : endInstant b ≤ firstInstant a := by
      rw [endInstant_eq]
      apply firstInstant_le_of_index_le
      rw [b.index_next]
      omega
    exact absurd (hb.2.trans_le hend) (not_lt.mpr ha.1)
  exact Calendar.Month.index_injective (le_antisymm (hle h h') (hle h' h))

/-- The id lists of different months share no id, so they are equal only if both are empty. -/
theorem LedgerTable.monthIds_eq_iff {t : LedgerTable} {m m' : Calendar.Month} (hne : m ≠ m')
    {ids ids' : List Int} (h : t.monthIds m.year m.month = .ok ids)
    (h' : t.monthIds m'.year m'.month = .ok ids') :
    ids = ids' ↔ ∀ r ∈ t.rows, ¬ r.CreatedIn m ∧ ¬ r.CreatedIn m' := by
  constructor
  · rintro rfl r hr
    have hboth : r.CreatedIn m ∨ r.CreatedIn m' → False := by
      intro hin
      have hmem : r.id ∈ ids := by
        rcases hin with hin | hin
        · exact (mem_monthIds h r.id).mpr ⟨r, hr, hin, rfl⟩
        · exact (mem_monthIds h' r.id).mpr ⟨r, hr, hin, rfl⟩
      obtain ⟨r₁, hr₁, hin₁, hid₁⟩ := (mem_monthIds h r.id).mp hmem
      obtain ⟨r₂, hr₂, hin₂, hid₂⟩ := (mem_monthIds h' r.id).mp hmem
      have hsame : r₁ = r₂ :=
        LedgerTable.eq_of_id_eq (t.mem_byId.mpr hr₁) (t.mem_byId.mpr hr₂) (hid₁.trans hid₂.symm)
      exact hne (hin₁.unique (hsame ▸ hin₂))
    exact ⟨fun hin => hboth (Or.inl hin), fun hin => hboth (Or.inr hin)⟩
  · intro hnone
    have hempty : ids = [] := by
      apply List.eq_nil_iff_forall_not_mem.mpr
      intro id hid
      obtain ⟨r, hr, hin, -⟩ := (mem_monthIds h id).mp hid
      exact (hnone r hr).1 hin
    have hempty' : ids' = [] := by
      apply List.eq_nil_iff_forall_not_mem.mpr
      intro id hid
      obtain ⟨r, hr, hin, -⟩ := (mem_monthIds h' id).mp hid
      exact (hnone r hr).2 hin
    rw [hempty, hempty']

/-- The byte strings that the segment hash of one month hands to SHA-256. -/
def monthHashedBytes (sha256 : Bytes → Bytes) (t : LedgerTable) (m : Calendar.Month)
    (prev : Option String) (policySha : String) : Set Bytes :=
  {b | ∃ ids, t.monthIds m.year m.month = .ok ids ∧
    (b = idsText ids ∨ b = segmentBody sha256 prev ids policySha)}

section Hashes

variable {sha256 : Bytes → Bytes} {t : LedgerTable} {m m' : Calendar.Month}
  {prev : Option String} {policySha now now' : String} {s s' : SegmentHashResult}

theorem computeSegmentHash_ok
    (h : computeSegmentHash sha256 t m.year m.month prev policySha now = .ok s) :
    ∃ ids, t.monthIds m.year m.month = .ok ids ∧
      s.segmentHash = hexdigest (sha256 (segmentBody sha256 prev ids policySha)) := by
  unfold computeSegmentHash at h
  cases hids : t.monthIds m.year m.month with
  | error e =>
    rw [hids] at h
    cases h
  | ok ids =>
    rw [hids] at h
    obtain rfl := Except.ok.inj h
    exact ⟨ids, rfl, rfl⟩

/-- Two different months have different segment hashes exactly if there is an entry in one of
them. -/
theorem segmentHash_ne_iff (hne : m ≠ m')
    (h : computeSegmentHash sha256 t m.year m.month prev policySha now = .ok s)
    (h' : computeSegmentHash sha256 t m'.year m'.month prev policySha now' = .ok s')
    (hcf : CollisionFree sha256 (monthHashedBytes sha256 t m prev policySha ∪
      monthHashedBytes sha256 t m' prev policySha)) :
    s.segmentHash ≠ s'.segmentHash ↔ ∃ r ∈ t.rows, r.CreatedIn m ∨ r.CreatedIn m' := by
  obtain ⟨ids, hids, hs⟩ := computeSegmentHash_ok h
  obtain ⟨ids', hids', hs'⟩ := computeSegmentHash_ok h'
  have hequal : s.segmentHash = s'.segmentHash ↔ ids = ids' := by
    rw [hs, hs']
    constructor
    · intro heq
      have hbody := hcf (Or.inl ⟨ids, hids, Or.inr rfl⟩) (Or.inr ⟨ids', hids', Or.inr rfl⟩)
        (hexdigest_injective heq)
      have hinner := segmentBody_inj hbody
      rw [sortedIdsHash_eq, sortedIdsHash_eq] at hinner
      exact idsText_injective (hcf (Or.inl ⟨ids, hids, Or.inl rfl⟩)
        (Or.inr ⟨ids', hids', Or.inl rfl⟩) (hexdigest_injective hinner))
    · intro heq
      rw [heq]
  rw [Ne, hequal, LedgerTable.monthIds_eq_iff hne hids hids']
  push Not
  constructor
  · rintro ⟨r, hr, hin⟩
    exact ⟨r, hr, or_iff_not_imp_left.mpr hin⟩
  · rintro ⟨r, hr, hin⟩
    exact ⟨r, hr, or_iff_not_imp_left.mp hin⟩

end Hashes

/-- The two sides of the turn of the year. -/
theorem segmentHash_ne_new_year :
    ∃ s s', computeSegmentHash tagDigest newYearTable 2026 12 none "abcdef1" "" = .ok s ∧
      computeSegmentHash tagDigest newYearTable 2027 1 none "abcdef1" "" = .ok s' ∧
      s.segmentHash ≠ s'.segmentHash := by
  obtain ⟨s, hs⟩ : ∃ s, computeSegmentHash tagDigest newYearTable 2026 12 none "abcdef1" "" = .ok s
    := computeSegmentHash_isOk tagDigest newYearTable (by decide) (by decide) none "abcdef1" ""
  obtain ⟨s', hs'⟩ : ∃ s', computeSegmentHash tagDigest newYearTable 2027 1 none "abcdef1" "" =
    .ok s' := computeSegmentHash_isOk tagDigest newYearTable (by decide) (by decide) none
      "abcdef1" ""
  have hrow : ∃ r ∈ newYearTable.rows, r.CreatedIn ⟨2026, 12, by decide⟩ ∨
      r.CreatedIn ⟨2027, 1, by decide⟩ := by decide
  have hdecember : (⟨2026, 12, by decide⟩ : Calendar.Month) ≠ ⟨2027, 1, by decide⟩ := by decide
  exact ⟨s, s', hs, hs',
    (segmentHash_ne_iff hdecember hs hs' tagDigest_injective.injOn).mpr hrow⟩

/-- A chain that goes on with March 2027, without February, has the hash of one that recorded
February as empty. -/
theorem segment_hashes_miss_month :
    ¬ ∀ (sha256 : Bytes → Bytes) (t : LedgerTable) (m m' : Calendar.Month) (prev : Option String)
        (policySha now : String) (s s' : SegmentHashResult), m ≠ m' →
        CollisionFree sha256 (monthHashedBytes sha256 t m prev policySha ∪
          monthHashedBytes sha256 t m' prev policySha) →
        computeSegmentHash sha256 t m.year m.month prev policySha now = .ok s →
        computeSegmentHash sha256 t m'.year m'.month prev policySha now = .ok s' →
        s.segmentHash ≠ s'.segmentHash := by
  intro hclaim
  have hfebruary : newYearTable.monthIds 2027 2 = .ok [] := by decide
  have hmarch : newYearTable.monthIds 2027 3 = .ok [] := by decide
  obtain ⟨s, hs⟩ : ∃ s, computeSegmentHash tagDigest newYearTable 2027 2 none "abcdef1" "" = .ok s
    := computeSegmentHash_isOk tagDigest newYearTable (by decide) (by decide) none "abcdef1" ""
  obtain ⟨s', hs'⟩ : ∃ s', computeSegmentHash tagDigest newYearTable 2027 3 none "abcdef1" "" =
    .ok s' := computeSegmentHash_isOk tagDigest newYearTable (by decide) (by decide) none
      "abcdef1" ""
  apply hclaim tagDigest newYearTable ⟨2027, 2, by decide⟩ ⟨2027, 3, by decide⟩ none "abcdef1" ""
    s s' (by decide) tagDigest_injective.injOn hs hs'
  unfold computeSegmentHash at hs hs'
  rw [hfebruary] at hs
  rw [hmarch] at hs'
  rw [← Except.ok.inj hs, ← Except.ok.inj hs']

end Athena
