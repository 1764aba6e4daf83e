import Athena.Ledger.Integrity
import Athena.Library.Calendar

/-!
# Monthly segment hashes

`computeSegmentHash` selects the ids created in a month and hashes their text
together with the previous segment hash and the policy SHA. The last section
settles what the hashes of all months say about a ledger.
-/

namespace Athena

def microsPerDay : Int := 86400000000

/-- `make_timestamp(year, month, 1, 0, 0, 0.0) AT TIME ZONE 'UTC'`, which raises for a month or a
timestamp that does not exist. -/
def makeTimestamp (year month : Int) : Except PyErr Int :=
  let micros := (Calendar.monthStart year month.toNat - 719162) * microsPerDay
  if (1 ≤ month ∧ month ≤ 12) ∧ -2 ^ 63 < micros ∧ micros < 2 ^ 63 then .ok micros
  else .error .duckdbError

/-- The ids the query selects, `ORDER BY id`. -/
def LedgerTable.idsBetween (t : LedgerTable) (lo hi : Int) : List Int :=
  (t.byId.filter fun r => lo ≤ r.createdAtUtc ∧ r.createdAtUtc < hi).map Row.id

/-- The ids created in a month. The two bounds come first here: DuckDB evaluates `make_timestamp`
for the rows only, so that on an empty table a month that it rejects has no ids instead of an
error. Every table that `LedgerClient` has opened has a row. -/
def LedgerTable.monthIds (t : LedgerTable) (year month : Int) : Except PyErr (List Int) := do
  let nextYear := year + (if month = 12 then 1 else 0)
  let nextMonth := if month = 12 then 1 else month + 1
  let lo ← makeTimestamp year month
  let hi ← makeTimestamp nextYear nextMonth
  return t.idsBetween lo hi

/-- `"\n".join(str(i) for i in ids).encode("ascii")`. -/
def idsText (ids : List Int) : Bytes := Framing.join 10 (ids.map fun i => encodeUtf8 (strInt i))

structure SegmentHashResult where
  month : String
  segmentHash : String
  prevSegmentHash : Option String
  entryCount : ℕ
  firstId : Option Int
  lastId : Option Int
  computedAtUtc : String
  deriving DecidableEq, Repr

section Definitions

variable (sha256 : Bytes → Bytes)

def sortedIdsHash (ids : List Int) : String :=
  if ids ≠ [] then hexdigest (sha256 (idsText ids)) else hexdigest (sha256 [])

def segmentBody (prevSegmentHash : Option String) (ids : List Int) (policyVersionGitSha : String) :
    Bytes :=
  Framing.join 0 [encodeUtf8 (prevSegmentHash.getD ""), encodeUtf8 (sortedIdsHash sha256 ids),
    encodeUtf8 policyVersionGitSha]

/-- `compute_segment_hash`, at the given clock reading. -/
def computeSegmentHash (t : LedgerTable) (year month : Int) (prevSegmentHash : Option String)
    (policyVersionGitSha now : String) : Except PyErr SegmentHashResult := do
  let ids ← t.monthIds year month
  return {
    month := zeroPad 4 year ++ "-" ++ zeroPad 2 month
    segmentHash := hexdigest (sha256 (segmentBody sha256 prevSegmentHash ids policyVersionGitSha))
    prevSegmentHash := prevSegmentHash
    entryCount := ids.length
    firstId := ids.head?
    lastId := ids.getLast?
    computedAtUtc := now }

end Definitions

variable {sha256 : Bytes → Bytes}

/-- The empty month is no special case: its id text is empty. -/
theorem sortedIdsHash_eq (ids : List Int) :
    sortedIdsHash sha256 ids = hexdigest (sha256 (idsText ids)) := by
  unfold sortedIdsHash
  split_ifs with h
  · rfl
  · rw [not_not.mp h]
    rfl

theorem strInt_separatorFree (ids : List Int) :
    Framing.SeparatorFree 10 (ids.map fun i => encodeUtf8 (strInt i)) := by
  intro part hpart
  obtain ⟨i, -, rfl⟩ := List.mem_map.mp hpart
  exact CanonicalJson.not_mem_encodeUtf8 (CanonicalJson.strInt_printable i) (by decide)

theorem idsText_eq_nil_iff {ids : List Int} : idsText ids = [] ↔ ids = [] := by
  constructor
  · intro h
    match ids with
    | [] => rfl
    | [i] =>
      rw [idsText, List.map_singleton, Framing.join_singleton, encodeUtf8_eq_nil] at h
      exact absurd h (strInt_ne_empty i)
    | i :: j :: rest => simp [idsText] at h
  · rintro rfl
    rfl

theorem idsText_injective : Function.Injective idsText := by
  intro xs ys h
  by_cases hxs : xs = []
  · rw [hxs] at h ⊢
    exact (idsText_eq_nil_iff.mp h.symm).symm
  have hys : ys ≠ [] := fun hys => hxs (idsText_eq_nil_iff.mp (h.trans (hys ▸ rfl)))
  have hmap : (xs.map fun i => encodeUtf8 (strInt i)) = ys.map fun i => encodeUtf8 (strInt i) :=
    Framing.join_injective (strInt_separatorFree xs) (strInt_separatorFree ys) (by simpa using hxs)
      (by simpa using hys) h
  exact List.map_injective_iff.mpr (encodeUtf8_injective.comp strInt_injective) hmap

theorem segmentBody_inj {prev : Option String} {policySha : String} {xs ys : List Int}
    (h : segmentBody sha256 prev xs policySha = segmentBody sha256 prev ys policySha) :
    sortedIdsHash sha256 xs = sortedIdsHash sha256 ys := by
  simp only [segmentBody, Framing.join_cons_cons, Framing.join_singleton] at h
  have h' := List.append_cancel_left h
  rw [List.cons.injEq] at h'
  exact encodeUtf8_inj.mp (List.append_cancel_right h'.2)

/-- The byte strings that the segment hashes of all months hand to SHA-256. -/
def segmentHashedBytes (sha256 : Bytes → Bytes) (t : LedgerTable)
    (prev : Int → Int → Option String) (policySha : Int → Int → String) : Set Bytes :=
  {b | ∃ year month ids, t.monthIds year month = .ok ids ∧
    (b = idsText ids ∨ b = segmentBody sha256 (prev year month) ids (policySha year month))}

theorem LedgerTable.monthIds_congr {t t' : LedgerTable}
    (h : (t.byId.map fun r => (r.id, r.createdAtUtc)) = t'.byId.map fun r => (r.id, r.createdAtUtc))
    (year month : Int) : t.monthIds year month = t'.monthIds year month := by
  have hbetween : ∀ (u : LedgerTable) (lo hi : Int), u.idsBetween lo hi =
      ((u.byId.map fun r => (r.id, r.createdAtUtc)).filter
        fun p => lo ≤ p.2 ∧ p.2 < hi).map Prod.fst := by
    intro u lo hi
    rw [List.filter_map, List.map_map]
    rfl
  simp only [LedgerTable.monthIds, hbetween, h]

theorem computeSegmentHash_eq_iff {t t' : LedgerTable} {prev : Int → Int → Option String}
    {policySha : Int → Int → String} {now : String}
    (hcf : CollisionFree sha256 (segmentHashedBytes sha256 t prev policySha ∪
      segmentHashedBytes sha256 t' prev policySha)) (year month : Int) :
    (computeSegmentHash sha256 t year month (prev year month) (policySha year month) now).map
        SegmentHashResult.segmentHash =
      (computeSegmentHash sha256 t' year month (prev year month) (policySha year month) now).map
        SegmentHashResult.segmentHash ↔
    t.monthIds year month = t'.monthIds year month := by
  unfold computeSegmentHash
  constructor
  · cases hx : t.monthIds year month with
    | error e =>
      cases hy : t'.monthIds year month with
      | error e' => exact fun h => congrArg Except.error (Except.error.inj h)
      | ok ys => exact nofun
    | ok xs =>
      cases hy : t'.monthIds year month with
      | error e' => exact nofun
      | ok ys =>
        intro h
        have hbody : segmentBody sha256 (prev year month) xs (policySha year month) =
            segmentBody sha256 (prev year month) ys (policySha year month) :=
          hcf (Or.inl ⟨year, month, xs, hx, Or.inr rfl⟩) (Or.inr ⟨year, month, ys, hy, Or.inr rfl⟩)
            (hexdigest_injective (Except.ok.inj h))
        have hinner := segmentBody_inj hbody
        rw [sortedIdsHash_eq, sortedIdsHash_eq] at hinner
        have htext : idsText xs = idsText ys :=
          hcf (Or.inl ⟨year, month, xs, hx, Or.inl rfl⟩) (Or.inr ⟨year, month, ys, hy, Or.inl rfl⟩)
            (hexdigest_injective hinner)
        rw [idsText_injective htext]
  · intro h
    rw [h]

/-- The segment hashes of all months, with the same predecessors and policy SHAs, say
which ids were created in which month. They say nothing else: two ledgers that agree
on this have the same hashes, whatever their rows contain. -/
theorem segment_hashes_eq_iff (t t' : LedgerTable) (prev : Int → Int → Option String)
    (policySha : Int → Int → String) (now : String)
    (hcf : CollisionFree sha256 (segmentHashedBytes sha256 t prev policySha ∪
      segmentHashedBytes sha256 t' prev policySha)) :
    (∀ year month,
      (computeSegmentHash sha256 t year month (prev year month) (policySha year month) now).map
          SegmentHashResult.segmentHash =
        (computeSegmentHash sha256 t' year month (prev year month) (policySha year month) now).map
          SegmentHashResult.segmentHash) ↔
      ∀ year month, t.monthIds year month = t'.monthIds year month :=
  forall_congr' fun year => forall_congr' fun month => computeSegmentHash_eq_iff hcf year month

/-- An injective stand-in for SHA-256. -/
def tagDigest (b : Bytes) : Bytes := 1 :: b

theorem tagDigest_injective : Function.Injective tagDigest := fun _ _ h => (List.cons.inj h).2

theorem segment_hashes_eq_iff_seeded :
    (∀ year month,
      (computeSegmentHash tagDigest (seededWorld tagDigest sampleClient 0).table year month none
        "abcdef1" "").map SegmentHashResult.segmentHash =
      (computeSegmentHash tagDigest LedgerTable.empty year month none "abcdef1" "").map
        SegmentHashResult.segmentHash) ↔
      ∀ year month, (seededWorld tagDigest sampleClient 0).table.monthIds year month =
        LedgerTable.empty.monthIds year month :=
  segment_hashes_eq_iff _ _ (fun _ _ => none) (fun _ _ => "abcdef1") "" tagDigest_injective.injOn

/-- Two ledgers whose genesis rows name different users verify, have the same segment
hashes for every month, and differ in `user_id`. -/
theorem segment_hashes_miss_rewrite :
    ¬ ∀ (sha256 : Bytes → Bytes) (t t' : LedgerTable) (prev : Int → Int → Option String)
        (policySha : Int → Int → String) (now : String),
        CollisionFree sha256 (hashedBytes t ∪ hashedBytes t' ∪
          (segmentHashedBytes sha256 t prev policySha ∪
            segmentHashedBytes sha256 t' prev policySha)) →
        verifyChain sha256 t = .ok [] → verifyChain sha256 t' = .ok [] →
        (∀ year month,
          (computeSegmentHash sha256 t year month (prev year month) (policySha year month) now).map
              SegmentHashResult.segmentHash =
            (computeSegmentHash sha256 t' year month (prev year month) (policySha year month)
              now).map SegmentHashResult.segmentHash) →
        ∀ r ∈ t.rows, ∃ r' ∈ t'.rows, r'.id = r.id ∧ r'.payloadJson = r.payloadJson ∧
          r'.eventType = r.eventType ∧ r'.userId = r.userId ∧ r'.thisHash = r.thisHash := by
  intro hclaim
  let other : LedgerClient := { sampleClient with userId := 2 }
  have hother : other.Valid := by decide
  obtain ⟨text, htext⟩ := LedgerClient.genesisPayload_isOk sampleClient.policyVersionSha
  obtain ⟨r, hid, hat, hr, -, hrows, -⟩ :=
    seededWorld_rows tagDigest sampleClient_valid htext 0
  obtain ⟨r', hid', hat', hr', -, hrows', -⟩ := seededWorld_rows tagDigest hother htext 0
  have hrun := seededWorld_run tagDigest sampleClient 0
  have hrun' := seededWorld_run tagDigest other 0
  have hkeys : ((seededWorld tagDigest sampleClient 0).table.byId.map
      fun r => (r.id, r.createdAtUtc)) =
        (seededWorld tagDigest other 0).table.byId.map fun r => (r.id, r.createdAtUtc) := by
    rw [hrun.byId_eq, hrun'.byId_eq, hrows, hrows']
    simp [hid, hid', hat, hat']
  have hmonths := LedgerTable.monthIds_congr hkeys
  obtain ⟨x, hx, -, -, -, huser, -⟩ := hclaim tagDigest _ _ (fun _ _ => none) (fun _ _ => "abcdef1")
    "" tagDigest_injective.injOn hrun.verifyChain_eq_nil hrun'.verifyChain_eq_nil
    (fun year month => by simp only [computeSegmentHash, hmonths year month]) r (by simp [hrows])
  rw [hrows', List.mem_singleton] at hx
  have h1 : r.userId = 1 := congrArg EntryFields.userId hr
  have h2 : r'.userId = 2 := congrArg EntryFields.userId hr'
  rw [hx, h1, h2] at huser
  exact absurd huser (by decide)

end Athena
