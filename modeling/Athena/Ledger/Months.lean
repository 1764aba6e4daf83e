import Athena.Ledger.SegmentHash
import Athena.Library.Tiling

/-!
# The months of a ledger

The bounds of a month's query are its first instant and the first instant after
it, in UTC. Consecutive months therefore tile the creation times, and their id
lists partition the ids created in the whole stretch.
-/

namespace Athena

def dayInstant (day : Int) : Int := (day - 719162) * microsPerDay

theorem dayInstant_strictMono : StrictMono dayInstant := by
  intro a b hab
  unfold dayInstant microsPerDay
  omega

def firstInstant (m : Calendar.Month) : Int := dayInstant m.start

def endInstant (m : Calendar.Month) : Int := dayInstant m.stop

/-- DuckDB has a timestamp for the instant. -/
def Representable (instant : Int) : Prop := -2 ^ 63 < instant ∧ instant < 2 ^ 63

instance (instant : Int) : Decidable (Representable instant) :=
  inferInstanceAs (Decidable (_ ∧ _))

theorem endInstant_eq (m : Calendar.Month) : endInstant m = firstInstant m.next :=
  congrArg dayInstant m.stop_eq_start_next

theorem firstInstant_lt_endInstant (m : Calendar.Month) : firstInstant m < endInstant m :=
  dayInstant_strictMono m.start_lt_stop

theorem firstInstant_le_of_index_le {m m' : Calendar.Month} (h : m.index ≤ m'.index) :
    firstInstant m ≤ firstInstant m' := by
  rw [firstInstant, firstInstant, m.start_eq, m'.start_eq]
  exact dayInstant_strictMono.monotone (Calendar.indexStart_strictMono.monotone h)

theorem firstInstant_later_monotone (first : Calendar.Month) :
    Monotone fun i => firstInstant (first.later i) := by
  intro i j hij
  refine firstInstant_le_of_index_le ?_
  rw [first.index_later, first.index_later]
  omega

theorem makeTimestamp_month (m : Calendar.Month) :
    makeTimestamp m.year m.month =
      if Representable (firstInstant m) then .ok (firstInstant m) else .error .duckdbError := by
  have hbounds : 1 ≤ (m.month : Int) ∧ (m.month : Int) ≤ 12 := by
    have := m.bounds
    omega
  unfold makeTimestamp Representable
  simp only [hbounds, and_self, true_and, Int.toNat_natCast]
  rfl

theorem representable_firstInstant {m : Calendar.Month} (hlo : 12 ≤ m.index)
    (hhi : m.index ≤ 12 * 10000) : Representable (firstInstant m) := by
  have hstart : Calendar.indexStart 12 ≤ m.start ∧ m.start ≤ Calendar.indexStart (12 * 10000) := by
    rw [m.start_eq]
    exact ⟨Calendar.indexStart_strictMono.monotone hlo,
      Calendar.indexStart_strictMono.monotone hhi⟩
  have hfirst : Calendar.indexStart 12 = 0 := by decide
  have hlast : Calendar.indexStart (12 * 10000) = 3652059 := by decide
  rw [hfirst, hlast] at hstart
  unfold Representable firstInstant dayInstant microsPerDay
  omega

theorem LedgerTable.monthIds_month (t : LedgerTable) (m : Calendar.Month) :
    t.monthIds m.year m.month =
      if Representable (firstInstant m) ∧ Representable (endInstant m) then
        .ok (t.idsBetween (firstInstant m) (endInstant m))
      else .error .duckdbError := by
  have hnext : m.year + (if (m.month : Int) = 12 then 1 else 0) = m.next.year ∧
      (if (m.month : Int) = 12 then 1 else (m.month : Int) + 1) = m.next.month := by
    have hcast : (m.month : Int) = 12 ↔ m.month = 12 := by omega
    unfold Calendar.Month.next
    split_ifs <;> simp_all
  rw [LedgerTable.monthIds, hnext.1, hnext.2, makeTimestamp_month, makeTimestamp_month,
    endInstant_eq]
  by_cases hlo : Representable (firstInstant m) <;>
    by_cases hhi : Representable (firstInstant m.next) <;>
      simp [hlo, hhi, bind, Except.bind, pure, Except.pure]

theorem LedgerTable.idsBetween_eq (t : LedgerTable) (lo hi : Int) :
    t.idsBetween lo hi = (Tiling.slice Row.createdAtUtc lo hi t.byId).map Row.id := rfl

theorem LedgerTable.idsBetween_strict (t : LedgerTable) (lo hi : Int) :
    (t.idsBetween lo hi).Pairwise (· < ·) :=
  List.pairwise_map.mpr (t.byId_strict.filter _)

theorem LedgerTable.mem_idsBetween {t : LedgerTable} {lo hi id : Int} :
    id ∈ t.idsBetween lo hi ↔ ∃ r ∈ Tiling.slice Row.createdAtUtc lo hi t.byId, r.id = id := by
  rw [t.idsBetween_eq, List.mem_map]

theorem LedgerTable.length_idsBetween (t : LedgerTable) (lo hi : Int) :
    (t.idsBetween lo hi).length =
      t.rows.countP fun r => lo ≤ r.createdAtUtc ∧ r.createdAtUtc < hi := by
  rw [t.idsBetween_eq, List.length_map, Tiling.slice, ← List.countP_eq_length_filter]
  exact t.byId_perm.countP_eq _

theorem LedgerTable.eq_of_id_eq {t : LedgerTable} {r r' : Row} (hr : r ∈ t.byId)
    (hr' : r' ∈ t.byId) (h : r.id = r'.id) : r = r' :=
  List.inj_on_of_nodup_map t.primaryKey (t.mem_byId.mp hr) (t.mem_byId.mp hr') h

/-- The ids of consecutive months that were queried. -/
structure MonthQueries (t : LedgerTable) (first : Calendar.Month) (n : ℕ) where
  ids : ℕ → List Int
  selected : ∀ i < n, t.monthIds (first.later i).year (first.later i).month = .ok (ids i)

namespace MonthQueries

variable {t : LedgerTable} {first : Calendar.Month} {n : ℕ}

theorem ids_eq (q : MonthQueries t first n) {i : ℕ} (hi : i < n) :
    q.ids i = t.idsBetween (firstInstant (first.later i)) (firstInstant (first.later (i + 1))) := by
  have h := q.selected i hi
  rw [LedgerTable.monthIds_month, endInstant_eq] at h
  split_ifs at h
  exact (Except.ok.inj h).symm

theorem ascending (q : MonthQueries t first n) {i : ℕ} (hi : i < n) :
    (q.ids i).Pairwise (· < ·) := by
  rw [q.ids_eq hi]
  exact t.idsBetween_strict _ _

theorem disjoint (q : MonthQueries t first n) {i j : ℕ} (hi : i < n) (hj : j < n) (hij : i ≠ j) :
    (q.ids i).Disjoint (q.ids j) := by
  rw [List.disjoint_left, q.ids_eq hi, q.ids_eq hj]
  intro id hid hid'
  obtain ⟨r, hr, rfl⟩ := LedgerTable.mem_idsBetween.mp hid
  obtain ⟨r', hr', heq⟩ := LedgerTable.mem_idsBetween.mp hid'
  obtain ⟨hmem, hin⟩ := Tiling.mem_slice.mp hr
  obtain ⟨hmem', hin'⟩ := Tiling.mem_slice.mp hr'
  rw [LedgerTable.eq_of_id_eq hmem' hmem heq] at hin'
  exact hij (Tiling.tile_unique (firstInstant_later_monotone first) hin hin')

theorem mem_iff (q : MonthQueries t first n) (id : Int) :
    (∃ i < n, id ∈ q.ids i) ↔ ∃ r ∈ t.rows, r.id = id ∧
      firstInstant first ≤ r.createdAtUtc ∧ r.createdAtUtc < firstInstant (first.later n) := by
  have htiles : ∀ r, (∃ i < n, r ∈ Tiling.slice Row.createdAtUtc (firstInstant (first.later i))
      (firstInstant (first.later (i + 1))) t.byId) ↔
        r ∈ Tiling.slice Row.createdAtUtc (firstInstant first) (firstInstant (first.later n))
          t.byId :=
    fun r => Tiling.exists_mem_tile_iff (firstInstant_later_monotone first)
  constructor
  · rintro ⟨i, hi, hid⟩
    rw [q.ids_eq hi] at hid
    obtain ⟨r, hr, rfl⟩ := LedgerTable.mem_idsBetween.mp hid
    obtain ⟨hmem, hin⟩ := Tiling.mem_slice.mp ((htiles r).mp ⟨i, hi, hr⟩)
    exact ⟨r, t.mem_byId.mp hmem, rfl, hin⟩
  · rintro ⟨r, hr, rfl, hin⟩
    obtain ⟨i, hi, hmem⟩ := (htiles r).mpr (Tiling.mem_slice.mpr ⟨t.mem_byId.mpr hr, hin⟩)
    refine ⟨i, hi, ?_⟩
    rw [q.ids_eq hi]
    exact LedgerTable.mem_idsBetween.mpr ⟨r, hmem, rfl⟩

theorem sum_length (q : MonthQueries t first n) :
    ∑ i ∈ Finset.range n, (q.ids i).length = t.rows.countP fun r =>
      firstInstant first ≤ r.createdAtUtc ∧ r.createdAtUtc < firstInstant (first.later n) := by
  rw [← t.length_idsBetween, t.idsBetween_eq, List.length_map]
  refine Eq.trans ?_ (Tiling.sum_length_tiles (firstInstant_later_monotone first) t.byId n)
  refine Finset.sum_congr rfl fun i hi => ?_
  rw [q.ids_eq (Finset.mem_range.mp hi), t.idsBetween_eq, List.length_map]

end MonthQueries

theorem monthIds_isOk (t : LedgerTable) {year month : Int} (hy : 1 ≤ year ∧ year ≤ 9998)
    (hm : 1 ≤ month ∧ month ≤ 12) : ∃ ids, t.monthIds year month = .ok ids := by
  obtain ⟨k, rfl⟩ : ∃ k : ℕ, month = k := ⟨month.toNat, by omega⟩
  let m : Calendar.Month := ⟨year, k, by omega⟩
  have hlo : 12 ≤ m.index ∧ m.index + 1 ≤ 12 * 10000 := by
    simp only [Calendar.Month.index, m]
    omega
  refine ⟨t.idsBetween (firstInstant m) (endInstant m), ?_⟩
  rw [t.monthIds_month m, endInstant_eq, if_pos]
  exact ⟨representable_firstInstant hlo.1 (by omega),
    representable_firstInstant (by rw [m.index_next]; omega) (by rw [m.index_next]; omega)⟩

theorem computeSegmentHash_isOk (sha256 : Bytes → Bytes) (t : LedgerTable) {year month : Int}
    (hy : 1 ≤ year ∧ year ≤ 9998) (hm : 1 ≤ month ∧ month ≤ 12) (prev : Option String)
    (policySha now : String) :
    ∃ segment, computeSegmentHash sha256 t year month prev policySha now = .ok segment := by
  obtain ⟨ids, hids⟩ := monthIds_isOk t hy hm
  exact ⟨_, by rw [computeSegmentHash, hids]; rfl⟩

theorem computeSegmentHash_entryCount {sha256 : Bytes → Bytes} {t : LedgerTable} {year month : Int}
    {prev : Option String} {policySha now : String} {segment : SegmentHashResult} {ids : List Int}
    (h : computeSegmentHash sha256 t year month prev policySha now = .ok segment)
    (hids : t.monthIds year month = .ok ids) : segment.entryCount = ids.length := by
  unfold computeSegmentHash at h
  rw [hids] at h
  cases h
  rfl

/-- Months partition the ledger. The queries of consecutive months succeed in the years 1
to 9998, and wherever they succeed their id lists are strictly ascending, pairwise disjoint
and together exactly the ids created between the outer instants, so that the entry counts
add up. -/
theorem months_partition (sha256 : Bytes → Bytes) (t : LedgerTable) (first : Calendar.Month) (n : ℕ)
    (prev : ℕ → Option String) (policySha now : ℕ → String) :
    (∀ i, 1 ≤ (first.later i).year → (first.later i).year ≤ 9998 →
      ∃ segment, computeSegmentHash sha256 t (first.later i).year (first.later i).month (prev i)
        (policySha i) (now i) = .ok segment) ∧
    ∀ segments : ℕ → SegmentHashResult,
      (∀ i < n, computeSegmentHash sha256 t (first.later i).year (first.later i).month (prev i)
        (policySha i) (now i) = .ok (segments i)) →
      ∃ ids : ℕ → List Int,
        (∀ i < n, t.monthIds (first.later i).year (first.later i).month = .ok (ids i) ∧
          (segments i).entryCount = (ids i).length ∧ (ids i).Pairwise (· < ·)) ∧
        (∀ i < n, ∀ j < n, i ≠ j → (ids i).Disjoint (ids j)) ∧
        (∀ id, (∃ i < n, id ∈ ids i) ↔ ∃ r ∈ t.rows, r.id = id ∧
          firstInstant first ≤ r.createdAtUtc ∧ r.createdAtUtc < firstInstant (first.later n)) ∧
        ∑ i ∈ Finset.range n, (segments i).entryCount = t.rows.countP fun r =>
          firstInstant first ≤ r.createdAtUtc ∧ r.createdAtUtc < firstInstant (first.later n) := by
  constructor
  · intro i hlo hhi
    have hmonth := (first.later i).bounds
    exact computeSegmentHash_isOk sha256 t ⟨hlo, hhi⟩ (by omega) (prev i) (policySha i) (now i)
  · intro segments hsegments
    have hids : ∀ i < n, ∃ ids,
        t.monthIds (first.later i).year (first.later i).month = .ok ids := by
      intro i hi
      cases hq : t.monthIds (first.later i).year (first.later i).month with
      | ok ids => exact ⟨ids, rfl⟩
      | error e =>
        have h := hsegments i hi
        rw [computeSegmentHash, hq] at h
        cases h
    choose! ids hids using hids
    let q : MonthQueries t first n := ⟨ids, hids⟩
    have hcount : ∀ i < n, (segments i).entryCount = (ids i).length :=
      fun i hi => computeSegmentHash_entryCount (hsegments i hi) (hids i hi)
    refine ⟨ids, fun i hi => ⟨hids i hi, hcount i hi, q.ascending hi⟩,
      fun i hi j hj => q.disjoint hi hj, q.mem_iff, ?_⟩
    rw [← q.sum_length]
    exact Finset.sum_congr rfl fun i hi => hcount i (Finset.mem_range.mp hi)

/-- Two rows at the turn from 2026 to 2027, the first at midnight UTC and the second before. -/
def newYearTable : LedgerTable where
  rows := [⟨1, 0, "", "", 1, "", "", none, "", "", 1798761600000000⟩,
    ⟨2, 0, "", "", 1, "", "", some "", "", "", 1798761599999999⟩]
  primaryKey := by decide
  admitted := by decide

theorem months_partition_new_year :
    ∃ segments : ℕ → SegmentHashResult,
      (∀ i < 2, computeSegmentHash tagDigest newYearTable
        ((⟨2026, 12, by decide⟩ : Calendar.Month).later i).year
        ((⟨2026, 12, by decide⟩ : Calendar.Month).later i).month none "abcdef1" "" =
          .ok (segments i)) ∧
      ∑ i ∈ Finset.range 2, (segments i).entryCount = 2 := by
  have h := months_partition tagDigest newYearTable ⟨2026, 12, by decide⟩ 2 (fun _ => none)
    (fun _ => "abcdef1") fun _ => ""
  obtain ⟨december, hdecember⟩ := h.1 0 (by decide) (by decide)
  obtain ⟨january, hjanuary⟩ := h.1 1 (by decide) (by decide)
  have hsegments : ∀ i < 2, computeSegmentHash tagDigest newYearTable
      ((⟨2026, 12, by decide⟩ : Calendar.Month).later i).year
      ((⟨2026, 12, by decide⟩ : Calendar.Month).later i).month none "abcdef1" "" =
        .ok (if i = 0 then december else january) := by
    intro i hi
    interval_cases i
    · exact hdecember
    · exact hjanuary
  obtain ⟨ids, -, -, -, hcount⟩ := h.2 _ hsegments
  exact ⟨_, hsegments, hcount.trans (by decide)⟩

end Athena
