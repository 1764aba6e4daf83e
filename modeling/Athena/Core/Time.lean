import Athena.Core.Datetime
import Athena.Core.Text
import Athena.Library.TimeZone

/-!
# KST and UTC

`utc_to_kst` converts with the whole history of the zone, while `kst_to_utc`
takes its input only at the offset of today. The two are inverse to each other
wherever the clock of Seoul has been nine hours ahead.
-/

namespace Athena

inductive TimeErr
  | valueError (message : String)
  | overflowError
  deriving DecidableEq, Repr

namespace Datetime

def InRange (w : Int) : Prop := -62135596800000000 ≤ w ∧ w < wallLimit

instance (w : Int) : Decidable (InRange w) := inferInstanceAs (Decidable (_ ∧ _))

/-- The datetime at an instant in a zone. -/
def inZone (z : TimeZone.Zone) (u : Int) (h : InRange (u + z.offsetAt u)) : Datetime :=
  { ofWall (u + z.offsetAt u) h (some z.utcoffset) with fold := z.foldAt u }

theorem wall_inZone {z : TimeZone.Zone} {u : Int} (h : InRange (u + z.offsetAt u)) :
    (inZone z u h).wall = u + z.offsetAt u :=
  wall_ofWall h none

/-- The zone finds its own offset again in the fields of the datetime. -/
theorem utcoffset_inZone {z : TimeZone.Zone} {u : Int} (h : InRange (u + z.offsetAt u)) :
    z.utcoffset (inZone z u h).wall (inZone z u h).fold = z.offsetAt u := by
  rw [wall_inZone]
  exact z.utcoffset_offsetAt u

theorem instant_inZone {z : TimeZone.Zone} {u : Int} (h : InRange (u + z.offsetAt u)) :
    (inZone z u h).instant = some u := by
  have hinstant : (inZone z u h).instant = some ((inZone z u h).wall -
      z.utcoffset (inZone z u h).wall (inZone z u h).fold) := rfl
  rw [hinstant, utcoffset_inZone, wall_inZone, add_sub_cancel_right]

/-- `dt.astimezone(z)` of a datetime with the given offset, where `z` is not its own zone:
the offset is subtracted, and `z.fromutc` adds its own. -/
def astimezone (z : TimeZone.Zone) (dt : Datetime) (offset : Int) : Except TimeErr Datetime :=
  let u := dt.wall - offset
  if InRange u then
    if h : InRange (u + z.offsetAt u) then .ok (inZone z u h) else .error .overflowError
  else .error .overflowError

theorem astimezone_eq_ok_iff {z : TimeZone.Zone} {dt d : Datetime} {offset : Int} :
    astimezone z dt offset = .ok d ↔
      InRange (dt.wall - offset) ∧
        ∃ h : InRange (dt.wall - offset + z.offsetAt (dt.wall - offset)),
          inZone z (dt.wall - offset) h = d := by
  unfold astimezone
  dsimp only
  split_ifs with hu h
  · simp [hu, h]
  · simp [h]
  · simp [hu]

end Datetime

/-- `repr(timedelta(microseconds=micros))`. -/
def timedeltaRepr (micros : Int) : String :=
  let parts := [("days", micros / 86400000000), ("seconds", micros % 86400000000 / 1000000),
    ("microseconds", micros % 1000000)].filter fun part => part.2 ≠ 0
  "datetime.timedelta(" ++
    (if parts = [] then "0"
      else String.intercalate ", " (parts.map fun part => part.1 ++ "=" ++ strInt part.2)) ++ ")"

/-- A transition, from seconds. -/
def seoulTransition (seconds offset : Int) : TimeZone.Transition :=
  ⟨seconds * 1000000, offset * 1000000⟩

/-- `_KST`: local mean time, the standard times of 1908, 1912, 1954 and 1961, and daylight
saving in 1948-1951, 1955-1960 and 1987-1988. -/
def seoul : TimeZone.Zone where
  before := 30472 * 1000000
  transitions :=
    [seoulTransition (-1948782472) 30600, seoulTransition (-1830414600) 32400,
      seoulTransition (-767350800) 32400, seoulTransition (-681210000) 36000,
      seoulTransition (-672228000) 32400, seoulTransition (-654771600) 36000,
      seoulTransition (-640864800) 32400, seoulTransition (-623408400) 36000,
      seoulTransition (-609415200) 32400, seoulTransition (-588848400) 36000,
      seoulTransition (-577965600) 32400, seoulTransition (-498128400) 30600,
      seoulTransition (-462702600) 34200, seoulTransition (-451733400) 30600,
      seoulTransition (-429784200) 34200, seoulTransition (-418296600) 30600,
      seoulTransition (-399544200) 34200, seoulTransition (-387451800) 30600,
      seoulTransition (-368094600) 34200, seoulTransition (-356002200) 30600,
      seoulTransition (-336645000) 34200, seoulTransition (-324552600) 30600,
      seoulTransition (-305195400) 34200, seoulTransition (-293103000) 30600,
      seoulTransition (-264933000) 32400, seoulTransition 547578000 36000,
      seoulTransition 560883600 32400, seoulTransition 579027600 36000,
      seoulTransition 592333200 32400]
  separated := by decide

def kstOffset : Int := 9 * microsPerHour

def kstToUtc (dt : Datetime) : Except TimeErr Datetime :=
  match dt.tzinfo with
  | none =>
    .error (.valueError "kst_to_utc requires timezone-aware datetime; naive input forbidden")
  | some tz =>
    let utcoffset := tz dt.wall dt.fold
    if utcoffset ≠ kstOffset then
      .error (.valueError ("kst_to_utc expects Asia/Seoul input (+09:00); got utcoffset=" ++
        timedeltaRepr utcoffset))
    else dt.astimezone (.fixed 0) utcoffset

def utcToKst (dt : Datetime) : Except TimeErr Datetime :=
  match dt.tzinfo with
  | none =>
    .error (.valueError "utc_to_kst requires timezone-aware datetime; naive input forbidden")
  | some tz =>
    let utcoffset := tz dt.wall dt.fold
    if utcoffset ≠ 0 then
      .error (.valueError ("utc_to_kst expects UTC input (offset 0); got utcoffset=" ++
        timedeltaRepr utcoffset))
    else dt.astimezone seoul utcoffset

section Seoul

theorem seoul_offset_bounds (u : Int) :
    30472000000 ≤ seoul.offsetAt u ∧ seoul.offsetAt u ≤ 10 * microsPerHour := by
  have hall : ∀ o ∈ seoul.before :: seoul.transitions.map TimeZone.Transition.offset,
      30472000000 ≤ o ∧ o ≤ 10 * microsPerHour := by decide
  exact hall _ (seoul.offsetAt_mem u)

theorem seoul_offset_of_le {u : Int} (h : 592333200000000 ≤ u) :
    seoul.offsetAt u = kstOffset := by
  have hlast : ∀ t ∈ seoul.transitions, t.instant ≤ 592333200000000 := by decide
  exact seoul.offsetAt_of_reached fun t ht => (hlast t ht).trans h

/-- A conversion from UTC that does not leave the calendar when nine hours are added
stays in it with the offset that the zone has. -/
theorem inRange_seoul {u : Int} (hu : Datetime.InRange u)
    (h : Datetime.InRange (u + kstOffset)) : Datetime.InRange (u + seoul.offsetAt u) := by
  obtain ⟨hlo, hhi⟩ := seoul_offset_bounds u
  by_cases hrecent : 592333200000000 ≤ u
  · rw [seoul_offset_of_le hrecent]
    exact h
  · have hlimit : (592333200000000 : Int) + 10 * microsPerHour ≤ Datetime.wallLimit := by decide
    unfold Datetime.InRange at *
    omega

end Seoul

section Conversions

theorem utcToKst_eq {dt : Datetime} {tz : Int → Bool → Int} (htz : dt.tzinfo = some tz)
    (hzero : tz dt.wall dt.fold = 0) (h : Datetime.InRange (dt.wall + seoul.offsetAt dt.wall)) :
    utcToKst dt = .ok (.inZone seoul dt.wall h) := by
  unfold utcToKst
  rw [htz]
  dsimp only
  rw [if_neg (not_not.mpr hzero), hzero, Datetime.astimezone_eq_ok_iff]
  simp only [sub_zero]
  exact ⟨dt.wall_bounds, h, trivial⟩

theorem instant_of_zero {dt : Datetime} {tz : Int → Bool → Int} (htz : dt.tzinfo = some tz)
    (hzero : tz dt.wall dt.fold = 0) : dt.instant = some dt.wall := by
  simp [Datetime.instant, htz, hzero]

theorem kstToUtc_eq_ok {dt d : Datetime} {tz : Int → Bool → Int} (htz : dt.tzinfo = some tz)
    (h : kstToUtc dt = .ok d) :
    tz dt.wall dt.fold = kstOffset ∧ d.tzinfo = some (fun _ _ => 0) ∧
      d.wall = dt.wall - kstOffset := by
  unfold kstToUtc at h
  rw [htz] at h
  dsimp only at h
  split_ifs at h with hoffset
  · have hoffset := not_not.mp hoffset
    rw [hoffset] at h
    obtain ⟨-, hrange, rfl⟩ := Datetime.astimezone_eq_ok_iff.mp h
    exact ⟨hoffset, rfl, (Datetime.wall_inZone hrange).trans (add_zero _)⟩

/-- The guard alone decides where the subtraction stays in the calendar. -/
theorem kstToUtc_accepts_iff {dt : Datetime} {tz : Int → Bool → Int} (htz : dt.tzinfo = some tz)
    (hrange : Datetime.InRange (dt.wall - kstOffset)) :
    (∃ d, kstToUtc dt = .ok d) ↔ tz dt.wall dt.fold = kstOffset := by
  constructor
  · intro h
    obtain ⟨d, hd⟩ := h
    exact (kstToUtc_eq_ok htz hd).1
  · intro h
    unfold kstToUtc
    rw [htz]
    dsimp only
    rw [if_neg (not_not.mpr h), h]
    have hzero : Datetime.InRange (dt.wall - kstOffset +
        (TimeZone.Zone.fixed 0).offsetAt (dt.wall - kstOffset)) :=
      (add_zero (dt.wall - kstOffset)).symm ▸ hrange
    exact ⟨_, Datetime.astimezone_eq_ok_iff.mpr ⟨hrange, hzero, rfl⟩⟩

theorem instant_kstToUtc {dt d : Datetime} {tz : Int → Bool → Int} (htz : dt.tzinfo = some tz)
    (h : kstToUtc dt = .ok d) : d.instant = dt.instant := by
  obtain ⟨hoffset, hd, hwall⟩ := kstToUtc_eq_ok htz h
  rw [instant_of_zero hd rfl, hwall]
  simp [Datetime.instant, htz, hoffset]

end Conversions

/-- From UTC to Seoul and back is the same instant wherever the way back is open, which is
where Seoul is nine hours ahead; from Seoul to UTC and back is the same instant always. -/
theorem kst_utc_round_trip :
    (∀ (t : Datetime) (tz : Int → Bool → Int), t.tzinfo = some tz → tz t.wall t.fold = 0 →
      Datetime.InRange (t.wall + seoul.offsetAt t.wall) →
      ∃ k, utcToKst t = .ok k ∧ k.tzinfo = some seoul.utcoffset ∧ k.instant = t.instant ∧
        ((∃ u, kstToUtc k = .ok u) ↔ seoul.offsetAt t.wall = kstOffset) ∧
        ∀ u, kstToUtc k = .ok u → u.instant = t.instant) ∧
    (∀ d : Datetime, d.tzinfo = some seoul.utcoffset → ∀ u, kstToUtc d = .ok u →
      ∃ k, utcToKst u = .ok k ∧ k.instant = d.instant) := by
  constructor
  · intro t tz htz hzero hrange
    have hinstant : (Datetime.inZone seoul t.wall hrange).instant = t.instant := by
      rw [Datetime.instant_inZone, instant_of_zero htz hzero]
    refine ⟨_, utcToKst_eq htz hzero hrange, rfl, hinstant, ?_, ?_⟩
    · rw [← Datetime.utcoffset_inZone hrange]
      by_cases hoffset : seoul.offsetAt t.wall = kstOffset
      · have hback : (Datetime.inZone seoul t.wall hrange).wall - kstOffset = t.wall := by
          rw [Datetime.wall_inZone, hoffset, add_sub_cancel_right]
        exact kstToUtc_accepts_iff rfl (hback.symm ▸ t.wall_bounds)
      · constructor
        · intro h
          obtain ⟨u, hu⟩ := h
          exact (kstToUtc_eq_ok rfl hu).1
        · intro h
          exact absurd ((Datetime.utcoffset_inZone hrange).symm.trans h) hoffset
    · intro u hu
      exact (instant_kstToUtc rfl hu).trans hinstant
  · intro d htz u hu
    obtain ⟨-, hutc, hwall⟩ := kstToUtc_eq_ok htz hu
    have hnine : Datetime.InRange (u.wall + kstOffset) := by
      rw [hwall, sub_add_cancel]
      exact d.wall_bounds
    refine ⟨_, utcToKst_eq hutc rfl (inRange_seoul u.wall_bounds hnine), ?_⟩
    rw [Datetime.instant_inZone, ← instant_of_zero hutc rfl]
    exact instant_kstToUtc htz hu

def midsummer : Datetime := .ofWall 583718400000000 (by decide) (some fun _ _ => 0)

/-- The eighth of May 1988, 02:30 in Seoul, which the clock has left out. -/
def skippedReading : Datetime := .ofWall 579061800000000 (by decide) (some seoul.utcoffset)

/-- Under daylight saving the way back is closed. -/
theorem midsummer_not_accepted :
    ∃ k, utcToKst midsummer = .ok k ∧ kstToUtc k = .error (.valueError
      ("kst_to_utc expects Asia/Seoul input (+09:00); got utcoffset=" ++
        "datetime.timedelta(seconds=36000)")) := by
  have hwall : midsummer.wall = 583718400000000 := Datetime.wall_ofWall _ _
  have hrange : Datetime.InRange (midsummer.wall + seoul.offsetAt midsummer.wall) := by
    rw [hwall]
    decide
  have hoffset : seoul.utcoffset (Datetime.inZone seoul midsummer.wall hrange).wall
      (Datetime.inZone seoul midsummer.wall hrange).fold = 36000000000 := by
    rw [Datetime.utcoffset_inZone, hwall]
    decide
  have htz : (Datetime.inZone seoul midsummer.wall hrange).tzinfo = some seoul.utcoffset := rfl
  refine ⟨_, utcToKst_eq rfl rfl hrange, ?_⟩
  unfold kstToUtc
  rw [htz]
  dsimp only
  have hrepr : timedeltaRepr 36000000000 = "datetime.timedelta(seconds=36000)" := by decide
  rw [hoffset, if_pos (by decide), hrepr]

/-- A summer instant and a reading that the clock has left out. -/
theorem round_trip_in_1988 :
    (∃ k, utcToKst midsummer = .ok k ∧ k.tzinfo = some seoul.utcoffset ∧
      k.instant = midsummer.instant ∧
      ((∃ u, kstToUtc k = .ok u) ↔ seoul.offsetAt midsummer.wall = kstOffset) ∧
      ∀ u, kstToUtc k = .ok u → u.instant = midsummer.instant) ∧
    ∃ u k, kstToUtc skippedReading = .ok u ∧ utcToKst u = .ok k ∧
      k.instant = skippedReading.instant := by
  have hwall : midsummer.wall = 583718400000000 := Datetime.wall_ofWall _ _
  have hwall' : skippedReading.wall = 579061800000000 := Datetime.wall_ofWall _ _
  constructor
  · exact kst_utc_round_trip.1 midsummer _ rfl rfl (by rw [hwall]; decide)
  · have hoffset : seoul.utcoffset skippedReading.wall skippedReading.fold = kstOffset := by
      rw [hwall']
      decide
    obtain ⟨u, hu⟩ := (kstToUtc_accepts_iff rfl (by rw [hwall']; decide)).mpr hoffset
    obtain ⟨k, hk, hinstant⟩ := kst_utc_round_trip.2 skippedReading rfl u hu
    exact ⟨u, k, hu, hk, hinstant⟩

end Athena
