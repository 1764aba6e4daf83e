import Mathlib.Data.List.Basic
import Mathlib.Tactic

/-!
# Lexical resolution of a walk

A walk is a list of names, one of which steps up to the parent. Walked from any
place, it first climbs some levels above that place and then goes down along
some names. Both are read off the walk alone, so a walk can be judged without
the place it starts from.
-/

namespace PathResolution

variable {κ : Type*} [DecidableEq κ] (up : κ)

/-- One step of a walk. At the top, stepping up changes nothing. -/
def step (place : List κ) (name : κ) : List κ :=
  if name = up then place.dropLast else place ++ [name]

def resolve (place walk : List κ) : List κ := walk.foldl (step up) place

theorem resolve_append (place walk next : List κ) :
    resolve up place (walk ++ next) = resolve up (resolve up place walk) next :=
  List.foldl_append

/-- The net effect of a walk: the levels climbed above its start, and the names gone down. -/
structure Excursion (κ : Type*) where
  climb : ℕ
  names : List κ
  deriving DecidableEq

namespace Excursion

def apply (e : Excursion κ) (place : List κ) : List κ :=
  place.take (place.length - e.climb) ++ e.names

/-- Stepping up takes back the last name, or climbs when there is none. -/
def extend (e : Excursion κ) (name : κ) : Excursion κ :=
  if name = up then
    if e.names = [] then ⟨e.climb + 1, []⟩ else ⟨e.climb, e.names.dropLast⟩
  else ⟨e.climb, e.names ++ [name]⟩

omit [DecidableEq κ] in
theorem dropLast_take_climb (place : List κ) (climb : ℕ) :
    (place.take (place.length - climb)).dropLast = place.take (place.length - (climb + 1)) := by
  rw [List.dropLast_eq_take, List.take_take, List.length_take]
  congr 1
  omega

theorem apply_extend (e : Excursion κ) (place : List κ) (name : κ) :
    (e.extend up name).apply place = step up (e.apply place) name := by
  unfold extend step
  by_cases hup : name = up
  · rw [if_pos hup, if_pos hup]
    by_cases hnames : e.names = []
    · rw [if_pos hnames]
      simp only [apply, hnames, List.append_nil]
      exact (dropLast_take_climb place e.climb).symm
    · rw [if_neg hnames]
      simp only [apply]
      exact (List.dropLast_append_of_ne_nil hnames).symm
  · rw [if_neg hup, if_neg hup]
    simp only [apply, List.append_assoc]

end Excursion

/-- The excursion a walk makes. -/
def excursion (walk : List κ) : Excursion κ := walk.foldl (Excursion.extend up) ⟨0, []⟩

theorem foldl_step_apply (e : Excursion κ) (place walk : List κ) :
    walk.foldl (step up) (e.apply place) = (walk.foldl (Excursion.extend up) e).apply place := by
  induction walk generalizing e with
  | nil => rfl
  | cons name walk ih =>
    rw [List.foldl_cons, List.foldl_cons, ← Excursion.apply_extend, ih]

theorem resolve_eq_apply (place walk : List κ) :
    resolve up place walk = (excursion up walk).apply place := by
  have hstart : (⟨0, []⟩ : Excursion κ).apply place = place := by simp [Excursion.apply]
  have hrun := foldl_step_apply up ⟨0, []⟩ place walk
  rwa [hstart] at hrun

theorem foldl_extend_of_not_mem {walk : List κ} (h : up ∉ walk) (e : Excursion κ) :
    walk.foldl (Excursion.extend up) e = ⟨e.climb, e.names ++ walk⟩ := by
  induction walk generalizing e with
  | nil => simp
  | cons name walk ih =>
    have hname : name ≠ up := fun heq => h (heq ▸ List.mem_cons_self)
    have hwalk : up ∉ walk := fun hmem => h (List.mem_cons_of_mem _ hmem)
    rw [List.foldl_cons, ih hwalk, Excursion.extend, if_neg hname]
    simp

theorem excursion_of_not_mem {walk : List κ} (h : up ∉ walk) : excursion up walk = ⟨0, walk⟩ :=
  foldl_extend_of_not_mem up h ⟨0, []⟩

theorem resolve_nil_of_not_mem {walk : List κ} (h : up ∉ walk) : resolve up [] walk = walk := by
  rw [resolve_eq_apply, excursion_of_not_mem up h]
  rfl

/-- A walk stays below its start exactly when it comes back down through the
names it has climbed above. -/
theorem prefix_resolve_iff (place walk : List κ) :
    place <+: resolve up place walk ↔
      place.drop (place.length - (excursion up walk).climb) <+: (excursion up walk).names := by
  rw [resolve_eq_apply, Excursion.apply]
  generalize (excursion up walk).names = names
  generalize place.length - (excursion up walk).climb = kept
  calc place <+: place.take kept ++ names
      ↔ place.take kept ++ place.drop kept <+: place.take kept ++ names := by
        rw [List.take_append_drop]
    _ ↔ place.drop kept <+: names := List.prefix_append_right_inj _

end PathResolution
