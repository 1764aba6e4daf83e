import Mathlib.Data.List.Lex
import Mathlib.Data.List.Nodup
import Mathlib.Data.List.Sort
import Mathlib.Tactic

/-!
# Rows with named columns

A row is a list of values, read through a list of column names. Projecting to
other columns loses nothing that a later projection asks for, so two tables that
agree on a set of columns, up to the order of rows, agree on every subset. Rows
over a linear order are compared in sorted form.
-/

namespace Columns

variable {κ α : Type*} [BEq κ] [LawfulBEq κ] (d : α)

def get (names : List κ) (row : List α) (c : κ) : α := ((names.zip row).lookup c).getD d

def project (names cols : List κ) (row : List α) : List α := cols.map (get d names row)

theorem get_map {cols : List κ} (g : κ → α) {c : κ} (h : c ∈ cols) :
    get d cols (cols.map g) c = g c := by
  induction cols with
  | nil => cases h
  | cons a cols ih =>
    by_cases hc : c = a
    · subst hc
      simp [get]
    · have hrest := ih ((List.mem_cons.mp h).resolve_left hc)
      rw [get] at hrest ⊢
      rw [List.map_cons, List.zip_cons_cons, List.lookup_cons, beq_false_of_ne hc]
      exact hrest

theorem project_project {names cols cs : List κ} (h : ∀ c ∈ cs, c ∈ cols) (row : List α) :
    project d cols cs (project d names cols row) = project d names cs row :=
  List.map_congr_left fun _ hc => get_map d _ (h _ hc)

theorem project_self {names : List κ} {row : List α} (hnodup : names.Nodup)
    (hlen : row.length = names.length) : project d names names row = row := by
  induction names generalizing row with
  | nil => exact (List.length_eq_zero_iff.mp hlen).symm
  | cons a names ih =>
    obtain ⟨ha, hnodup⟩ := List.nodup_cons.mp hnodup
    cases row with
    | nil => cases hlen
    | cons x row =>
      have hhead : get d (a :: names) (x :: row) a = x := by simp [get]
      have htail : names.map (get d (a :: names) (x :: row)) = project d names names row := by
        apply List.map_congr_left
        intro c hc
        have hne : c ≠ a := fun heq => ha (heq ▸ hc)
        rw [get, List.zip_cons_cons, List.lookup_cons, beq_false_of_ne hne]
        rfl
      rw [project, List.map_cons, hhead, htail, ih hnodup (Nat.succ.inj hlen)]

theorem perm_project {names names' cols cs : List κ} {rows rows' : List (List α)}
    (hcs : ∀ c ∈ cs, c ∈ cols)
    (h : (rows.map (project d names cols)).Perm (rows'.map (project d names' cols))) :
    (rows.map (project d names cs)).Perm (rows'.map (project d names' cs)) := by
  have hmap := h.map (project d cols cs)
  simpa only [List.map_map, Function.comp_def, project_project d hcs] using hmap

/-- A row as a function on its columns. -/
def asFunction (names : List κ) (row : List α) (c : κ) : Option α := (names.zip row).lookup c

theorem asFunction_eq {names : List κ} {row : List α} (hlen : row.length = names.length) (c : κ) :
    asFunction names row c = if c ∈ names then some (get d names row c) else none := by
  induction names generalizing row with
  | nil => rfl
  | cons a names ih =>
    cases row with
    | nil => cases hlen
    | cons x row =>
      have hrest := ih (Nat.succ.inj hlen)
      by_cases hc : c = a
      · simp [asFunction, get, hc]
      · unfold asFunction get at hrest ⊢
        rw [List.zip_cons_cons, List.lookup_cons, beq_false_of_ne hc]
        simpa only [List.mem_cons, hc, false_or] using hrest

theorem asFunction_project {names cols : List κ} {row : List α}
    (hlen : row.length = names.length) (hcols : ∀ c, c ∈ cols ↔ c ∈ names) :
    asFunction cols (project d names cols row) = asFunction names row := by
  have hlen' : (project d names cols row).length = cols.length := List.length_map _
  funext c
  rw [asFunction_eq d hlen, asFunction_eq d hlen']
  by_cases hc : c ∈ cols
  · rw [if_pos hc, if_pos ((hcols c).mp hc), project, get_map d _ hc]
  · rw [if_neg hc, if_neg (fun h => hc ((hcols c).mpr h))]

theorem perm_project_iff {names names' cols : List κ} {rows rows' : List (List α)}
    (hwidth : ∀ row ∈ rows, row.length = names.length)
    (hwidth' : ∀ row ∈ rows', row.length = names'.length)
    (hcols : ∀ c, c ∈ cols ↔ c ∈ names) (hcols' : ∀ c, c ∈ cols ↔ c ∈ names') :
    (rows.map (project d names cols)).Perm (rows'.map (project d names' cols)) ↔
      (rows.map (asFunction names)).Perm (rows'.map (asFunction names')) := by
  constructor
  · intro h
    have hmap := h.map (asFunction cols)
    rw [List.map_map, List.map_map] at hmap
    have hrows : rows.map (asFunction cols ∘ project d names cols) =
        rows.map (asFunction names) :=
      List.map_congr_left fun row hrow => asFunction_project d (hwidth row hrow) hcols
    have hrows' : rows'.map (asFunction cols ∘ project d names' cols) =
        rows'.map (asFunction names') :=
      List.map_congr_left fun row hrow => asFunction_project d (hwidth' row hrow) hcols'
    rwa [hrows, hrows'] at hmap
  · intro h
    have hmap := h.map fun row => cols.map fun c => (row c).getD d
    rwa [List.map_map, List.map_map] at hmap

theorem insertionSort_eq_iff {γ : Type*} [LinearOrder γ] {l l' : List γ} :
    l.insertionSort (· ≤ ·) = l'.insertionSort (· ≤ ·) ↔ l.Perm l' := by
  constructor
  · intro h
    exact (List.perm_insertionSort _ l).symm.trans (h ▸ List.perm_insertionSort _ l')
  · intro h
    apply List.Perm.eq_of_sortedLE List.sortedLE_insertionSort List.sortedLE_insertionSort
    exact (List.perm_insertionSort _ l).trans (h.trans (List.perm_insertionSort _ l').symm)

end Columns
