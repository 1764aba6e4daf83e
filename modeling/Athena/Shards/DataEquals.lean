import Athena.Library.Columns
import Athena.Shards.Storage

/-!
# Data equality of frames

`_data_equals` on frames over an arbitrary type of cells: the values in their
order and NULL, which sorts last, above them. Only cells of one column are ever
compared, so the columns may have different types, put side by side in one
order. The cells of the logger tables are the case the exporter uses.
-/

namespace Athena

/-- A data frame: distinct column names, and rows with one cell for each of them. -/
structure DataFrame (γ : Type*) where
  columns : List String
  rows : List (List γ)
  nodup : columns.Nodup
  width : ∀ row ∈ rows, row.length = columns.length

namespace DataFrame

variable {γ : Type*} [LinearOrder γ] [OrderTop γ]

def select (f : DataFrame γ) (cols : List String) : List (List γ) :=
  f.rows.map (Columns.project ⊤ f.columns cols)

/-- `_data_equals`: `sort(cols, nulls_last=True)` is the lexicographic order of the rows. -/
def dataEquals (existing fresh : DataFrame γ) : Bool :=
  let cols := existing.columns.insertionSort (· ≤ ·)
  if fresh.columns.insertionSort (· ≤ ·) ≠ cols then false
  else if existing.rows.length ≠ fresh.rows.length then false
  else (existing.select cols).insertionSort (· ≤ ·) = (fresh.select cols).insertionSort (· ≤ ·)

omit [LinearOrder γ] [OrderTop γ] in
/-- The multiset of rows, each a function from its columns to cells. -/
def contents (f : DataFrame γ) : Multiset (String → Option γ) :=
  f.rows.map (Columns.asFunction f.columns)

omit [LinearOrder γ] [OrderTop γ] in
def withRows (f : DataFrame γ) (rows : List (List γ))
    (h : ∀ row ∈ rows, row.length = f.columns.length) : DataFrame γ :=
  { f with rows := rows, width := h }

/-- The same rows under the columns in another order. -/
def withColumns (f : DataFrame γ) (cols : List String) (h : cols.Perm f.columns) :
    DataFrame γ where
  columns := cols
  rows := f.select cols
  nodup := h.nodup_iff.mpr f.nodup
  width := by
    intro row hrow
    obtain ⟨r, -, rfl⟩ := List.mem_map.mp hrow
    exact List.length_map _

omit [LinearOrder γ] [OrderTop γ] in
theorem sameColumns_iff (f g : DataFrame γ) :
    g.columns.insertionSort (· ≤ ·) = f.columns.insertionSort (· ≤ ·) ↔
      ∀ c, c ∈ f.columns ↔ c ∈ g.columns := by
  rw [Columns.insertionSort_eq_iff, List.perm_ext_iff_of_nodup g.nodup f.nodup]
  exact forall_congr' fun c => Iff.comm

theorem sameRows_iff {f g : DataFrame γ} (hcols : ∀ c, c ∈ f.columns ↔ c ∈ g.columns) :
    (f.select (f.columns.insertionSort (· ≤ ·))).insertionSort (· ≤ ·) =
        (g.select (f.columns.insertionSort (· ≤ ·))).insertionSort (· ≤ ·) ↔
      f.contents = g.contents := by
  have hsorted : ∀ c, c ∈ f.columns.insertionSort (· ≤ ·) ↔ c ∈ f.columns :=
    fun c => List.mem_insertionSort _
  rw [Columns.insertionSort_eq_iff, contents, contents, Multiset.coe_eq_coe]
  exact Columns.perm_project_iff ⊤ f.width g.width hsorted fun c => (hsorted c).trans (hcols c)

theorem dataEquals_eq_true_iff (f g : DataFrame γ) :
    f.dataEquals g = true ↔
      (∀ c, c ∈ f.columns ↔ c ∈ g.columns) ∧ f.contents = g.contents := by
  unfold dataEquals
  dsimp only
  by_cases hcols : ∀ c, c ∈ f.columns ↔ c ∈ g.columns
  · rw [if_neg (not_not.mpr ((sameColumns_iff f g).mpr hcols)), and_iff_right hcols,
      ← sameRows_iff hcols]
    by_cases hlen : f.rows.length = g.rows.length
    · rw [if_neg (not_not.mpr hlen)]
      exact decide_eq_true_iff
    · rw [if_pos hlen]
      -- sorted frames of different height differ
      refine iff_of_false Bool.false_ne_true fun h => hlen ?_
      have hheight := congrArg List.length h
      simpa [select] using hheight
  · rw [if_pos fun h => hcols ((sameColumns_iff f g).mp h)]
    exact iff_of_false Bool.false_ne_true fun h => hcols h.1

theorem equivalence_dataEquals : Equivalence fun f g : DataFrame γ => f.dataEquals g = true := by
  simp only [dataEquals_eq_true_iff]
  constructor
  · intro f
    exact ⟨fun _ => Iff.rfl, rfl⟩
  · intro f g h
    exact ⟨fun c => (h.1 c).symm, h.2.symm⟩
  · intro f g k h h'
    exact ⟨fun c => (h.1 c).trans (h'.1 c), h.2.trans h'.2⟩

theorem dataEquals_withRows (f : DataFrame γ) {rows : List (List γ)}
    (h : ∀ row ∈ rows, row.length = f.columns.length) :
    f.dataEquals (f.withRows rows h) = true ↔ rows.Perm f.rows := by
  have hself : ∀ {rows : List (List γ)}, (∀ row ∈ rows, row.length = f.columns.length) →
      rows.map (Columns.project ⊤ f.columns f.columns) = rows := by
    intro rows hrows
    rw [List.map_congr_left fun row hrow =>
      Columns.project_self ⊤ f.nodup (hrows row hrow)]
    exact List.map_id rows
  have hperm : (f.rows.map (Columns.project ⊤ f.columns f.columns)).Perm
      (rows.map (Columns.project ⊤ f.columns f.columns)) ↔ _ :=
    Columns.perm_project_iff ⊤ f.width h (fun _ => Iff.rfl) fun _ => Iff.rfl
  rw [hself f.width, hself h] at hperm
  rw [dataEquals_eq_true_iff, contents, contents, Multiset.coe_eq_coe]
  constructor
  · intro heq
    exact (hperm.mpr heq.2).symm
  · intro heq
    exact ⟨fun _ => Iff.rfl, hperm.mp heq.symm⟩

theorem dataEquals_withColumns (f : DataFrame γ) {cols : List String}
    (h : cols.Perm f.columns) : f.dataEquals (f.withColumns cols h) = true := by
  rw [dataEquals_eq_true_iff]
  constructor
  · intro c
    exact h.mem_iff.symm
  · apply congrArg Multiset.ofList
    change _ = (f.rows.map (Columns.project ⊤ f.columns cols)).map (Columns.asFunction cols)
    rw [List.map_map]
    apply List.map_congr_left
    intro row hrow
    exact (Columns.asFunction_project ⊤ (f.width row hrow) fun c => h.mem_iff).symm

/-- `_data_equals` decides equality of columns and of the multisets of rows: an equivalence
that ignores the order of rows and columns, and nothing else about the rows. -/
theorem dataEquals_decides_contents :
    (∀ f g : DataFrame γ, f.dataEquals g = true ↔
      (∀ c, c ∈ f.columns ↔ c ∈ g.columns) ∧ f.contents = g.contents) ∧
    (Equivalence fun f g : DataFrame γ => f.dataEquals g = true) ∧
    (∀ (f : DataFrame γ) rows h, f.dataEquals (f.withRows rows h) = true ↔ rows.Perm f.rows) ∧
    ∀ (f : DataFrame γ) cols h, f.dataEquals (f.withColumns cols h) = true :=
  ⟨dataEquals_eq_true_iff, equivalence_dataEquals, fun f _ h => f.dataEquals_withRows h,
    fun f _ h => f.dataEquals_withColumns h⟩

end DataFrame

namespace Cell

/-- The place of a cell in the order of all cells. -/
def key : Cell → ℕ ×ₗ Int ×ₗ String
  | boolean b => toLex (0, toLex (b.toNat, ""))
  | integer n => toLex (1, toLex (n, ""))
  | decimal n => toLex (2, toLex (n, ""))
  | timestamptz n => toLex (3, toLex (n, ""))
  | varchar s => toLex (4, toLex (0, s))
  | null => toLex (5, toLex (0, ""))

theorem key_injective : Function.Injective key := by
  intro a b h
  cases a with
  | boolean x =>
    cases b with
    | boolean y => cases x <;> cases y <;> simp [key] at h ⊢
    | _ => simp [key] at h
  | _ => cases b <;> simp [key] at h ⊢ <;> exact h

instance : LinearOrder Cell := LinearOrder.lift' key key_injective

theorem le_iff (a b : Cell) : a ≤ b ↔ a.Le b := by
  change a.key ≤ b.key ↔ _
  cases a with
  | boolean x =>
    cases b with
    | boolean y => cases x <;> cases y <;> decide
    | _ => simp [key, Le, rank, Prod.Lex.le_iff]
  | _ =>
    -- values of one type are left, compared first by `<` and then by `=`
    cases b <;> simp [key, Le, rank, Prod.Lex.le_iff]
    all_goals exact le_iff_lt_or_eq.symm

instance : OrderTop Cell where
  top := null
  le_top a := by
    rw [le_iff]
    cases a <;> simp [Le, rank]

end Cell

namespace Frame

theorem cons_le_cons_iff {γ : Type*} [LinearOrder γ] {x y : γ} {a b : List γ} :
    x :: a ≤ y :: b ↔ x ≤ y ∧ (x = y → a ≤ b) := by
  rw [le_iff_lt_or_eq, List.cons_lt_cons_iff, List.cons.injEq, le_iff_lt_or_eq (a := a)]
  by_cases hxy : x = y
  · simp [hxy]
  · simp [hxy, le_iff_lt_or_eq]

theorem rowLe_iff (a b : TableRow) : RowLe a b ↔ a ≤ b := by
  induction a generalizing b with
  | nil =>
    cases b with
    | nil => exact iff_of_true trivial le_rfl
    | cons y b => exact iff_of_true trivial (List.nil_lt_cons y b).le
  | cons x a ih =>
    cases b with
    | nil => exact iff_of_false id (List.nil_lt_cons x a).not_ge
    | cons y b => rw [RowLe, ih, cons_le_cons_iff, Cell.le_iff]

/-- A frame with distinct column names and rows of their number. -/
def toDataFrame (f : Frame) (hnodup : f.columns.Nodup)
    (hwidth : ∀ row ∈ f.rows, row.length = f.columns.length) : DataFrame Cell :=
  ⟨f.columns, f.rows, hnodup, hwidth⟩

/-- The comparison of the exporter is the case of cells of the logger tables. -/
theorem dataEquals_toDataFrame {f g : Frame} (hf : f.columns.Nodup) (hg : g.columns.Nodup)
    (hfw : ∀ row ∈ f.rows, row.length = f.columns.length)
    (hgw : ∀ row ∈ g.rows, row.length = g.columns.length) :
    f.dataEquals g = (f.toDataFrame hf hfw).dataEquals (g.toDataFrame hg hgw) := by
  have hrow : (RowLe : TableRow → TableRow → Prop) = (· ≤ ·) :=
    funext fun a => funext fun b => propext (rowLe_iff a b)
  have hsort : ∀ rows : List TableRow,
      rows.insertionSort RowLe = rows.insertionSort (· ≤ ·) := by
    intro rows
    congr!
  have hselect : ∀ cols, (f.toDataFrame hf hfw).select cols = f.select cols ∧
      (g.toDataFrame hg hgw).select cols = g.select cols := fun _ => ⟨rfl, rfl⟩
  unfold dataEquals DataFrame.dataEquals
  simp only [hsort, hselect]
  congr!

end Frame

end Athena
