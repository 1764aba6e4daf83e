import Athena.Ledger.EntryHash

/-!
# The table of `schema.sql`

A `LedgerTable` is a table content that the DDL admits: the primary key, the
integer widths and the CHECK constraint are fields of the structure, so
insertion is the only way to grow one and a rejected row cannot get in.
`VARCHAR(n)` does not bound a length in DuckDB, so text columns are unrestricted.
-/

namespace Athena

/-- A row of `pre_trade_ledger_raw`; instants are microseconds since the epoch. -/
structure Row where
  id : Int
  timestamp : Int
  moduleVersion : String
  policyVersionGitSha : String
  userId : Int
  eventType : String
  payloadJson : String
  prevHash : Option String
  thisHash : String
  paramHash : String
  createdAtUtc : Int
  deriving DecidableEq, Repr

namespace Row

/-- The columns that enter the row's own hash. -/
def hashed (r : Row) : EntryFields :=
  { prevHash := r.prevHash
    payloadJson := r.payloadJson
    policyVersionGitSha := r.policyVersionGitSha
    eventType := r.eventType
    userId := r.userId }

/-- The column types BIGINT and INTEGER, and the CHECK constraint. -/
def Admitted (r : Row) : Prop :=
  (-2 ^ 63 ≤ r.id ∧ r.id < 2 ^ 63) ∧ (-2 ^ 31 ≤ r.userId ∧ r.userId < 2 ^ 31) ∧
    ((r.id = 1 ∧ r.prevHash = none) ∨ (1 < r.id ∧ r.prevHash ≠ none))

instance (r : Row) : Decidable r.Admitted := inferInstanceAs (Decidable (_ ∧ _))

theorem Admitted.prevHash_eq_none_iff {r : Row} (h : r.Admitted) :
    r.prevHash = none ↔ r.id = 1 := by
  obtain ⟨-, -, ⟨hid, hprev⟩ | ⟨hid, hprev⟩⟩ := h
  · simp [hid, hprev]
  · simp only [hprev, false_iff]
    omega

theorem Admitted.one_le_id {r : Row} (h : r.Admitted) : 1 ≤ r.id := by
  obtain ⟨-, -, ⟨hid, -⟩ | ⟨hid, -⟩⟩ := h <;> omega

end Row

/-- The rows of `pre_trade_ledger_raw`, in order of insertion. -/
structure LedgerTable where
  rows : List Row
  primaryKey : (rows.map Row.id).Nodup
  admitted : ∀ r ∈ rows, r.Admitted

namespace LedgerTable

def empty : LedgerTable := ⟨[], List.nodup_nil, by simp⟩

@[simp] theorem empty_rows : empty.rows = [] := rfl

/-- `INSERT INTO pre_trade_ledger_raw`: `none` when a constraint rejects the row. -/
def insert? (t : LedgerTable) (r : Row) : Option LedgerTable :=
  if h : r.Admitted ∧ r.id ∉ t.rows.map Row.id then
    some
      { rows := t.rows ++ [r]
        primaryKey := by
          rw [List.map_append, List.nodup_append]
          refine ⟨t.primaryKey, List.nodup_singleton _, ?_⟩
          intro a ha b hb hab
          simp only [List.map_cons, List.map_nil, List.mem_singleton] at hb
          exact h.2 (hb ▸ hab ▸ ha)
        admitted := by
          intro x hx
          rcases List.mem_append.mp hx with hx | hx
          · exact t.admitted x hx
          · exact List.mem_singleton.mp hx ▸ h.1 }
  else none

theorem insert?_eq_some {t t' : LedgerTable} {r : Row} (h : t.insert? r = some t') :
    t'.rows = t.rows ++ [r] ∧ r.Admitted := by
  unfold insert? at h
  split_ifs at h with hr
  cases h
  exact ⟨rfl, hr.1⟩

theorem insert?_isSome {t : LedgerTable} {r : Row} (hadm : r.Admitted)
    (hfresh : r.id ∉ t.rows.map Row.id) :
    ∃ t', t.insert? r = some t' ∧ t'.rows = t.rows ++ [r] := by
  unfold insert?
  rw [dif_pos ⟨hadm, hfresh⟩]
  exact ⟨_, rfl, rfl⟩

/-- `SELECT * FROM pre_trade_ledger ORDER BY id`. -/
def byId (t : LedgerTable) : List Row := t.rows.insertionSort fun a b => a.id ≤ b.id

theorem byId_perm (t : LedgerTable) : t.byId.Perm t.rows := List.perm_insertionSort _ _

theorem mem_byId {t : LedgerTable} {r : Row} : r ∈ t.byId ↔ r ∈ t.rows := List.mem_insertionSort _

theorem byId_eq_nil_iff {t : LedgerTable} : t.byId = [] ↔ t.rows = [] := by
  rw [← List.length_eq_zero_iff, t.byId_perm.length_eq, List.length_eq_zero_iff]

theorem byId_strict (t : LedgerTable) : t.byId.Pairwise fun a b => a.id < b.id := by
  have hnodup : (t.byId.map Row.id).Nodup := (t.byId_perm.map Row.id).nodup_iff.mpr t.primaryKey
  have hne : t.byId.Pairwise fun a b => a.id ≠ b.id := List.pairwise_map.mp hnodup
  have hle : t.byId.Pairwise fun a b => a.id ≤ b.id :=
    List.pairwise_insertionSort (fun a b : Row => a.id ≤ b.id) t.rows
  exact (hle.and hne).imp fun h => lt_of_le_of_ne h.1 h.2

theorem byId_eq_rows {t : LedgerTable} (h : t.rows.Pairwise fun a b => a.id < b.id) :
    t.byId = t.rows :=
  (h.imp fun hab => le_of_lt hab).insertionSort_eq

end LedgerTable

end Athena
