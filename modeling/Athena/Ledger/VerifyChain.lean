import Athena.Ledger.ChainInvariant

/-!
# The chain verifier

`verifyChain` walks the rows in id order and recomputes every hash. It returns
no record exactly when the rows form a hash chain from the start, so it accepts
every ledger the client leaves behind.
-/

namespace Athena

/-- A mismatch record; the constructor is its `kind`. -/
inductive Mismatch
  | prevHashChainBreak (id : Int) (storedPrev expectedPrev : Option String)
  | thisHashMismatch (id : Int) (storedThis recomputedThis : String)
  deriving DecidableEq, Repr

section Verifier

variable (sha256 : Bytes → Bytes)

/-- The loop of `verify_chain`, with `last_this` as its state. -/
def verifyRows : Option String → List Row → Except PyErr (List Mismatch)
  | _, [] => .ok []
  | expectedPrev, r :: rows => do
    let breaks :=
      if r.prevHash ≠ expectedPrev ∧ ¬ (r.id = 1 ∧ r.prevHash = none ∧ expectedPrev = none) then
        [Mismatch.prevHashChainBreak r.id r.prevHash expectedPrev]
      else []
    let expectedThis ← computeEntryHash sha256 r.hashed
    if r.thisHash ≠ expectedThis then
      let rest ← verifyRows (some expectedThis) rows
      return breaks ++ Mismatch.thisHashMismatch r.id r.thisHash expectedThis :: rest
    else
      let rest ← verifyRows (some r.thisHash) rows
      return breaks ++ rest

def verifyChain (t : LedgerTable) : Except PyErr (List Mismatch) := verifyRows sha256 none t.byId

end Verifier

variable {sha256 : Bytes → Bytes}

/-- One row of the loop: a break record exactly when the predecessor differs (the
genesis exception never applies to such a row), a mismatch record exactly when the
stored hash differs, and in both branches the recomputed hash is carried on. -/
theorem verifyRows_cons (expectedPrev : Option String) (r : Row) (rows : List Row) :
    verifyRows sha256 expectedPrev (r :: rows) = (do
      let expectedThis ← computeEntryHash sha256 r.hashed
      let rest ← verifyRows sha256 (some expectedThis) rows
      return (if r.prevHash ≠ expectedPrev then
          [Mismatch.prevHashChainBreak r.id r.prevHash expectedPrev] else []) ++
        ((if r.thisHash ≠ expectedThis then
          [Mismatch.thisHashMismatch r.id r.thisHash expectedThis] else []) ++ rest)) := by
  have hgenesis : (r.prevHash ≠ expectedPrev ∧
      ¬ (r.id = 1 ∧ r.prevHash = none ∧ expectedPrev = none)) ↔ r.prevHash ≠ expectedPrev := by
    refine ⟨And.left, fun h => ⟨h, ?_⟩⟩
    rintro ⟨-, hprev, hexpected⟩
    exact h (hprev.trans hexpected.symm)
  rw [verifyRows]
  simp only [hgenesis]
  cases hc : computeEntryHash sha256 r.hashed with
  | error e => rfl
  | ok expectedThis =>
    by_cases hthis : r.thisHash = expectedThis
    · simp [bind, Except.bind, hthis]
    · simp [bind, Except.bind, hthis]

theorem verifyRows_isOk_iff {rows : List Row} {last : Option String} :
    (∃ ms, verifyRows sha256 last rows = .ok ms) ↔ ∀ r ∈ rows, r.hashed.Encodable := by
  induction rows generalizing last with
  | nil => simp [verifyRows]
  | cons r rows ih =>
    rw [verifyRows_cons, List.forall_mem_cons, ← @computeEntryHash_isOk_iff sha256]
    cases hc : computeEntryHash sha256 r.hashed with
    | error e => simp [bind, Except.bind]
    | ok expectedThis =>
      rw [← @ih (some expectedThis)]
      cases hrest : verifyRows sha256 (some expectedThis) rows <;>
        simp [bind, Except.bind, pure, Except.pure, hrest]

theorem verifyRows_eq_nil_iff {rows : List Row} {last : Option String} :
    verifyRows sha256 last rows = .ok [] ↔ RowChain sha256 last rows := by
  induction rows generalizing last with
  | nil => simp [verifyRows, RowChain, HashChain.Chained]
  | cons r rows ih =>
    rw [verifyRows_cons]
    simp only [RowChain, HashChain.Chained, Row.Sealed]
    cases hc : computeEntryHash sha256 r.hashed with
    | error e => simp [bind, Except.bind]
    | ok expectedThis =>
      by_cases hthis : r.thisHash = expectedThis
      · have hrest := @ih (some r.thisHash)
        rw [hthis] at hrest ⊢
        cases hv : verifyRows sha256 (some expectedThis) rows with
        | error e => simp [bind, Except.bind, hv, ← hrest]
        | ok ms => simp [bind, Except.bind, pure, Except.pure, hv, ← hrest]
      · cases hv : verifyRows sha256 (some expectedThis) rows with
        | error e => simp [bind, Except.bind, hv, Ne.symm hthis]
        | ok ms => simp [bind, Except.bind, pure, Except.pure, hv, hthis, Ne.symm hthis]

theorem verifyChain_eq_nil_iff {t : LedgerTable} :
    verifyChain sha256 t = .ok [] ↔ RowChain sha256 none t.byId :=
  verifyRows_eq_nil_iff

theorem verifyChain_isOk_iff {t : LedgerTable} :
    (∃ ms, verifyChain sha256 t = .ok ms) ↔ ∀ r ∈ t.rows, r.hashed.Encodable := by
  rw [verifyChain, verifyRows_isOk_iff]
  simp only [LedgerTable.mem_byId]

end Athena
