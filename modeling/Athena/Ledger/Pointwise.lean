import Athena.Ledger.Integrity

/-!
# The chain verifier row by row

What `verify_chain` says about a row depends on that row and on the recomputed
hash of the row before it, and on nothing else. A tampered row is therefore
blamed together with its successor at most.
-/

namespace Athena

variable {sha256 : Bytes → Bytes}

/-- The predecessor hash that row `j` should hold, from the hashes `H` of the rows. -/
def expectedPrev (last : Option String) (H : ℕ → String) : ℕ → Option String
  | 0 => last
  | j + 1 => some (H j)

/-- The records of one row, with its recomputed hash. -/
def Row.records (r : Row) (expected : Option String) (recomputed : String) : List Mismatch :=
  (if r.prevHash ≠ expected then [.prevHashChainBreak r.id r.prevHash expected] else []) ++
    if r.thisHash ≠ recomputed then [.thisHashMismatch r.id r.thisHash recomputed] else []

def recordsAt (last : Option String) (H : ℕ → String) (rows : List Row) (j : ℕ) : List Mismatch :=
  match rows[j]? with
  | none => []
  | some r => r.records (expectedPrev last H j) (H j)

theorem recordsAt_cons_succ (last : Option String) (H : ℕ → String) (r : Row) (rows : List Row)
    (j : ℕ) : recordsAt last H (r :: rows) (j + 1) =
      recordsAt (some (H 0)) (fun i => H (i + 1)) rows j := by
  unfold recordsAt
  rw [List.getElem?_cons_succ]
  cases j <;> rfl

theorem Row.records_eq_nil_iff {r : Row} {expected : Option String} {recomputed : String} :
    r.records expected recomputed = [] ↔ r.prevHash = expected ∧ r.thisHash = recomputed := by
  unfold Row.records
  split_ifs with hprev hthis hthis <;> simp_all

/-- The loop, by induction on the remaining rows: whichever branch a row takes, `last_this`
is its recomputed hash afterwards. -/
theorem verifyRows_eq_flatMap {rows : List Row} {H : ℕ → String} (last : Option String)
    (hH : ∀ j (hj : j < rows.length), computeEntryHash sha256 rows[j].hashed = .ok (H j)) :
    verifyRows sha256 last rows =
      .ok ((List.range rows.length).flatMap (recordsAt last H rows)) := by
  induction rows generalizing H last with
  | nil => rfl
  | cons r rows ih =>
    have hhead : computeEntryHash sha256 r.hashed = .ok (H 0) := hH 0 (Nat.succ_pos _)
    have htail := ih (some (H 0)) (H := fun i => H (i + 1)) fun j hj =>
      hH (j + 1) (Nat.succ_lt_succ hj)
    have hrecords : (List.range rows.length).flatMap
        (recordsAt (some (H 0)) (fun i => H (i + 1)) rows) =
        (List.range rows.length).flatMap fun j => recordsAt last H (r :: rows) (j + 1) := by
      apply List.flatMap_congr
      intro j _
      exact (recordsAt_cons_succ last H r rows j).symm
    rw [verifyRows_cons, hhead, List.length_cons, List.range_succ_eq_map, List.flatMap_cons,
      List.flatMap_map, ← hrecords]
    simp only [bind, Except.bind, htail, pure, Except.pure]
    rw [← List.append_assoc]
    rfl

theorem RowChain.getElem {rows : List Row} {last : Option String} {H : ℕ → String}
    (h : RowChain sha256 last rows)
    (hH : ∀ j (hj : j < rows.length), computeEntryHash sha256 rows[j].hashed = .ok (H j))
    {j : ℕ} (hj : j < rows.length) :
    rows[j].prevHash = expectedPrev last H j ∧ rows[j].thisHash = H j := by
  induction rows generalizing last H j with
  | nil => exact absurd hj (Nat.not_lt_zero j)
  | cons r rows ih =>
    obtain ⟨hprev, hsealed, hrest⟩ := h
    have hthis : r.thisHash = H 0 := Except.ok.inj (hsealed.symm.trans (hH 0 (Nat.succ_pos _)))
    cases j with
    | zero => exact ⟨hprev, hthis⟩
    | succ j =>
      obtain ⟨hprev', hthis'⟩ := ih (H := fun i => H (i + 1)) hrest
        (fun i hi => hH (i + 1) (Nat.succ_lt_succ hi)) (Nat.lt_of_succ_lt_succ hj)
      refine ⟨?_, hthis'⟩
      rw [List.getElem_cons_succ, hprev', hthis]
      cases j <;> rfl

/-- A row of an intact chain that was not altered, behind a row that was not, is not reported. -/
theorem recordsAt_eq_nil {rows original : List Row} {H : ℕ → String}
    (hH : ∀ j (hj : j < rows.length), computeEntryHash sha256 rows[j].hashed = .ok (H j))
    (hintact : RowChain sha256 none original) {j : ℕ} (hsame : rows[j]? = original[j]?)
    (hbefore : ∀ i, j = i + 1 → rows[i]? = original[i]?) : recordsAt none H rows j = [] := by
  unfold recordsAt
  cases hr : rows[j]? with
  | none => rfl
  | some r =>
    obtain ⟨hj, rfl⟩ := List.getElem?_eq_some_iff.mp hr
    obtain ⟨horig, hrow⟩ := List.getElem?_eq_some_iff.mp (hsame.symm.trans hr)
    obtain ⟨K, hK⟩ : ∃ K : ℕ → String, ∀ i (hi : i < original.length),
        computeEntryHash sha256 original[i].hashed = .ok (K i) := by
      refine ⟨fun i => (original[i]?.map Row.thisHash).getD "", fun i hi => ?_⟩
      have hsealed : computeEntryHash sha256 original[i].hashed = .ok original[i].thisHash :=
        hintact.valid_of_mem (List.getElem_mem hi)
      simpa [List.getElem?_eq_getElem hi] using hsealed
    obtain ⟨hprev, hthis⟩ := hintact.getElem hK horig
    -- unaltered rows have the same hash in both lists
    have hhash : ∀ i (hi : i < rows.length), rows[i]? = original[i]? → H i = K i := by
      intro i hi heq
      rw [List.getElem?_eq_getElem hi] at heq
      obtain ⟨hi', hrow'⟩ := List.getElem?_eq_some_iff.mp heq.symm
      have hK' := hK i hi'
      rw [hrow', hH i hi] at hK'
      exact Except.ok.inj hK'
    rw [hrow] at hprev hthis
    refine Row.records_eq_nil_iff.mpr ⟨?_, hthis.trans (hhash j hj hsame).symm⟩
    rw [hprev]
    cases j with
    | zero => rfl
    | succ i => exact congrArg some (hhash i (Nat.lt_of_succ_lt hj) (hbefore i rfl)).symm

/-- `verify_chain` row by row. With `H` the hashes of the rows, the result lists for each row
in order what is wrong with it: a break if its predecessor column is not the hash of the row
before it, a mismatch if its own hash column is not its hash. If the rows come from an
intact chain by altering those at the positions in `S`, only these and their immediate
successors have records. -/
theorem verify_chain_pointwise {rows : List Row} (hrows : ∀ r ∈ rows, r.hashed.Encodable) :
    ∃ H : ℕ → String,
      (∀ j (hj : j < rows.length), computeEntryHash sha256 rows[j].hashed = .ok (H j)) ∧
      verifyRows sha256 none rows =
        .ok ((List.range rows.length).flatMap (recordsAt none H rows)) ∧
      ∀ (original : List Row) (S : Set ℕ), verifyRows sha256 none original = .ok [] →
        (∀ j ∉ S, rows[j]? = original[j]?) →
        ∀ j, recordsAt none H rows j ≠ [] → j ∈ S ∨ ∃ i ∈ S, j = i + 1 := by
  have hhash : ∀ j, ∃ h : String, ∀ hj : j < rows.length,
      computeEntryHash sha256 rows[j].hashed = .ok h := by
    intro j
    by_cases hj : j < rows.length
    · obtain ⟨h, hh⟩ := (@computeEntryHash_isOk_iff sha256 _).mpr (hrows _ (List.getElem_mem hj))
      exact ⟨h, fun _ => hh⟩
    · exact ⟨"", fun h => absurd h hj⟩
  choose H hH using hhash
  refine ⟨H, hH, verifyRows_eq_flatMap none hH, ?_⟩
  intro original S hintact hsame j hrecords
  by_contra hfar
  push Not at hfar
  obtain ⟨hj, hbefore⟩ := hfar
  refine hrecords (recordsAt_eq_nil hH (verifyRows_eq_nil_iff.mp hintact) (hsame j hj) ?_)
  intro i hi
  exact hsame i fun hiS => hbefore i hiS hi

def chainedRow (id : Int) (payload : String) (prevHash : Option String) (thisHash : String) : Row :=
  ⟨id, 0, "", "abcdef1", 1, "genesis", payload, prevHash, thisHash, "", 0⟩

def intactRows : List Row :=
  [chainedRow 1 "" none "13", chainedRow 2 "" (some "13") "15", chainedRow 3 "" (some "15") "15",
    chainedRow 4 "" (some "15") "15"]

/-- The payload of the second row is altered. -/
def alteredRows : List Row := intactRows.set 1 (chainedRow 2 "{}" (some "13") "15")

/-- The altered row does not match its hash, its successor does not continue it, and of the others
nothing is reported. -/
theorem verify_chain_pointwise_altered :
    verifyRows lengthDigest none alteredRows =
      .ok [.thisHashMismatch 2 "15" "17", .prevHashChainBreak 3 (some "15") (some "17")] ∧
    ∃ H : ℕ → String, verifyRows lengthDigest none alteredRows =
        .ok ((List.range 4).flatMap (recordsAt none H alteredRows)) ∧
      ∀ j, recordsAt none H alteredRows j ≠ [] → j = 1 ∨ j = 2 := by
  obtain ⟨H, -, hverify, hnear⟩ := @verify_chain_pointwise lengthDigest alteredRows (by decide)
  refine ⟨by decide, H, hverify, fun j hj => ?_⟩
  have hsame : ∀ k ∉ ({1} : Set ℕ), alteredRows[k]? = intactRows[k]? :=
    fun k hk => List.getElem?_set_ne (Ne.symm hk)
  rcases hnear intactRows {1} (by decide) hsame j hj with hmem | ⟨i, hmem, hi⟩
  · exact .inl hmem
  · exact .inr (hi.trans (congrArg (· + 1) hmem))

end Athena
