import Athena.Ledger.MonthlyChain

/-!
# What an interrupted archive write leaves

The existing target is made writable before anything is written and made
read-only again as the last step. An operation that raises in between is
answered by removing the `.tmp` file; the permission bits are not put back.
-/

namespace Athena

section Interrupted

variable {α : Type}

def ArchiveStep.tryBlock : List ArchiveStep := [.openTmp, .write, .sync, .replace]

/-- An operation before the `try` block raises: `mkdir`, or `chmod` of an existing target. -/
def ArchiveEnv.FailsBefore (env : ArchiveEnv α) (present : Bool) : Prop :=
  env.fails .mkdir ∨ present ∧ env.fails .widen

/-- An operation up to and including the rename raises. -/
def ArchiveEnv.Interrupts (env : ArchiveEnv α) (present : Bool) : Prop :=
  env.FailsBefore present ∨ ∃ step ∈ ArchiveStep.tryBlock, env.fails step

instance (env : ArchiveEnv α) (present : Bool) : Decidable (env.FailsBefore present) :=
  inferInstanceAs (Decidable (_ ∨ _ ∧ _))

instance (env : ArchiveEnv α) (present : Bool) : Decidable (env.Interrupts present) :=
  inferInstanceAs (Decidable (_ ∨ ∃ step ∈ ArchiveStep.tryBlock, _))

/-- An interrupted write raises and leaves the target with its content and permission bits, and
no `.tmp` file; a write that returns leaves the body, read-only. -/
def ArchiveKept (env : ArchiveEnv α) (target : String) (body : α) (disk : ArchiveDisk α) : Prop :=
  let out := atomicWriteReadonly env target body disk
  (env.Interrupts (disk target).isSome →
    (∃ step, out.1 = .error step) ∧ out.2 target = disk target ∧
      out.2 (archiveTmp target) = none) ∧
  (out.1 = .ok () → out.2 target = some ⟨body, 0o444⟩)

theorem archiveTmp_ne (target : String) : archiveTmp target ≠ target := by
  intro h
  have hlength := congrArg String.length h
  rw [archiveTmp, String.length_append] at hlength
  have htmp : ".tmp".length = 4 := by decide
  omega

theorem widenTarget_self (target : String) (disk : ArchiveDisk α) :
    widenTarget target disk target = (disk target).map fun f => { f with mode := 0o644 } :=
  Function.update_self _ _ _

theorem widenTarget_tmp (target : String) (disk : ArchiveDisk α) :
    widenTarget target disk (archiveTmp target) = disk (archiveTmp target) :=
  Function.update_of_ne (archiveTmp_ne target) _ _

theorem widenTarget_self_iff (target : String) (disk : ArchiveDisk α) :
    widenTarget target disk target = disk target ↔
      ∀ file, disk target = some file → file.mode = 0o644 := by
  rw [widenTarget_self]
  cases disk target with
  | none => simp
  | some file =>
    obtain ⟨content, mode⟩ := file
    simp only [Option.map_some, Option.some.injEq, forall_eq', ArchivedFile.mk.injEq, true_and]
    exact eq_comm

theorem find?_tryBlock_eq_none (env : ArchiveEnv α) :
    ArchiveStep.tryBlock.find? env.fails = none ↔
      ¬ ∃ step ∈ ArchiveStep.tryBlock, env.fails step := by
  simp

theorem leftInTmp_eq_none (env : ArchiveEnv α) (target : String) (body : α)
    (disk : ArchiveDisk α) {step : ArchiveStep} (hstep : step ∈ ArchiveStep.tryBlock) :
    leftInTmp env target body disk step = none ↔
      step = .openTmp ∧ disk (archiveTmp target) = none := by
  cases step <;> simp [leftInTmp]

section Outcomes

variable {env : ArchiveEnv α} {target : String} (body : α) {disk : ArchiveDisk α}

/-- An operation before the `try` block raises and changes nothing. -/
theorem atomicWriteReadonly_failsBefore (h : env.FailsBefore (disk target).isSome) :
    ∃ step, atomicWriteReadonly env target body disk = (.error step, disk) := by
  unfold atomicWriteReadonly
  by_cases hmkdir : env.fails .mkdir
  · exact ⟨_, if_pos hmkdir⟩
  · have hwiden := h.resolve_left hmkdir
    exact ⟨_, by rw [if_neg hmkdir, if_pos hwiden]⟩

/-- An operation of the `try` block raises: the target has been widened, and the `.tmp` file is
removed unless that fails as well. -/
theorem atomicWriteReadonly_tryBlock {step : ArchiveStep}
    (hbefore : ¬ env.FailsBefore (disk target).isSome)
    (hstep : ArchiveStep.tryBlock.find? env.fails = some step) :
    ∃ raised, atomicWriteReadonly env target body disk = (.error raised,
      Function.update (widenTarget target disk) (archiveTmp target)
        (if env.fails .unlink then leftInTmp env target body (widenTarget target disk) step
          else none)) := by
  obtain ⟨hmkdir, hwiden⟩ := not_or.mp hbefore
  unfold atomicWriteReadonly
  rw [if_neg hmkdir, if_neg hwiden]
  unfold ArchiveStep.tryBlock at hstep
  simp only [hstep]
  split_ifs with hunlink
  · exact ⟨_, rfl⟩
  · exact ⟨_, rfl⟩

end Outcomes

/-- The archive is kept exactly when no operation up to the rename raises, or one before the
`try` block does and no `.tmp` file was there, or one in it does, the target was absent or had
mode `0o644`, and the `.tmp` file either could be removed or never came to be. -/
theorem archiveKept_iff (env : ArchiveEnv α) (target : String) (body : α)
    (disk : ArchiveDisk α) :
    ArchiveKept env target body disk ↔
      if env.FailsBefore (disk target).isSome then disk (archiveTmp target) = none
      else ∀ step, ArchiveStep.tryBlock.find? env.fails = some step →
        (∀ file, disk target = some file → file.mode = 0o644) ∧
          (env.fails .unlink → step = .openTmp ∧ disk (archiveTmp target) = none) := by
  have hreturns := fun h => (@atomicWriteReadonly_ok _ env target body disk h).1
  unfold ArchiveKept
  rw [and_iff_left hreturns]
  by_cases hbefore : env.FailsBefore (disk target).isSome
  · obtain ⟨step, hout⟩ := atomicWriteReadonly_failsBefore body hbefore
    rw [if_pos hbefore, hout]
    constructor
    · intro h
      exact (h (Or.inl hbefore)).2.2
    · intro htmp _
      exact ⟨⟨step, rfl⟩, rfl, htmp⟩
  rw [if_neg hbefore]
  cases hfind : ArchiveStep.tryBlock.find? env.fails with
  | none =>
    have hcalm : ¬ env.Interrupts (disk target).isSome :=
      not_or.mpr ⟨hbefore, (find?_tryBlock_eq_none env).mp hfind⟩
    constructor
    · intro _ step hstep
      cases hstep
    · intro _ h
      exact absurd h hcalm
  | some step =>
    have hmem := List.mem_of_find?_eq_some hfind
    have hinterrupts : env.Interrupts (disk target).isSome :=
      Or.inr ⟨step, hmem, List.find?_some hfind⟩
    obtain ⟨raised, hout⟩ := atomicWriteReadonly_tryBlock body hbefore hfind
    have htarget : (atomicWriteReadonly env target body disk).2 target =
        widenTarget target disk target := by
      rw [hout]
      exact Function.update_of_ne (archiveTmp_ne target).symm _ _
    have htmp : (atomicWriteReadonly env target body disk).2 (archiveTmp target) = none ↔
        (env.fails .unlink → step = .openTmp ∧ disk (archiveTmp target) = none) := by
      rw [hout]
      simp only [Function.update_self]
      split_ifs with hunlink
      · rw [leftInTmp_eq_none _ _ _ _ hmem, widenTarget_tmp]
        simp [hunlink]
      · simp [hunlink]
    simp only [hinterrupts, true_imp_iff, Option.some.injEq, forall_eq', htarget,
      widenTarget_self_iff, htmp]
    constructor
    · intro h
      exact h.2
    · intro h
      exact ⟨⟨raised, by rw [hout]⟩, h⟩

/-- A disk full while an archived segment is written again: the segment is left writable. -/
theorem archiveKept_not_of_write_fails :
    ¬ ArchiveKept ⟨fun step => step = .write, "", 0o644⟩ "segment.json" "new"
      (fun path => if path = "segment.json" then some ⟨"old", 0o444⟩ else none) := by
  intro h
  obtain ⟨-, htarget, -⟩ := h.1 (Or.inr ⟨.write, by decide, rfl⟩)
  have htmp : archiveTmp "segment.json" ≠ "segment.json" := by decide
  simp [atomicWriteReadonly, widenTarget, htmp.symm] at htarget

end Interrupted

end Athena
