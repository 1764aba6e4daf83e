import Mathlib.Data.List.Basic
import Mathlib.Tactic

/-!
# Hash chains

Entries carry their own seal and, except for the first one, the seal of their
predecessor. Nothing is assumed about how a seal is computed: an entry is
`valid` when its seal is the right one for its own fields.
-/

namespace HashChain

variable {ε δ : Type*} (prev : ε → Option δ) (this : ε → δ) (valid : ε → Prop)

/-- The entries continue a chain whose last seal is `last` (`none` at its start). -/
def Chained : Option δ → List ε → Prop
  | _, [] => True
  | last, e :: es => prev e = last ∧ valid e ∧ Chained (some (this e)) es

/-- The last seal after the entries, starting from `last`. -/
def tip (last : Option δ) : List ε → Option δ
  | [] => last
  | e :: es => tip (some (this e)) es

@[simp] theorem tip_nil (last : Option δ) : tip this last [] = last := rfl

@[simp] theorem tip_append_singleton (last : Option δ) (es : List ε) (e : ε) :
    tip this last (es ++ [e]) = some (this e) := by
  induction es generalizing last with
  | nil => rfl
  | cons a es ih => exact ih _

theorem tip_eq_getLast? (es : List ε) : tip this none es = es.getLast?.map this := by
  rcases List.eq_nil_or_concat' es with rfl | ⟨es, e, rfl⟩
  · rfl
  · simp

theorem tip_none_eq_none_iff (es : List ε) : tip this none es = none ↔ es = [] := by
  simp [tip_eq_getLast?]

variable {prev this valid}

theorem chained_append {last : Option δ} {es fs : List ε} :
    Chained prev this valid last (es ++ fs) ↔
      Chained prev this valid last es ∧ Chained prev this valid (tip this last es) fs := by
  induction es generalizing last with
  | nil => simp [Chained]
  | cons e es ih => simp [Chained, tip, ih, and_assoc]

theorem chained_snoc {last : Option δ} {es : List ε} {e : ε} :
    Chained prev this valid last (es ++ [e]) ↔
      Chained prev this valid last es ∧ prev e = tip this last es ∧ valid e := by
  simp [chained_append, Chained]

theorem Chained.valid_of_mem {last : Option δ} {es : List ε}
    (h : Chained prev this valid last es) {e : ε} (he : e ∈ es) : valid e := by
  induction es generalizing last with
  | nil => simp at he
  | cons a es ih =>
    rcases List.mem_cons.mp he with rfl | he
    · exact h.2.1
    · exact ih h.2.2 he

/-- Behind the start of the chain, a predecessor field is the seal of a valid entry. -/
theorem Chained.prev_of_mem {last : Option δ} {es : List ε}
    (h : Chained prev this valid last es) {e : ε} (he : e ∈ es) :
    prev e = last ∨ ∃ f ∈ es, valid f ∧ prev e = some (this f) := by
  induction es generalizing last with
  | nil => simp at he
  | cons a es ih =>
    rcases List.mem_cons.mp he with rfl | he
    · exact Or.inl h.1
    · rcases ih h.2.2 he with hp | ⟨f, hf, hv, hp⟩
      · exact Or.inr ⟨a, List.mem_cons_self, h.2.1, hp⟩
      · exact Or.inr ⟨f, List.mem_cons_of_mem _ hf, hv, hp⟩

theorem Chained.isChain {last : Option δ} {es : List ε} (h : Chained prev this valid last es) :
    es.IsChain fun a b => prev b = some (this a) := by
  induction es generalizing last with
  | nil => exact List.isChain_nil
  | cons a es ih =>
    cases es with
    | nil => exact List.isChain_singleton a
    | cons b es => exact List.isChain_cons_cons.mpr ⟨h.2.2.1, ih h.2.2⟩

/-- The commitment rule. When equal seals of valid entries force equal contents
(which include the predecessor), the tip of a chain determines its whole
sequence of contents, and in particular its length. -/
theorem contents_eq_of_tip_eq {γ : Type*} {content : ε → γ} {es fs : List ε}
    (hprev : ∀ e f, content e = content f → prev e = prev f)
    (hseal : ∀ e ∈ es, ∀ f ∈ fs, this e = this f → content e = content f)
    (hes : Chained prev this valid none es) (hfs : Chained prev this valid none fs)
    (htip : tip this none es = tip this none fs) : es.map content = fs.map content := by
  induction es using List.reverseRecOn generalizing fs with
  | nil =>
    have hnil : fs = [] := (tip_none_eq_none_iff this fs).mp htip.symm
    rw [hnil]
  | append_singleton es e ih =>
    rcases List.eq_nil_or_concat' fs with rfl | ⟨fs, f, rfl⟩
    · simp at htip
    · obtain ⟨hes', hpe, _⟩ := chained_snoc.mp hes
      obtain ⟨hfs', hpf, _⟩ := chained_snoc.mp hfs
      have hthis : this e = this f := by simpa using htip
      have hcontent : content e = content f := hseal e (by simp) f (by simp) hthis
      have htip' : tip this none es = tip this none fs := by
        rw [← hpe, ← hpf, hprev e f hcontent]
      have hrest := ih (fun a ha b hb => hseal a (by simp [ha]) b (by simp [hb])) hes' hfs' htip'
      simp [hrest, hcontent]

end HashChain
