import Mathlib.Data.List.Basic
import Mathlib.Data.List.Forall2
import Mathlib.Tactic

/-!
# Words that can be read off the front of a text

A word is read off if the text it begins determines it, and the rest with it.
What may follow a word is restricted: some words end only where the next symbol
cannot belong to them. Reading off passes from the members of a list to the
list, both for a terminated and for a separated list.
-/

namespace PrefixCode

variable {α β γ : Type*}

/-- Whatever word of the code begins the same text as the word of `a` is the word of an
`R`-equal value, with the same rest. -/
def ReadOff (follows : List α → Prop) (code : Set β) (word : β → List α) (R : β → β → Prop)
    (a : β) : Prop :=
  ∀ b ∈ code, ∀ r s, follows r → follows s → word a ++ r = word b ++ s → R a b ∧ r = s

/-- No word of the code begins with the symbol. -/
def Avoids (code : Set β) (word : β → List α) (x : α) : Prop :=
  ∀ b ∈ code, ∀ r s, word b ++ r ≠ x :: s

theorem Avoids.of_head {code : Set β} {word : β → List α} {x : α}
    (h : ∀ b ∈ code, ∃ y w, word b = y :: w ∧ y ≠ x) : Avoids code word x := by
  intro b hb r s heq
  obtain ⟨y, w, hword, hne⟩ := h b hb
  rw [hword] at heq
  exact hne (List.cons.inj heq).1

theorem run_append_inj {p : α → Prop} {a b r s : List α} (ha : ∀ x ∈ a, p x) (hb : ∀ x ∈ b, p x)
    (hr : ∀ x ∈ r.head?, ¬ p x) (hs : ∀ x ∈ s.head?, ¬ p x) (h : a ++ r = b ++ s) :
    a = b ∧ r = s := by
  induction a generalizing b with
  | nil =>
    cases b with
    | nil => exact ⟨rfl, h⟩
    | cons y b =>
      rw [List.nil_append] at h
      exact absurd (hb y List.mem_cons_self) (hr y (by rw [h]; rfl))
  | cons x a ih =>
    cases b with
    | nil =>
      rw [List.nil_append] at h
      exact absurd (ha x List.mem_cons_self) (hs x (by rw [← h]; rfl))
    | cons y b =>
      obtain ⟨hxy, hrest⟩ := List.cons.inj h
      obtain ⟨hab, hrs⟩ := ih (fun z hz => ha z (List.mem_cons_of_mem _ hz))
        (fun z hz => hb z (List.mem_cons_of_mem _ hz)) hrest
      exact ⟨by rw [hxy, hab], hrs⟩

section Lists

variable {follows : List α → Prop} {code : Set β} {word : β → List α} {R : β → β → Prop}

/-- A concatenation of words is read off up to a terminator that begins no word. -/
theorem flatMap_terminated {stop : α} (hstop : Avoids code word stop)
    {xs ys : List β} (hxs : ∀ x ∈ xs, x ∈ code ∧ ReadOff (fun _ => True) code word R x)
    (hys : ∀ y ∈ ys, y ∈ code) {r s : List α}
    (h : xs.flatMap word ++ stop :: r = ys.flatMap word ++ stop :: s) :
    List.Forall₂ R xs ys ∧ r = s := by
  induction xs generalizing ys with
  | nil =>
    cases ys with
    | nil => exact ⟨.nil, (List.cons.inj h).2⟩
    | cons y ys =>
      rw [List.flatMap_cons, List.append_assoc] at h
      exact absurd h.symm (hstop y (hys y List.mem_cons_self) _ _)
  | cons x xs ih =>
    have hx := hxs x List.mem_cons_self
    cases ys with
    | nil =>
      rw [List.flatMap_cons, List.append_assoc] at h
      exact absurd h (hstop x hx.1 _ _)
    | cons y ys =>
      rw [List.flatMap_cons, List.flatMap_cons, List.append_assoc, List.append_assoc] at h
      obtain ⟨hxy, hrest⟩ := hx.2 y (hys y List.mem_cons_self) _ _ trivial trivial h
      obtain ⟨htail, hrs⟩ := ih (fun z hz => hxs z (List.mem_cons_of_mem _ hz))
        (fun z hz => hys z (List.mem_cons_of_mem _ hz)) hrest
      exact ⟨.cons hxy htail, hrs⟩

theorem follows_tail {sep stop : α} (hsep : ∀ r, follows (sep :: r))
    (hstop : ∀ r, follows (stop :: r)) (xs : List β) (r : List α) :
    follows (xs.flatMap (fun x => sep :: word x) ++ stop :: r) := by
  cases xs with
  | nil => exact hstop r
  | cons x xs => exact hsep _

theorem tail_separated {sep stop : α} (hne : sep ≠ stop) (hsep : ∀ r, follows (sep :: r))
    (hstop : ∀ r, follows (stop :: r)) {xs ys : List β}
    (hxs : ∀ x ∈ xs, ReadOff follows code word R x) (hys : ∀ y ∈ ys, y ∈ code) {r s : List α}
    (h : xs.flatMap (fun x => sep :: word x) ++ stop :: r =
      ys.flatMap (fun y => sep :: word y) ++ stop :: s) :
    List.Forall₂ R xs ys ∧ r = s := by
  induction xs generalizing ys with
  | nil =>
    cases ys with
    | nil => exact ⟨.nil, (List.cons.inj h).2⟩
    | cons y ys => exact absurd (List.cons.inj h).1.symm hne
  | cons x xs ih =>
    cases ys with
    | nil => exact absurd (List.cons.inj h).1 hne
    | cons y ys =>
      rw [List.flatMap_cons, List.flatMap_cons, List.cons_append, List.cons_append,
        List.cons_append, List.cons_append, List.append_assoc, List.append_assoc] at h
      obtain ⟨hxy, hrest⟩ := hxs x List.mem_cons_self y (hys y List.mem_cons_self) _ _
        (follows_tail hsep hstop xs r) (follows_tail hsep hstop ys s) (List.cons.inj h).2
      obtain ⟨htail, hrs⟩ := ih (fun z hz => hxs z (List.mem_cons_of_mem _ hz))
        (fun z hz => hys z (List.mem_cons_of_mem _ hz)) hrest
      exact ⟨.cons hxy htail, hrs⟩

theorem intercalate_cons (sep : α) (x : β) (xs : List β) :
    List.intercalate [sep] ((x :: xs).map word) =
      word x ++ xs.flatMap fun y => sep :: word y := by
  induction xs generalizing x with
  | nil => simp
  | cons y ys ih =>
    rw [List.map_cons, List.map_cons, List.intercalate_cons_cons, ← List.map_cons, ih y,
      List.flatMap_cons, List.append_assoc, List.singleton_append, List.cons_append]

/-- A separated list is read off up to its end, if no member begins like the end. -/
theorem separated {sep stop : α} (hne : sep ≠ stop) (hsep : ∀ r, follows (sep :: r))
    (hstop : ∀ r, follows (stop :: r)) (havoid : Avoids code word stop) {xs ys : List β}
    (hxs : ∀ x ∈ xs, x ∈ code ∧ ReadOff follows code word R x) (hys : ∀ y ∈ ys, y ∈ code)
    {r s : List α}
    (h : List.intercalate [sep] (xs.map word) ++ stop :: r =
      List.intercalate [sep] (ys.map word) ++ stop :: s) :
    List.Forall₂ R xs ys ∧ r = s := by
  cases xs with
  | nil =>
    cases ys with
    | nil => exact ⟨.nil, (List.cons.inj h).2⟩
    | cons y ys =>
      rw [intercalate_cons, List.append_assoc] at h
      exact absurd h.symm (havoid y (hys y List.mem_cons_self) _ _)
  | cons x xs =>
    have hx := hxs x List.mem_cons_self
    cases ys with
    | nil =>
      rw [intercalate_cons, List.append_assoc] at h
      exact absurd h (havoid x hx.1 _ _)
    | cons y ys =>
      rw [intercalate_cons, intercalate_cons, List.append_assoc, List.append_assoc] at h
      obtain ⟨hxy, hrest⟩ :=
        hx.2 y (hys y List.mem_cons_self) _ _ (follows_tail hsep hstop xs r)
          (follows_tail hsep hstop ys s) h
      obtain ⟨htail, hrs⟩ := tail_separated hne hsep hstop
        (fun z hz => (hxs z (List.mem_cons_of_mem _ hz)).2)
        (fun z hz => hys z (List.mem_cons_of_mem _ hz)) hrest
      exact ⟨.cons hxy htail, hrs⟩

end Lists

theorem ReadOff.pair {follows : List α → Prop} {codeA : Set β} {codeB : Set γ}
    {wordA : β → List α} {wordB : γ → List α} {S : β → β → Prop} {R : γ → γ → Prop} {mid : α}
    {p : β × γ} (hA : ReadOff (fun _ => True) codeA wordA S p.1)
    (hB : ReadOff follows codeB wordB R p.2) :
    ReadOff follows {q | q.1 ∈ codeA ∧ q.2 ∈ codeB} (fun q => wordA q.1 ++ mid :: wordB q.2)
      (fun q q' => S q.1 q'.1 ∧ R q.2 q'.2) p := by
  rintro q ⟨hqA, hqB⟩ r s hr hs h
  rw [List.append_assoc, List.append_assoc] at h
  obtain ⟨hfst, hrest⟩ := hA q.1 hqA _ _ trivial trivial h
  obtain ⟨hsnd, hrs⟩ := hB q.2 hqB r s hr hs (List.cons.inj hrest).2
  exact ⟨⟨hfst, hsnd⟩, hrs⟩

end PrefixCode
