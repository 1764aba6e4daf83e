import Mathlib.Data.List.Basic
import Mathlib.Data.List.Forall2
import Mathlib.Tactic

/-!
# Readers by recursive descent

A reader takes a value off the front of a text and leaves less of it. Readers
that call themselves on what is left are fixed points; they are built with as
much fuel as the text has symbols, and the fixed-point equation shows that the
fuel is never used up. A reader recovers a value from a word if it reads it off
whatever follows; and what it has read it reads again when the text goes on.
-/

namespace RecursiveDescent

/-- A reader of values in front of a text, which it shortens when it succeeds. -/
structure Reader (ε α β : Type*) where
  run : List α → Except ε (β × List α)
  shortens : ∀ {s b r}, run s = .ok (b, r) → r.length < s.length

variable {ε α β γ : Type*}

namespace Reader

@[ext] theorem ext {p q : Reader ε α β} (h : ∀ s, p.run s = q.run s) : p = q := by
  cases p
  cases q
  congr
  exact funext h

def fail (e : ε) : Reader ε α β := ⟨fun _ => .error e, nofun⟩

/-- A first value, and what it makes of the rest. -/
def andThen (p : Reader ε α β) (f : β → List α → Except ε (γ × List α))
    (hf : ∀ {b s c r}, f b s = .ok (c, r) → r.length ≤ s.length) : Reader ε α γ where
  run s := (p.run s).bind fun x => f x.1 x.2
  shortens := by
    intro s c r h
    cases hp : p.run s with
    | error e => rw [hp] at h; cases h
    | ok x =>
      rw [hp] at h
      exact lt_of_le_of_lt (hf h) (p.shortens hp)

end Reader

section Descent

/-- The value of the step at a text depends on shorter texts only. -/
def Guarded (step : Reader ε α β → Reader ε α β) : Prop :=
  ∀ p q s, (∀ t : List α, t.length < s.length → p.run t = q.run t) →
    (step p).run s = (step q).run s

/-- As many rounds of the step as there is fuel. -/
def rounds (e : ε) (step : Reader ε α β → Reader ε α β) : ℕ → Reader ε α β
  | 0 => .fail e
  | n + 1 => step (rounds e step n)

theorem rounds_congr {e : ε} {step : Reader ε α β → Reader ε α β} (hstep : Guarded step) {m n : ℕ}
    {s : List α} (hm : s.length < m) (hn : s.length < n) :
    (rounds e step m).run s = (rounds e step n).run s := by
  induction m generalizing n s with
  | zero => omega
  | succ m ih =>
    cases n with
    | zero => omega
    | succ n =>
      apply hstep
      intro t ht
      exact ih (by omega) (by omega)

/-- The reader that calls itself through the step. -/
def descend (e : ε) (step : Reader ε α β → Reader ε α β) : Reader ε α β where
  run s := (rounds e step (s.length + 1)).run s
  shortens h := (rounds e step _).shortens h

theorem descend_run {e : ε} {step : Reader ε α β → Reader ε α β} (hstep : Guarded step)
    (s : List α) : (descend e step).run s = (step (descend e step)).run s := by
  apply hstep
  intro t ht
  exact rounds_congr hstep ht (Nat.lt_succ_self _)

end Descent

/-- The reader gives the value for the word in front of whatever may follow. -/
def Recovers (p : Reader ε α β) (follows : List α → Prop) (word : List α) (b : β) : Prop :=
  ∀ r, follows r → p.run (word ++ r) = .ok (b, r)

def StopsAt (stop : α → Prop) (r : List α) : Prop := ∃ c t, r = c :: t ∧ stop c

/-- What is read in front of a stop symbol is read likewise when the text goes on. -/
def Stable (p : Reader ε α β) (stop : α → Prop) : Prop :=
  ∀ s b r t, p.run s = .ok (b, r) → StopsAt stop r → p.run (s ++ t) = .ok (b, r ++ t)

/-- What is read is read likewise when the text goes on. -/
def Closed (p : Reader ε α β) : Prop :=
  ∀ s b r t, p.run s = .ok (b, r) → p.run (s ++ t) = .ok (b, r ++ t)

/-- A reader that calls itself is stable if its step passes stability on. -/
theorem descend_stable {e : ε} {step : Reader ε α β → Reader ε α β} {stop : α → Prop}
    (hstep : Guarded step) (hstable : ∀ p, Stable p stop → Stable (step p) stop) :
    Stable (descend e step) stop := by
  have hrounds : ∀ n, Stable (rounds e step n) stop := by
    intro n
    induction n with
    | zero => exact fun s b r t h _ => nomatch h
    | succ n ih => exact hstable _ ih
  intro s b r t h hr
  have hmore : (rounds e step ((s ++ t).length + 1)).run s = .ok (b, r) := by
    rw [← h]
    exact rounds_congr hstep (by rw [List.length_append]; omega) (Nat.lt_succ_self _)
  exact hrounds _ s b r t hmore hr

section Blanks

variable {blank : α → Bool}

theorem length_dropWhile_le (blank : α → Bool) (s : List α) :
    (s.dropWhile blank).length ≤ s.length :=
  (List.dropWhile_suffix blank).length_le

theorem dropWhile_gap {gap : List α} (hgap : ∀ c ∈ gap, blank c = true) {c : α}
    (hc : blank c = false) (r : List α) : (gap ++ c :: r).dropWhile blank = c :: r := by
  rw [List.dropWhile_append_of_pos hgap, List.dropWhile_cons, hc]
  rfl

theorem dropWhile_append_of_cons {s t r : List α} {c : α} (h : s.dropWhile blank = c :: r) :
    (s ++ t).dropWhile blank = c :: (r ++ t) := by
  rw [List.dropWhile_append, h]
  rfl

theorem stopsAt_of_dropWhile {stop : α → Prop} {s r : List α} {c : α}
    (hblank : ∀ d, blank d = true → stop d) (hc : stop c) (h : s.dropWhile blank = c :: r) :
    StopsAt stop s := by
  cases s with
  | nil => cases h
  | cons d s =>
    rw [List.dropWhile_cons] at h
    cases hd : blank d with
    | true => exact ⟨d, s, rfl, hblank d hd⟩
    | false =>
      rw [hd] at h
      obtain ⟨hdc, -⟩ := List.cons.inj h
      exact ⟨d, s, rfl, hdc ▸ hc⟩

/-- Blanks that stand in front of a value are skipped likewise when the text goes on. -/
theorem dropWhile_append_of_run {p : Reader ε α β} {s r : List α} {b : β}
    (h : p.run (s.dropWhile blank) = .ok (b, r)) (t : List α) :
    (s ++ t).dropWhile blank = s.dropWhile blank ++ t := by
  cases hs : s.dropWhile blank with
  | nil =>
    rw [hs] at h
    exact absurd (p.shortens h) (Nat.not_lt_zero _)
  | cons c u => exact dropWhile_append_of_cons hs

theorem intercalate_front {gap : List α} {word : γ → List α} {x : γ} {c : α} {w : List α}
    (hw : word x = c :: w) (xs : List γ) :
    ∃ u, List.intercalate gap ((x :: xs).map word) = c :: u := by
  cases xs with
  | nil => exact ⟨w, by simp [hw]⟩
  | cons y ys =>
    rw [List.map_cons, List.map_cons, List.intercalate_cons_cons, hw]
    exact ⟨_, rfl⟩

end Blanks

section Until

variable [DecidableEq α] (e : ε) (close : α) (p : Reader ε α β)

/-- One value, unless the closing symbol comes first, and then the others. -/
def untilStep (others : Reader ε α (List β)) : Reader ε α (List β) where
  run
    | [] => .error e
    | c :: s =>
      if c = close then .ok ([], s)
      else do
        let (b, rest) ← p.run (c :: s)
        let (bs, rest) ← others.run rest
        return (b :: bs, rest)
  shortens := by
    intro s bs r h
    cases s with
    | nil => cases h
    | cons c s =>
      dsimp only at h
      split_ifs at h with hc
      · cases h
        exact Nat.lt_succ_self _
      · cases hp : p.run (c :: s) with
        | error e => rw [hp] at h; cases h
        | ok x =>
          rw [hp] at h
          have hx := p.shortens hp
          cases hq : others.run x.2 with
          | error e => simp [bind, Except.bind, hq] at h
          | ok y =>
            have hy := others.shortens hq
            simp only [bind, Except.bind, hq, pure, Except.pure, Except.ok.injEq,
              Prod.mk.injEq] at h
            rw [← h.2]
            omega

def readUntil : Reader ε α (List β) := descend e (untilStep e close p)

theorem untilStep_guarded : Guarded (untilStep e close p) := by
  intro q q' s h
  cases s with
  | nil => rfl
  | cons c s =>
    simp only [untilStep]
    split_ifs
    · rfl
    · cases hp : p.run (c :: s) with
      | error e => rfl
      | ok x => simp only [bind, Except.bind, h x.2 (p.shortens hp)]

theorem readUntil_run (s : List α) :
    (readUntil e close p).run s = (untilStep e close p (readUntil e close p)).run s :=
  descend_run (untilStep_guarded e close p) s

variable {e close p}

theorem readUntil_close (s : List α) : (readUntil e close p).run (close :: s) = .ok ([], s) := by
  rw [readUntil_run]
  exact if_pos rfl

theorem readUntil_cons {s rest rest' : List α} {c : α} {b : β} {bs : List β} (hc : c ≠ close)
    (hp : p.run (c :: s) = .ok (b, rest))
    (hrest : (readUntil e close p).run rest = .ok (bs, rest')) :
    (readUntil e close p).run (c :: s) = .ok (b :: bs, rest') := by
  rw [readUntil_run]
  simp only [untilStep, if_neg hc, hp, bind, Except.bind, hrest]
  rfl

theorem readUntil_cases {s r : List α} {bs : List β}
    (h : (readUntil e close p).run s = .ok (bs, r)) :
    (bs = [] ∧ s = close :: r) ∨ ∃ c t b rest bs', s = c :: t ∧ c ≠ close ∧
      p.run s = .ok (b, rest) ∧ (readUntil e close p).run rest = .ok (bs', r) ∧ bs = b :: bs' := by
  rw [readUntil_run] at h
  cases s with
  | nil => cases h
  | cons c s =>
    simp only [untilStep] at h
    split_ifs at h with hc
    · cases h
      exact .inl ⟨rfl, by rw [hc]⟩
    · right
      cases hp : p.run (c :: s) with
      | error e => rw [hp] at h; cases h
      | ok x =>
        cases hq : (readUntil e close p).run x.2 with
        | error e => simp [bind, Except.bind, hp, hq] at h
        | ok y =>
          simp only [bind, Except.bind, hp, hq, pure, Except.pure, Except.ok.injEq,
            Prod.mk.injEq] at h
          exact ⟨c, s, x.1, x.2, y.1, rfl, hc, rfl, by rw [hq, ← h.2], h.1.symm⟩

/-- Words that do not begin with the closing symbol, each read in front of those that follow it,
are recovered up to that symbol. -/
theorem readUntil_recovers {word : γ → List α} {value : γ → β} {xs : List γ}
    (hhead : ∀ x ∈ xs, ∃ c w, word x = c :: w ∧ c ≠ close)
    (hword : ∀ x ys r, x :: ys <:+ xs → p.run (word x ++ (ys.flatMap word ++ close :: r)) =
      .ok (value x, ys.flatMap word ++ close :: r)) :
    Recovers (readUntil e close p) (fun _ => True) (xs.flatMap word ++ [close])
      (xs.map value) := by
  intro r _
  rw [List.append_assoc, List.singleton_append]
  induction xs with
  | nil => exact readUntil_close r
  | cons x xs ih =>
    obtain ⟨c, w, hw, hc⟩ := hhead x List.mem_cons_self
    have hread := hword x xs r (List.suffix_refl _)
    have hrest := ih (fun y hy => hhead y (List.mem_cons_of_mem _ hy))
      (fun y ys r hys => hword y ys r (hys.trans (List.suffix_cons x xs)))
    rw [List.flatMap_cons, List.append_assoc, List.map_cons]
    rw [hw] at hread ⊢
    exact readUntil_cons hc hread hrest

/-- If a value is stable where another one or the closing symbol follows, the list of them is
closed. -/
theorem readUntil_closed
    (hp : ∀ s b r t, p.run s = .ok (b, r) → (∃ r', r = close :: r') ∨ (∃ x, p.run r = .ok x) →
      p.run (s ++ t) = .ok (b, r ++ t)) : Closed (readUntil e close p) := by
  intro s bs
  induction bs generalizing s with
  | nil =>
    intro r t h
    rcases readUntil_cases h with ⟨-, rfl⟩ | ⟨_, _, _, _, _, _, _, _, _, hbs⟩
    · exact readUntil_close _
    · cases hbs
  | cons b bs ih =>
    intro r t h
    rcases readUntil_cases h with ⟨hbs, -⟩ | ⟨c, u, b', rest, bs', rfl, hc, hread, hrest, hbs⟩
    · cases hbs
    · cases hbs
      have hnext : (∃ r', rest = close :: r') ∨ ∃ x, p.run rest = .ok x := by
        rcases readUntil_cases hrest with ⟨-, hclose⟩ | ⟨_, _, _, _, _, _, _, hnext, _, _⟩
        · exact .inl ⟨r, hclose⟩
        · exact .inr ⟨_, hnext⟩
      exact readUntil_cons hc (hp _ _ _ t hread hnext) (ih rest r t hrest)

end Until

section Items

variable [DecidableEq α] (e : ε) (blank : α → Bool) (sep close : α) (p : Reader ε α β)

/-- What stands behind an item: blanks, and the closing symbol or a separator before others. -/
def behindItem (others : Reader ε α (List β)) (b : β) (s : List α) :
    Except ε (List β × List α) :=
  match s.dropWhile blank with
  | [] => .error e
  | c :: rest =>
    if c = close then .ok ([b], rest)
    else if c = sep then do
      let (bs, rest) ← others.run (rest.dropWhile blank)
      return (b :: bs, rest)
    else .error e

theorem behindItem_shortens {others : Reader ε α (List β)} {b : β} {s r : List α} {bs : List β}
    (h : behindItem e blank sep close others b s = .ok (bs, r)) : r.length ≤ s.length := by
  have hs := length_dropWhile_le blank s
  unfold behindItem at h
  cases hd : s.dropWhile blank with
  | nil => rw [hd] at h; cases h
  | cons c rest =>
    rw [hd] at h hs
    rw [List.length_cons] at hs
    dsimp only at h
    split_ifs at h with hclose hsep
    · cases h
      omega
    · have hrest := length_dropWhile_le blank rest
      cases hq : others.run (rest.dropWhile blank) with
      | error e => simp [bind, Except.bind, hq] at h
      | ok y =>
        have hy := others.shortens hq
        simp only [bind, Except.bind, hq, pure, Except.pure, Except.ok.injEq, Prod.mk.injEq] at h
        rw [← h.2]
        omega

def itemsStep (others : Reader ε α (List β)) : Reader ε α (List β) :=
  p.andThen (behindItem e blank sep close others) (behindItem_shortens e blank sep close)

def readItems : Reader ε α (List β) := descend e (itemsStep e blank sep close p)

theorem behindItem_congr {q q' : Reader ε α (List β)} {s : List α} (b : β)
    (h : ∀ t : List α, t.length < s.length → q.run t = q'.run t) :
    behindItem e blank sep close q b s = behindItem e blank sep close q' b s := by
  unfold behindItem
  cases hd : s.dropWhile blank with
  | nil => rfl
  | cons c rest =>
    have hs := length_dropWhile_le blank s
    have hrest := length_dropWhile_le blank rest
    rw [hd, List.length_cons] at hs
    simp only [h (rest.dropWhile blank) (by omega)]

theorem itemsStep_guarded : Guarded (itemsStep e blank sep close p) := by
  intro q q' s h
  simp only [itemsStep, Reader.andThen]
  cases hp : p.run s with
  | error e => rfl
  | ok x =>
    have hx := p.shortens hp
    exact behindItem_congr e blank sep close x.1 fun t ht => h t (by omega)

theorem readItems_run (s : List α) : (readItems e blank sep close p).run s =
    (p.run s).bind fun x =>
      behindItem e blank sep close (readItems e blank sep close p) x.1 x.2 :=
  descend_run (itemsStep_guarded e blank sep close p) s

variable {e blank sep close p}

/-- Items are read alike by readers that agree on the text and the shorter ones. -/
theorem readItems_congr {p q : Reader ε α β} {s : List α}
    (h : ∀ t : List α, t.length ≤ s.length → p.run t = q.run t) :
    (readItems e blank sep close p).run s = (readItems e blank sep close q).run s := by
  induction hn : s.length using Nat.strong_induction_on generalizing s with
  | _ n ih =>
    rw [readItems_run, readItems_run, h s le_rfl]
    cases hq : q.run s with
    | error e => rfl
    | ok x =>
      have hx := q.shortens hq
      apply behindItem_congr
      intro t ht
      exact ih t.length (by omega) (fun u hu => h u (by omega)) rfl

theorem readItems_cases {s r : List α} {bs : List β}
    (h : (readItems e blank sep close p).run s = .ok (bs, r)) :
    ∃ b rest, p.run s = .ok (b, rest) ∧
      ((bs = [b] ∧ rest.dropWhile blank = close :: r) ∨
        ∃ rest' bs', sep ≠ close ∧ rest.dropWhile blank = sep :: rest' ∧ bs = b :: bs' ∧
          (readItems e blank sep close p).run (rest'.dropWhile blank) = .ok (bs', r)) := by
  rw [readItems_run] at h
  cases hp : p.run s with
  | error e => rw [hp] at h; cases h
  | ok x =>
    refine ⟨x.1, x.2, rfl, ?_⟩
    rw [hp] at h
    simp only [Except.bind, behindItem] at h
    cases hd : x.2.dropWhile blank with
    | nil => rw [hd] at h; cases h
    | cons c rest =>
      rw [hd] at h
      dsimp only at h
      split_ifs at h with hclose hsep
      · cases h
        exact .inl ⟨rfl, by rw [hclose]⟩
      · right
        cases hq : (readItems e blank sep close p).run (rest.dropWhile blank) with
        | error e => simp [bind, Except.bind, hq] at h
        | ok y =>
          simp only [bind, Except.bind, hq, pure, Except.pure, Except.ok.injEq,
            Prod.mk.injEq] at h
          exact ⟨rest, y.1, hsep ▸ hclose, by rw [hsep], h.1.symm, by rw [hq, ← h.2]⟩

theorem readItems_last {s rest r : List α} {b : β} (hp : p.run s = .ok (b, rest))
    (hrest : rest.dropWhile blank = close :: r) :
    (readItems e blank sep close p).run s = .ok ([b], r) := by
  rw [readItems_run, hp]
  simp only [Except.bind, behindItem, hrest, if_true]

theorem readItems_more {s rest rest' r : List α} {b : β} {bs : List β} (hne : sep ≠ close)
    (hp : p.run s = .ok (b, rest)) (hrest : rest.dropWhile blank = sep :: rest')
    (hbs : (readItems e blank sep close p).run (rest'.dropWhile blank) = .ok (bs, r)) :
    (readItems e blank sep close p).run s = .ok (b :: bs, r) := by
  rw [readItems_run, hp]
  simp only [Except.bind, behindItem, hrest, if_neg hne, if_true, bind, hbs]
  rfl

/-- Items with a separator and blanks between them are recovered up to the closing symbol. -/
theorem readItems_recovers {follows : List α → Prop} {word : γ → List α} {value : γ → β}
    {gap gap' : List α} {x : γ} {xs : List γ} (hne : sep ≠ close)
    (hsep : blank sep = false) (hclose : blank close = false)
    (hgap : ∀ c ∈ gap, blank c = true) (hgap' : ∀ c ∈ gap', blank c = true)
    (hfollows : ∀ r, follows (sep :: r)) (hfollows' : ∀ r, follows (gap' ++ close :: r))
    (hhead : ∀ y ∈ x :: xs, ∃ c w, word y = c :: w ∧ blank c = false)
    (hword : ∀ y ∈ x :: xs, Recovers p follows (word y) (value y)) :
    Recovers (readItems e blank sep close p) (fun _ => True)
      (List.intercalate (sep :: gap) ((x :: xs).map word) ++ gap' ++ [close])
      ((x :: xs).map value) := by
  intro r _
  induction xs generalizing x with
  | nil =>
    have hread := hword x List.mem_cons_self _ (hfollows' r)
    have hrest := dropWhile_gap hgap' hclose r
    simpa using readItems_last hread hrest
  | cons y ys ih =>
    obtain ⟨c, w, hw, hc⟩ := hhead y (by simp)
    have htail := ih (fun z hz => hhead z (List.mem_cons_of_mem _ hz))
      (fun z hz => hword z (List.mem_cons_of_mem _ hz))
    have hread := hword x List.mem_cons_self
      (sep :: (gap ++ (List.intercalate (sep :: gap) ((y :: ys).map word) ++ gap' ++ [close] ++ r)))
      (hfollows _)
    have hskip : (gap ++ (List.intercalate (sep :: gap) ((y :: ys).map word) ++ gap' ++ [close] ++
        r)).dropWhile blank =
          List.intercalate (sep :: gap) ((y :: ys).map word) ++ gap' ++ [close] ++ r := by
      obtain ⟨w', hw'⟩ := @intercalate_front _ _ (sep :: gap) _ _ _ _ hw ys
      rw [hw']
      exact dropWhile_gap hgap hc _
    have hfront := @dropWhile_gap α blank [] (by simp) sep hsep (gap ++ (List.intercalate
      (sep :: gap) ((y :: ys).map word) ++ gap' ++ [close] ++ r))
    have hall := readItems_more hne hread hfront (by rw [hskip]; exact htail)
    rw [List.map_cons, List.map_cons, List.intercalate_cons_cons, ← List.map_cons]
    simpa using hall

theorem readItems_closed {stop : α → Prop} (hp : Stable p stop)
    (hblank : ∀ c, blank c = true → stop c) (hsep : stop sep) (hclose : stop close) :
    Closed (readItems e blank sep close p) := by
  intro s bs
  induction bs generalizing s with
  | nil =>
    intro r t h
    obtain ⟨b, rest, -, ⟨hbs, -⟩ | ⟨_, _, _, _, hbs, _⟩⟩ := readItems_cases h
    all_goals cases hbs
  | cons b bs ih =>
    intro r t h
    obtain ⟨b', rest, hread, ⟨hbs, hdrop⟩ | ⟨rest', bs', hne, hdrop, hbs, hmore⟩⟩ :=
      readItems_cases h
    · cases hbs
      have hstop := stopsAt_of_dropWhile hblank hclose hdrop
      exact readItems_last (hp _ _ _ t hread hstop) (dropWhile_append_of_cons hdrop)
    · cases hbs
      have hstop := stopsAt_of_dropWhile hblank hsep hdrop
      have hnext : (rest' ++ t).dropWhile blank = rest'.dropWhile blank ++ t := by
        obtain ⟨_, _, hread', -⟩ := readItems_cases hmore
        exact dropWhile_append_of_run hread' t
      refine readItems_more hne (hp _ _ _ t hread hstop) (dropWhile_append_of_cons hdrop) ?_
      rw [hnext]
      exact ih _ _ t hmore

end Items

end RecursiveDescent
