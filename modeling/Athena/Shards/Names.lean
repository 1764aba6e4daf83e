import Athena.Shards.Immutability

/-!
# File names of symbols

The pattern of `_SYMBOL_VALID_RE` is meant to admit letters, digits, `_` and `-`
only. What it admits beyond them reaches the file name unchanged.
-/

namespace Athena

/-- What the documentation of `_SYMBOL_VALID_RE` admits. -/
def SafeSymbol (s : String) : Prop :=
  1 ≤ s.toList.length ∧ s.toList.length ≤ 32 ∧ (∀ c ∈ s.toList, isSymbolChar c) ∧
    s ≠ symbolNullSentinel

/-- A run of 1 to 32 legal characters, and a newline. -/
def NewlineSymbol (s : String) : Prop :=
  ∃ run : List Char, s.toList = run ++ [Char.ofNat 10] ∧ 1 ≤ run.length ∧ run.length ≤ 32 ∧
    ∀ c ∈ run, isSymbolChar c

def isNameChar (c : Char) : Bool := isSymbolChar c || c = '=' || c = '.'

def SafeName (name : String) : Prop := name.toList.all isNameChar

instance (name : String) : Decidable (SafeName name) :=
  inferInstanceAs (Decidable (name.toList.all isNameChar = true))

theorem symbolValid_of_run {s : String} {run rest : List Char} (hs : s.toList = run ++ rest)
    (hchars : ∀ c ∈ run, isSymbolChar c) (hrest : rest.takeWhile isSymbolChar = []) :
    symbolValid s = (1 ≤ run.length && run.length ≤ 32 && atEnd rest) := by
  have hdrop : rest.dropWhile isSymbolChar = rest := by
    have happend := List.takeWhile_append_dropWhile (p := isSymbolChar) (l := rest)
    rwa [hrest] at happend
  unfold symbolValid
  rw [hs, List.takeWhile_append_of_pos hchars, List.dropWhile_append_of_pos hchars, hrest, hdrop,
    List.append_nil]

theorem symbolValid_iff {s : String} :
    symbolValid s = true ↔
      (1 ≤ s.toList.length ∧ s.toList.length ≤ 32 ∧ ∀ c ∈ s.toList, isSymbolChar c) ∨
        NewlineSymbol s := by
  constructor
  · intro h
    have hsplit := (List.takeWhile_append_dropWhile (p := isSymbolChar) (l := s.toList)).symm
    have hchars : ∀ c ∈ s.toList.takeWhile isSymbolChar, isSymbolChar c :=
      fun c hc => List.mem_takeWhile_imp hc
    unfold symbolValid at h
    generalize s.toList.takeWhile isSymbolChar = run at *
    generalize s.toList.dropWhile isSymbolChar = rest at *
    simp only [Bool.and_eq_true, decide_eq_true_eq, atEnd, Bool.or_eq_true] at h
    obtain ⟨⟨hpos, hle⟩, rfl | rfl⟩ := h
    · rw [List.append_nil] at hsplit
      rw [hsplit]
      exact Or.inl ⟨hpos, hle, hchars⟩
    · exact Or.inr ⟨run, hsplit, hpos, hle, hchars⟩
  · rintro (⟨hpos, hle, hchars⟩ | ⟨run, hs, hpos, hle, hchars⟩)
    · rw [symbolValid_of_run (List.append_nil _).symm hchars rfl]
      simp [hpos, hle, atEnd]
    · rw [symbolValid_of_run hs hchars (by decide)]
      simp [hpos, hle, atEnd]

theorem NewlineSymbol.not_safe {s : String} (h : NewlineSymbol s) : ¬ SafeSymbol s := by
  rintro ⟨-, -, hchars, -⟩
  obtain ⟨run, hs, -⟩ := h
  have hnewline := hchars (Char.ofNat 10) (by rw [hs]; simp)
  exact absurd hnewline (by decide)

theorem NewlineSymbol.ne_sentinel {s : String} (h : NewlineSymbol s) : s ≠ symbolNullSentinel := by
  rintro rfl
  obtain ⟨run, hs, -⟩ := h
  have hmem : Char.ofNat 10 ∈ symbolNullSentinel.toList := by
    rw [hs]
    simp
  exact absurd hmem (by decide)

theorem validateSymbol_iff {s : String} :
    validateSymbol s = .ok () ↔ SafeSymbol s ∨ NewlineSymbol s := by
  rw [validateSymbol_eq_ok_iff, symbolValid_iff]
  constructor
  · rintro ⟨hne, ⟨hpos, hle, hchars⟩ | h⟩
    · exact Or.inl ⟨hpos, hle, hchars, hne⟩
    · exact Or.inr h
  · rintro (⟨hpos, hle, hchars, hne⟩ | h)
    · exact ⟨hne, Or.inl ⟨hpos, hle, hchars⟩⟩
    · exact ⟨h.ne_sentinel, Or.inr h⟩

theorem shardName_injective {part part' : String} (h : shardName part = shardName part') :
    part = part' := by
  simpa [shardName] using h

theorem safeName_shardName {part : String} (h : ∀ c ∈ part.toList, isSymbolChar c) :
    SafeName (shardName part) := by
  have hstart : "symbol=".toList.all isNameChar = true := by decide
  have hextension : ".parquet".toList.all isNameChar = true := by decide
  have hpart : part.toList.all isNameChar = true :=
    List.all_eq_true.mpr fun c hc => by simp [isNameChar, h c hc]
  rw [SafeName, shardName, String.toList_append, String.toList_append, List.all_append,
    List.all_append, hstart, hpart, hextension]
  rfl

section Calls

variable {β : Type} (codec : ParquetCodec β)

/-- The call, made on the tree `t`, creates the shard `p` for the symbol value: the path was
free, and at some moment it holds the rows of the window with that value, of which there are
some. -/
def ExportCall.Creates (call : ExportCall β) (t : Tree β) (sym : Option String) (p : Path) :
    Prop :=
  IsParquet p ∧ t.lookup p = none ∧ ∃ u ∈ (call.run codec t).2, ∃ content table lo hi,
    u.lookup p = some content ∧ Table.ofName? call.table = some table ∧
    exportWindow call.hourUtcStart = .ok (lo, hi) ∧
    codec.read content = some (table.withSymbol (table.queryWindow call.source lo hi) sym) ∧
    (table.withSymbol (table.queryWindow call.source lo hi) sym).rows ≠ []

/-- What is new in the tree after one of the file operations of a call. -/
theorem ExportCall.run_created (call : ExportCall β) {t u : Tree β}
    (hu : u ∈ (call.run codec t).2) {p : Path} (hp : IsParquet p) (hfree : t.lookup p = none)
    {content : β} (hlookup : u.lookup p = some content) :
    ∃ table lo hi sym part, Table.ofName? call.table = some table ∧
      exportWindow call.hourUtcStart = .ok (lo, hi) ∧
      (table.withSymbol (table.queryWindow call.source lo hi) sym).rows ≠ [] ∧
      partSym sym = .ok part ∧
      p = shardPath (partitionDir table call.hourUtcStart.date call.hourUtcStart.hour) part ∧
      codec.read content = some (table.withSymbol (table.queryWindow call.source lo hi) sym) := by
  have hchain := @ExportCall.run_isChain β codec (fun p content =>
      ∃ table lo hi sym part, Table.ofName? call.table = some table ∧
        exportWindow call.hourUtcStart = .ok (lo, hi) ∧
        (table.withSymbol (table.queryWindow call.source lo hi) sym).rows ≠ [] ∧
        partSym sym = .ok part ∧
        p = shardPath (partitionDir table call.hourUtcStart.date call.hourUtcStart.hour) part ∧
        codec.read content = some (table.withSymbol (table.queryWindow call.source lo hi) sym))
    call t fun table lo hi sym part nonce htable hwindow hrows hpart =>
      ⟨table, lo, hi, sym, part, htable, hwindow, hrows, hpart, rfl, codec.read_write _ _⟩
  exact ((List.pairwise_cons.mp (WriteOnce.pairwise_extends hchain)).1 u hu).complete
    p content hp hfree hlookup

theorem ExportCall.exists_creates (call : ExportCall β) {t u : Tree β}
    (hu : u ∈ (call.run codec t).2) {p : Path} (hp : IsParquet p) (hfree : t.lookup p = none)
    {content : β} (hlookup : u.lookup p = some content) : ∃ sym, call.Creates codec t sym p := by
  obtain ⟨table, lo, hi, sym, part, htable, hwindow, hrows, -, -, hread⟩ :=
    call.run_created codec hu hp hfree hlookup
  exact ⟨sym, hp, hfree, u, hu, content, table, lo, hi, hlookup, htable, hwindow, hread, hrows⟩

theorem ExportCall.Creates.name {call : ExportCall β} {t : Tree β} {sym : Option String}
    {p : Path} (h : call.Creates codec t sym p) :
    ∃ part, partSym sym = .ok part ∧ p.getLast? = some (shardName part) := by
  obtain ⟨hp, hfree, u, hu, content, table, lo, hi, hlookup, htable, hwindow, hread, hrows⟩ := h
  obtain ⟨table', lo', hi', sym', part, htable', hwindow', -, hpart, rfl, hread'⟩ :=
    call.run_created codec hu hp hfree hlookup
  obtain rfl : table' = table := Option.some.inj (htable'.symm.trans htable)
  obtain ⟨rfl, rfl⟩ : lo' = lo ∧ hi' = hi :=
    Prod.mk.inj (Except.ok.inj (hwindow'.symm.trans hwindow))
  have hsame := Option.some.inj (hread.symm.trans hread')
  obtain ⟨r, hr⟩ := List.exists_mem_of_ne_nil _ hrows
  -- one row that both slices share has both symbol values
  have hsym : table'.symbol r = sym := of_decide_eq_true (List.mem_filter.mp hr).2
  rw [hsame] at hr
  have hsym' : table'.symbol r = sym' := of_decide_eq_true (List.mem_filter.mp hr).2
  refine ⟨part, ?_, by simp [shardPath]⟩
  rw [← hsym, hsym']
  exact hpart

/-- What is asked for a symbol value: if it is text, it is accepted as documented; the shards
created for it have safe names, which no other symbol value has. -/
structure SymbolNamed (sym : Option String) : Prop where
  accepted : ∀ s, sym = some s → (validateSymbol s = .ok () ↔ SafeSymbol s)
  safe : ∀ (call : ExportCall β) t p, call.Creates codec t sym p →
    ∃ name, p.getLast? = some name ∧ SafeName name
  determined : ∀ (call call' : ExportCall β) t t' p p' sym', call.Creates codec t sym p →
    call'.Creates codec t' sym' p' → p.getLast? = p'.getLast? → sym' = sym

/-- Symbol values are accepted and named as documented, except those that end in a newline
behind a legal run. Every new shard is created for some symbol value. -/
theorem symbolNamed_iff :
    (∀ sym, SymbolNamed codec sym ↔ ∀ s, sym = some s → ¬ NewlineSymbol s) ∧
    ∀ (call : ExportCall β) (t : Tree β), ∀ u ∈ (call.run codec t).2, ∀ p content,
      IsParquet p → t.lookup p = none → u.lookup p = some content →
        ∃ sym, call.Creates codec t sym p := by
  refine ⟨fun sym => ⟨?_, ?_⟩, fun call t u hu p content hp hfree hlookup =>
    call.exists_creates codec hu hp hfree hlookup⟩
  · rintro h s rfl hnewline
    exact hnewline.not_safe ((h.accepted s rfl).mp (validateSymbol_iff.mpr (Or.inr hnewline)))
  · intro h
    constructor
    case accepted =>
      intro s hs
      rw [validateSymbol_iff, or_iff_left (h s hs)]
    case safe =>
      intro call t p hcreates
      obtain ⟨part, hpart, hname⟩ := hcreates.name
      refine ⟨_, hname, safeName_shardName ?_⟩
      cases sym with
      | none =>
        obtain rfl := Except.ok.inj hpart
        exact List.all_eq_true.mp (by decide)
      | some s =>
        obtain ⟨hvalid, rfl⟩ := partSym_some_iff.mp hpart
        exact ((validateSymbol_iff.mp hvalid).resolve_right (h s rfl)).2.2.1
    case determined =>
      intro call call' t t' p p' sym' hcreates hcreates' hlast
      obtain ⟨part, hpart, hname⟩ := hcreates.name
      obtain ⟨part', hpart', hname'⟩ := hcreates'.name
      rw [hname, hname'] at hlast
      have heq : part = part' := shardName_injective (Option.some.inj hlast)
      exact (partSym_inj hpart (heq ▸ hpart')).symm

/-- The symbol `A` with a newline is accepted, and its shard is created. -/
theorem validateSymbol_newline :
    let call := newsCall tenOClock.toDatetime [(tenOClock.index * microsPerHour, some "A\n")]
    validateSymbol "A\n" = .ok () ∧ ¬ SafeSymbol "A\n" ∧
      ((Tree.after ∅ (call.run plainCodec ∅).2).lookup
        (shardPath (partitionDir .news tenOClock.date tenOClock.hour) "A\n")).isSome ∧
      ¬ SafeName (shardName "A\n") := by
  refine ⟨by decide, fun h => ?_, by decide, by decide⟩
  exact absurd (h.2.2.1 (Char.ofNat 10) (by decide)) (by decide)

end Calls

end Athena
