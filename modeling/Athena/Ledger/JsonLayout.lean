import Athena.Ledger.JsonLoads

/-!
# JSON in a layout, and back

`Layout.dumps` is `json.dumps(value, sort_keys=True)` with separators and an
indentation. Whatever the layout, `loads` gives back the value with the members
of its dicts in the order of their keys. Floats are taken as far as the two
conversions between them and their texts undo each other.
-/

namespace Athena

open RecursiveDescent CanonicalJson JsonLoads

/-- `indent` and `separators`: the spaces behind commas and colons. -/
structure Layout where
  indent : Option ℕ
  itemGap : List Char
  keyGap : List Char
  itemGap_space : ∀ c ∈ itemGap, c = ' '
  keyGap_space : ∀ c ∈ keyGap, c = ' '

namespace Layout

def compact : Layout := ⟨none, [], [], by simp, by simp⟩

/-- `indent=2`. -/
def indented : Layout := ⟨some 2, [], [' '], by simp, by simp⟩

variable (layout : Layout)

def newline (level : ℕ) : List Char :=
  match layout.indent with
  | none => []
  | some n => Athena.newline :: List.replicate (n * level) ' '

/-- The items of a list or dict behind its opening bracket. -/
def writeItems (level : ℕ) (closing : Char) : List (List Char) → List Char
  | [] => [closing]
  | text :: texts =>
    layout.newline (level + 1) ++
      (List.intercalate (',' :: (layout.itemGap ++ layout.newline (level + 1))) (text :: texts) ++
        layout.newline level ++ [closing])

def writeList (level : ℕ) (texts : List (List Char)) : List Char :=
  '[' :: layout.writeItems level ']' texts

def writeMember (kv : PyStr × List Char) : List Char :=
  encodeStr kv.1 ++ ':' :: (layout.keyGap ++ kv.2)

def writeDict (level : ℕ) (items : List (PyStr × List Char)) : List Char :=
  openBrace :: layout.writeItems level closeBrace (items.map layout.writeMember)

mutual

/-- `json.dumps(value, sort_keys=True)` at a level of nesting. -/
def dumps (level : ℕ) : PyValue → Except PyErr (List Char)
  | .none => .ok "null".toList
  | .bool b => .ok (if b then "true".toList else "false".toList)
  | .int n => .ok (strInt n).toList
  | .float x => .ok x.text
  | .str s => .ok (encodeStr s)
  | .list xs => (dumpsList (level + 1) xs).map (layout.writeList level)
  | .dict items =>
    (dumpsItems (level + 1) items).map fun texts => layout.writeDict level (sortItems texts)
  | .keyed true items => (dumpsKeyed (level + 1) items).map (layout.writeDict level)
  | .keyed false _ => .error .typeError
  | .object _ => .error .typeError

def dumpsList (level : ℕ) : List PyValue → Except PyErr (List (List Char))
  | [] => .ok []
  | x :: xs => do
    let text ← dumps level x
    let texts ← dumpsList level xs
    return text :: texts

def dumpsItems (level : ℕ) : List (PyStr × PyValue) → Except PyErr (List (PyStr × List Char))
  | [] => .ok []
  | (k, v) :: items => do
    let text ← dumps level v
    let texts ← dumpsItems level items
    return (k, text) :: texts

def dumpsKeyed (level : ℕ) : List (PyKey × PyValue) → Except PyErr (List (PyStr × List Char))
  | [] => .ok []
  | (k, v) :: items => do
    let name ← keyName k
    let text ← dumps level v
    let texts ← dumpsKeyed level items
    return (name, text) :: texts

end

end Layout

/-- The conversion of texts to floats, with floats that `float` gets back from their texts. -/
structure FloatCodec where
  parse : List Char → FloatText
  Recovered : FloatText → Prop
  recovered : ∀ x, Recovered x → parse x.text = x

mutual

def IsData (codec : FloatCodec) : PyValue → Prop
  | .none | .bool _ | .int _ => True
  | .float x => codec.Recovered x
  | .str s => Unpaired s
  | .list xs => AllData codec xs
  | .dict items => (items.map Prod.fst).Nodup ∧ AllDataItems codec items
  | .keyed _ _ | .object _ => False

def AllData (codec : FloatCodec) : List PyValue → Prop
  | [] => True
  | x :: xs => IsData codec x ∧ AllData codec xs

def AllDataItems (codec : FloatCodec) : List (PyStr × PyValue) → Prop
  | [] => True
  | (k, v) :: items => (Unpaired k ∧ IsData codec v) ∧ AllDataItems codec items

end

mutual

/-- The value with the members of every dict in the order of their keys. -/
def sortKeys : PyValue → PyValue
  | .list xs => .list (sortKeysList xs)
  | .dict items => .dict (sortMembers (sortKeysItems items))
  | v => v

def sortKeysList : List PyValue → List PyValue
  | [] => []
  | x :: xs => sortKeys x :: sortKeysList xs

def sortKeysItems : List (PyStr × PyValue) → List (PyStr × PyValue)
  | [] => []
  | (k, v) :: items => (k, sortKeys v) :: sortKeysItems items

end

theorem sortKeysList_eq (xs : List PyValue) : sortKeysList xs = xs.map sortKeys := by
  induction xs with
  | nil => rfl
  | cons x xs ih => rw [sortKeysList, ih, List.map_cons]

theorem sortKeysItems_eq (items : List (PyStr × PyValue)) :
    sortKeysItems items = items.map fun kv => (kv.1, sortKeys kv.2) := by
  induction items with
  | nil => rfl
  | cons kv items ih => rw [sortKeysItems, ih, List.map_cons]

theorem sortKeys_dict (items : List (PyStr × PyValue)) : sortKeys (.dict items) =
    .dict ((sortMembers items).map fun kv => (kv.1, sortKeys kv.2)) := by
  rw [sortKeys, sortKeysItems_eq]
  exact congrArg PyValue.dict (List.map_insertionSort (fun a b : PyStr × PyValue => a.1 ≤ b.1)
    (fun a b : PyStr × PyValue => a.1 ≤ b.1) (fun kv => (kv.1, sortKeys kv.2)) items
    fun _ _ _ _ => Iff.rfl).symm

theorem allData_iff {codec : FloatCodec} {xs : List PyValue} :
    AllData codec xs ↔ ∀ x ∈ xs, IsData codec x := by
  induction xs with
  | nil => simp [AllData]
  | cons x xs ih => rw [AllData, ih, List.forall_mem_cons]

theorem allDataItems_iff {codec : FloatCodec} {items : List (PyStr × PyValue)} :
    AllDataItems codec items ↔ ∀ kv ∈ items, Unpaired kv.1 ∧ IsData codec kv.2 := by
  induction items with
  | nil => simp [AllDataItems]
  | cons kv items ih => rw [AllDataItems, ih, List.forall_mem_cons]

theorem foldl_dictSet {items done : List (PyStr × PyValue)}
    (h : ((done ++ items).map Prod.fst).Nodup) :
    items.foldl (fun d kv => dictSet d kv.1 kv.2) done = done ++ items := by
  induction items generalizing done with
  | nil => rw [List.foldl_nil, List.append_nil]
  | cons kv items ih =>
    have hfresh : kv.1 ∉ done.map Prod.fst := by
      rw [List.map_append, List.map_cons] at h
      exact fun hmem => List.disjoint_of_nodup_append h hmem List.mem_cons_self
    have hset : dictSet done kv.1 kv.2 = done ++ [kv] := by
      simp [dictSet, hfresh]
    rw [List.foldl_cons, hset, ih (by simpa using h), List.append_assoc, List.singleton_append]

theorem dictOf_eq {items : List (PyStr × PyValue)} (h : (items.map Prod.fst).Nodup) :
    dictOf items = .dict items := by
  rw [dictOf, foldl_dictSet (by simpa using h), List.nil_append]

def Begins (c : Char) : Prop :=
  c.isDigit = true ∨ c ∈ [quotationMark, '[', openBrace, '-', 'n', 't', 'f', 'N', 'I']

theorem Begins.spec {c : Char} (h : Begins c) :
    isWhitespace c = false ∧ c ≠ ']' ∧ c ≠ utf8Bom := by
  rcases h with hdigit | hmem
  · have hne : ∀ d : Char, d.isDigit = false → c ≠ d := by
      rintro d hd rfl
      rw [hdigit] at hd
      cases hd
    refine ⟨?_, hne _ (by decide), hne _ (by decide)⟩
    cases hc : isWhitespace c with
    | false => rfl
    | true => exact absurd (.inl hdigit) (halts_of_isWhitespace hc)
  · simp only [List.mem_cons, List.not_mem_nil, or_false] at hmem
    rcases hmem with rfl | rfl | rfl | rfl | rfl | rfl | rfl | rfl | rfl <;> decide

namespace Layout

variable (layout : Layout)

theorem mem_newline {level : ℕ} {c : Char} (hc : c ∈ layout.newline level) :
    c = Athena.newline ∨ c = ' ' := by
  unfold newline at hc
  split at hc
  · cases hc
  · rcases List.mem_cons.mp hc with hc | hc
    · exact .inl hc
    · exact .inr (List.eq_of_mem_replicate hc)

theorem newline_blank (level : ℕ) : ∀ c ∈ layout.newline level, isWhitespace c = true := by
  intro c hc
  rcases layout.mem_newline hc with rfl | rfl <;> rfl

theorem itemGap_blank : ∀ c ∈ layout.itemGap, isWhitespace c = true := fun c hc => by
  rw [layout.itemGap_space c hc]
  rfl

theorem keyGap_blank : ∀ c ∈ layout.keyGap, isWhitespace c = true := fun c hc => by
  rw [layout.keyGap_space c hc]
  rfl

def textOf (level : ℕ) (v : PyValue) : List Char := (layout.dumps level v).toOption.getD []

variable {layout}

theorem textOf_eq {level : ℕ} {v : PyValue} {text : List Char}
    (h : layout.dumps level v = .ok text) : layout.textOf level v = text := by
  rw [textOf, h]
  rfl

theorem dumpsList_ok {level : ℕ} {xs : List PyValue}
    (h : ∀ x ∈ xs, layout.dumps level x = .ok (layout.textOf level x)) :
    layout.dumpsList level xs = .ok (xs.map (layout.textOf level)) := by
  induction xs with
  | nil => rfl
  | cons x xs ih =>
    rw [dumpsList, h x List.mem_cons_self, ih fun y hy => h y (List.mem_cons_of_mem _ hy)]
    rfl

theorem dumpsItems_ok {level : ℕ} {items : List (PyStr × PyValue)}
    (h : ∀ kv ∈ items, layout.dumps level kv.2 = .ok (layout.textOf level kv.2)) :
    layout.dumpsItems level items = .ok (items.map fun kv => (kv.1, layout.textOf level kv.2)) := by
  induction items with
  | nil => rfl
  | cons kv items ih =>
    rw [dumpsItems, h kv List.mem_cons_self, ih fun y hy => h y (List.mem_cons_of_mem _ hy)]
    rfl

variable (layout)

def memberText (level : ℕ) (kv : PyStr × PyValue) : List Char :=
  layout.writeMember (kv.1, layout.textOf level kv.2)

variable {layout}

theorem dumps_list {level : ℕ} {xs : List PyValue}
    (h : ∀ x ∈ xs, layout.dumps (level + 1) x = .ok (layout.textOf (level + 1) x)) :
    layout.dumps level (.list xs) =
      .ok (layout.writeList level (xs.map (layout.textOf (level + 1)))) := by
  rw [dumps, dumpsList_ok h]
  rfl

theorem dumps_dict {level : ℕ} {items : List (PyStr × PyValue)}
    (h : ∀ kv ∈ items,
      layout.dumps (level + 1) kv.2 = .ok (layout.textOf (level + 1) kv.2)) :
    layout.dumps level (.dict items) = .ok (openBrace ::
      layout.writeItems level closeBrace
        ((sortMembers items).map (layout.memberText (level + 1)))) := by
  have hsort : sortItems (items.map fun kv => (kv.1, layout.textOf (level + 1) kv.2)) =
      (sortMembers items).map fun kv => (kv.1, layout.textOf (level + 1) kv.2) :=
    (List.map_insertionSort (fun a b : PyStr × PyValue => a.1 ≤ b.1)
      (fun a b : PyStr × List Char => a.1 ≤ b.1)
      (fun kv => (kv.1, layout.textOf (level + 1) kv.2)) items fun _ _ _ _ => Iff.rfl).symm
  rw [dumps, dumpsItems_ok h]
  simp only [Except.map, writeDict, hsort, List.map_map]
  rfl

end Layout

section RoundTrip

variable {codec : FloatCodec} {layout : Layout}

/-- Printable ASCII characters and line breaks. -/
def Printed (text : List Char) : Prop := ∀ c ∈ text, PrintableChar c ∨ c = newline

theorem printed_append {s t : List Char} : Printed (s ++ t) ↔ Printed s ∧ Printed t :=
  List.forall_mem_append

theorem printed_cons {c : Char} {s : List Char} :
    Printed (c :: s) ↔ (PrintableChar c ∨ c = newline) ∧ Printed s :=
  List.forall_mem_cons

theorem Printable.printed {text : List Char} (h : Printable text) : Printed text :=
  fun c hc => .inl (h c hc)

theorem printed_spaces {gap : List Char} (h : ∀ c ∈ gap, c = ' ') : Printed gap := fun c hc =>
  .inl (h c hc ▸ by decide)

theorem printed_newline (level : ℕ) : Printed (layout.newline level) := by
  intro c hc
  rcases layout.mem_newline hc with rfl | rfl
  · exact .inr rfl
  · exact .inl (by decide)

theorem printed_intercalate {sep : List Char} (hsep : Printed sep) {texts : List (List Char)}
    (h : ∀ t ∈ texts, Printed t) : Printed (List.intercalate sep texts) := by
  induction texts with
  | nil => simp [Printed]
  | cons t ts ih =>
    cases ts with
    | nil => simpa using h t (by simp)
    | cons u us =>
      rw [List.intercalate_cons_cons, printed_append, printed_append]
      exact ⟨⟨h t (by simp), hsep⟩, ih fun x hx => h x (List.mem_cons_of_mem _ hx)⟩

theorem printed_writeItems (level : ℕ) {closing : Char} (hclosing : PrintableChar closing)
    {texts : List (List Char)} (h : ∀ t ∈ texts, Printed t) :
    Printed (layout.writeItems level closing texts) := by
  have hend : Printed [closing] := printed_cons.mpr ⟨.inl hclosing, by simp [Printed]⟩
  cases texts with
  | nil => exact hend
  | cons text texts =>
    have hsep : Printed (',' :: (layout.itemGap ++ layout.newline (level + 1))) :=
      printed_cons.mpr ⟨.inl (by decide),
        printed_append.mpr ⟨printed_spaces layout.itemGap_space, printed_newline _⟩⟩
    rw [Layout.writeItems, printed_append, printed_append, printed_append]
    exact ⟨printed_newline _, ⟨printed_intercalate hsep h, printed_newline _⟩, hend⟩

theorem haltsAt_gap {gap : List Char} (hgap : ∀ c ∈ gap, isWhitespace c = true) {c : Char}
    (hc : Halts c) (r : List Char) : HaltsAt (gap ++ c :: r) := by
  cases gap with
  | nil => exact haltsAt_cons hc r
  | cons d gap => exact haltsAt_cons (halts_of_isWhitespace (hgap d List.mem_cons_self)) _

/-- What is written behind an opening bracket is read back. -/
theorem readBlock_writeItems {β γ : Type} {close : Char} {make : List β → PyValue}
    {item : JsonReader β} {word : γ → List Char} {value : γ → β} {xs : List γ} (level : ℕ)
    (hclose : Halts close) (hblank : isWhitespace close = false) (hcomma : ',' ≠ close)
    (hhead : ∀ x ∈ xs, ∃ c w, word x = c :: w ∧ isWhitespace c = false ∧ c ≠ close)
    (hword : ∀ x ∈ xs, Recovers item HaltsAt (word x) (value x)) (r : List Char) :
    readBlock close make (readSeparated close item)
      (layout.writeItems level close (xs.map word) ++ r) = .ok (make (xs.map value), r) := by
  cases xs with
  | nil =>
    have hdrop := @dropWhile_gap Char isWhitespace [] (by simp) close hblank r
    rw [List.nil_append] at hdrop
    simp only [List.map_nil, Layout.writeItems, List.singleton_append, readBlock, hdrop, if_true]
  | cons x xs =>
    have hgap : ∀ c ∈ layout.itemGap ++ layout.newline (level + 1), isWhitespace c = true := by
      intro c hc
      rcases List.mem_append.mp hc with hc | hc
      · exact layout.itemGap_blank c hc
      · exact layout.newline_blank _ c hc
    have hread : Recovers (readSeparated close item) (fun _ => True) _ _ :=
      @readItems_recovers _ _ _ _ _ .jsonDecodeError isWhitespace ',' close item HaltsAt word value
        (layout.itemGap ++ layout.newline (level + 1)) (layout.newline level) x xs hcomma
        (by decide) hblank hgap (layout.newline_blank level)
        (fun r => haltsAt_cons (by decide) r)
        (fun r => haltsAt_gap (layout.newline_blank level) hclose r)
        (fun y hy => by
          obtain ⟨c, w, hw, hc, -⟩ := hhead y hy
          exact ⟨c, w, hw, hc⟩) hword
    have hrun := hread r trivial
    obtain ⟨c, w, hw, hc, hne⟩ := hhead x List.mem_cons_self
    obtain ⟨u', hu'⟩ := @intercalate_front _ _
      (',' :: (layout.itemGap ++ layout.newline (level + 1))) _ _ _ _ hw xs
    have hu : List.intercalate (',' :: (layout.itemGap ++ layout.newline (level + 1)))
        ((x :: xs).map word) ++ layout.newline level ++ [close] ++ r =
          c :: (u' ++ layout.newline level ++ [close] ++ r) := by
      rw [hu']
      rfl
    rw [hu] at hrun
    have hdrop : (layout.writeItems level close ((x :: xs).map word) ++ r).dropWhile isWhitespace =
        c :: (u' ++ layout.newline level ++ [close] ++ r) := by
      rw [List.map_cons, Layout.writeItems, ← List.map_cons, List.append_assoc, hu]
      exact dropWhile_gap (layout.newline_blank _) hc _
    simp only [readBlock, hdrop, if_neg hne, hrun]
    rfl

/-- The value has a text in the layout, from which it is read back. -/
structure ReadsBack (codec : FloatCodec) (layout : Layout) (level : ℕ) (v : PyValue) : Prop where
  dumps_eq : layout.dumps level v = .ok (layout.textOf level v)
  begins : ∃ c w, layout.textOf level v = c :: w ∧ Begins c
  printed : Printed (layout.textOf level v)
  recovers : Recovers (scanOnce codec.parse) HaltsAt (layout.textOf level v) (sortKeys v)

theorem ReadsBack.of_dumps {level : ℕ} {v : PyValue} {text : List Char}
    (hdumps : layout.dumps level v = .ok text) (hbegins : ∃ c w, text = c :: w ∧ Begins c)
    (hprinted : Printed text) (hread : Recovers (scanOnce codec.parse) HaltsAt text (sortKeys v)) :
    ReadsBack codec layout level v := by
  have htext := Layout.textOf_eq hdumps
  subst htext
  exact ⟨hdumps, hbegins, hprinted, hread⟩

theorem readsBack_plain {level : ℕ} {v : PyValue} {text : List Char}
    (hdumps : layout.dumps level v = .ok text) (hbegins : ∃ c w, text = c :: w ∧ Begins c ∧
      c ≠ quotationMark ∧ c ≠ '[' ∧ c ≠ openBrace) (hprinted : Printable text)
    (hscan : ∀ r, HaltsAt r → scanPlain codec.parse (text ++ r) = .ok (v, r))
    (hsort : sortKeys v = v) : ReadsBack codec layout level v := by
  obtain ⟨c, w, rfl, hc, hquote, hbracket, hbrace⟩ := hbegins
  apply ReadsBack.of_dumps hdumps ⟨c, w, rfl, hc⟩ hprinted.printed
  intro r hr
  rw [List.cons_append, scanOnce_plain hquote hbracket hbrace, ← List.cons_append, hscan r hr,
    hsort]

theorem readsBack_constant {level : ℕ} {v : PyValue} {text : List Char}
    (hdumps : layout.dumps level v = .ok text) (h : (text, v) ∈ constants)
    (hsort : sortKeys v = v) : ReadsBack codec layout level v := by
  have hscan : ∀ r, HaltsAt r → scanPlain codec.parse (text ++ r) = .ok (v, r) :=
    fun r _ => scanPlain_constant codec.parse h r
  simp only [constants, List.mem_cons, Prod.mk.injEq, List.not_mem_nil, or_false] at h
  rcases h with ⟨rfl, -⟩ | ⟨rfl, -⟩ | ⟨rfl, -⟩ | ⟨rfl, -⟩ | ⟨rfl, -⟩ | ⟨rfl, -⟩
  all_goals
    exact readsBack_plain hdumps ⟨_, _, rfl, .inr (by decide), by decide, by decide, by decide⟩
      (by decide) hscan hsort

theorem readsBack_number {level : ℕ} {v : PyValue} {token : NumberToken} (htoken : token.WellFormed)
    (hdumps : layout.dumps level v = .ok token.text) (hprinted : Printable token.text)
    (hvalue : token.value codec.parse = v)
    (hsort : sortKeys v = v) : ReadsBack codec layout level v := by
  refine readsBack_plain hdumps ?_ hprinted (fun r hr => ?_) hsort
  · obtain ⟨d, w, hd, htext | htext⟩ := htoken.text_head
    · have hne : ∀ c : Char, c.isDigit = false → d ≠ c := by
        rintro c hc rfl
        rw [hd] at hc
        cases hc
      exact ⟨d, w, htext, .inl hd, hne _ (by decide), hne _ (by decide), hne _ (by decide)⟩
    · exact ⟨'-', _, htext, .inr (by decide), by decide, by decide, by decide⟩
  · rw [scanPlain_number codec.parse htoken hr, hvalue]

theorem readsBack_bool (level : ℕ) (b : Bool) : ReadsBack codec layout level (.bool b) := by
  cases b with
  | false => exact readsBack_constant (v := .bool false) rfl (by simp [constants]) rfl
  | true => exact readsBack_constant (v := .bool true) rfl (by simp [constants]) rfl

theorem readsBack_int (level : ℕ) (n : Int) : ReadsBack codec layout level (.int n) :=
  readsBack_number (intToken_wellFormed n) (by rw [Layout.dumps, intToken_text])
    (by rw [intToken_text]; exact strInt_printable n) (intToken_value codec.parse n) rfl

theorem readsBack_float (level : ℕ) {x : FloatText} (hx : codec.Recovered x) :
    ReadsBack codec layout level (.float x) := by
  rcases floatText_cases x with hconstant | ⟨token, htoken, hparts, htext⟩
  · exact readsBack_constant rfl hconstant rfl
  · refine readsBack_number htoken (by rw [Layout.dumps, htext])
      (htext ▸ floatText_printable x) ?_ rfl
    rw [NumberToken.value, if_neg hparts, ← htext, codec.recovered x hx]

theorem readsBack_str (level : ℕ) {s : PyStr} (hs : Unpaired s) :
    ReadsBack codec layout level (.str s) := by
  refine ReadsBack.of_dumps rfl ⟨quotationMark, _, rfl, .inr (by decide)⟩
    (encodeStr_printable s).printed fun r _ => ?_
  rw [encodeStr, List.cons_append, scanOnce_quote, scanString_recovers hs r trivial]
  rfl

theorem readsBack_list {level : ℕ} {xs : List PyValue}
    (h : ∀ x ∈ xs, ReadsBack codec layout (level + 1) x) :
    ReadsBack codec layout level (.list xs) := by
  have hdumps := Layout.dumps_list fun x hx => (h x hx).dumps_eq
  have hprinted : Printed (layout.writeList level (xs.map (layout.textOf (level + 1)))) := by
    refine printed_cons.mpr ⟨.inl (by decide), printed_writeItems level (by decide) ?_⟩
    intro t ht
    obtain ⟨x, hx, rfl⟩ := List.mem_map.mp ht
    exact (h x hx).printed
  refine ReadsBack.of_dumps hdumps ⟨'[', _, rfl, .inr (by decide)⟩ hprinted fun r _ => ?_
  rw [Layout.writeList, List.cons_append, scanOnce_bracket, sortKeys, sortKeysList_eq]
  apply readBlock_writeItems level (by decide) (by decide) (by decide)
  · intro x hx
    obtain ⟨c, w, hw, hc⟩ := (h x hx).begins
    exact ⟨c, w, hw, hc.spec.1, hc.spec.2.1⟩
  · exact fun x hx => (h x hx).recovers

theorem memberText_recovers {level : ℕ} {kv : PyStr × PyValue} (hkey : Unpaired kv.1)
    (hvalue : ReadsBack codec layout level kv.2) :
    Recovers (readMember (scanOnce codec.parse)) HaltsAt (layout.memberText level kv)
      (kv.1, sortKeys kv.2) := by
  intro r hr
  obtain ⟨c, w, hw, hc⟩ := hvalue.begins
  have hread := hvalue.recovers r hr
  have hname : propertyName.run (layout.memberText level kv ++ r) =
      .ok (kv.1, ':' :: (layout.keyGap ++ layout.textOf level kv.2 ++ r)) := by
    have hstring := scanString_recovers hkey
      (':' :: (layout.keyGap ++ layout.textOf level kv.2 ++ r)) trivial
    simpa [Layout.memberText, Layout.writeMember, encodeStr, propertyName] using hstring
  have hdrop : (layout.keyGap ++ layout.textOf level kv.2 ++ r).dropWhile isWhitespace =
      layout.textOf level kv.2 ++ r := by
    rw [hw, List.append_assoc]
    exact dropWhile_gap layout.keyGap_blank hc.spec.1 _
  simp only [readMember, Reader.andThen, hname, Except.bind]
  exact behindName_of_eq (@dropWhile_gap _ isWhitespace [] (by simp) ':' (by decide) _)
    (by rw [hdrop]; exact hread)

theorem sortMembers_perm (items : List (PyStr × PyValue)) : (sortMembers items).Perm items :=
  List.perm_insertionSort _ items

theorem readsBack_dict {level : ℕ} {items : List (PyStr × PyValue)}
    (hkeys : (items.map Prod.fst).Nodup)
    (h : ∀ kv ∈ items, Unpaired kv.1 ∧ ReadsBack codec layout (level + 1) kv.2) :
    ReadsBack codec layout level (.dict items) := by
  have hmem : ∀ kv ∈ sortMembers items, kv ∈ items := fun kv =>
    (sortMembers_perm items).mem_iff.mp
  have hdict : dictOf ((sortMembers items).map fun kv => (kv.1, sortKeys kv.2)) =
      .dict ((sortMembers items).map fun kv => (kv.1, sortKeys kv.2)) := by
    apply dictOf_eq
    rw [List.map_map]
    exact ((sortMembers_perm items).map Prod.fst).nodup_iff.mpr hkeys
  have hdumps := Layout.dumps_dict fun kv hkv => (h kv hkv).2.dumps_eq
  have hprinted : Printed (openBrace :: layout.writeItems level closeBrace
      ((sortMembers items).map (layout.memberText (level + 1)))) := by
    refine printed_cons.mpr ⟨.inl (by decide), printed_writeItems level (by decide) ?_⟩
    intro t ht
    obtain ⟨kv, hkv, rfl⟩ := List.mem_map.mp ht
    exact printed_append.mpr ⟨(encodeStr_printable kv.1).printed, printed_cons.mpr
      ⟨.inl (by decide), printed_append.mpr ⟨printed_spaces layout.keyGap_space,
        (h kv (hmem kv hkv)).2.printed⟩⟩⟩
  refine ReadsBack.of_dumps hdumps ⟨openBrace, _, rfl, .inr (by decide)⟩ hprinted fun r _ => ?_
  rw [List.cons_append, scanOnce_brace, sortKeys_dict, ← hdict]
  apply readBlock_writeItems level (by decide) (by decide) (by decide)
  · exact fun kv _ => ⟨quotationMark, _, rfl, by decide, by decide⟩
  · exact fun kv hkv => memberText_recovers (h kv (hmem kv hkv)).1 (h kv (hmem kv hkv)).2

mutual

/-- Structural induction over the value, at every level of nesting. -/
theorem readsBack : ∀ v : PyValue, IsData codec v → ∀ level, ReadsBack codec layout level v
  | .none, _, level => readsBack_constant rfl (by simp [constants]) rfl
  | .bool b, _, level => readsBack_bool level b
  | .int n, _, level => readsBack_int level n
  | .float _, h, level => readsBack_float level h
  | .str _, h, level => readsBack_str level h
  | .list xs, h, level =>
    readsBack_list fun x hx => forall_readsBack xs (allData_iff.mp h) x hx (level + 1)
  | .dict items, h, level => by
    have hitems := allDataItems_iff.mp h.2
    exact readsBack_dict h.1 fun kv hkv =>
      ⟨(hitems kv hkv).1, forall_items_readsBack items hitems kv hkv (level + 1)⟩

theorem forall_readsBack : ∀ xs : List PyValue, (∀ x ∈ xs, IsData codec x) →
    ∀ x ∈ xs, ∀ level, ReadsBack codec layout level x
  | [], _ => by simp
  | x :: xs, h => by
    obtain ⟨hx, hxs⟩ := List.forall_mem_cons.mp h
    exact List.forall_mem_cons.mpr ⟨readsBack x hx, forall_readsBack xs hxs⟩

theorem forall_items_readsBack : ∀ items : List (PyStr × PyValue),
    (∀ kv ∈ items, Unpaired kv.1 ∧ IsData codec kv.2) →
      ∀ kv ∈ items, ∀ level, ReadsBack codec layout level kv.2
  | [], _ => by simp
  | (k, v) :: items, h => by
    obtain ⟨hv, hitems⟩ := List.forall_mem_cons.mp h
    exact List.forall_mem_cons.mpr ⟨readsBack v hv.2, forall_items_readsBack items hitems⟩

end

theorem loads_of_recovers {text before after : List Char} {c : Char} {w : List Char} {v : PyValue}
    (htext : text = c :: w) (hc : Begins c)
    (hread : Recovers (scanOnce codec.parse) HaltsAt text v)
    (hbefore : ∀ d ∈ before, isWhitespace d = true) (hafter : ∀ d ∈ after, isWhitespace d = true) :
    loads codec.parse (String.ofList (before ++ text ++ after)) = .ok v := by
  obtain ⟨hblank, -, hmark⟩ := hc.spec
  have hhead : (before ++ text ++ after).head? ≠ some utf8Bom := by
    cases before with
    | nil =>
      rw [htext]
      exact fun h => hmark (Option.some.inj h)
    | cons d before =>
      intro h
      have hd := hbefore d List.mem_cons_self
      rw [Option.some.inj h] at hd
      cases hd
  have hdrop : (before ++ text ++ after).dropWhile isWhitespace = text ++ after := by
    rw [htext, List.append_assoc]
    exact dropWhile_gap hbefore hblank _
  have hhalts : HaltsAt after := by
    cases after with
    | nil => exact fun d hd => by cases hd
    | cons d after => exact haltsAt_cons (halts_of_isWhitespace (hafter d List.mem_cons_self)) _
  have hend : after.dropWhile isWhitespace = [] := List.dropWhile_eq_nil_iff.mpr hafter
  simp only [loads, String.toList_ofList, if_neg hhead, hdrop, hread after hhalts, hend, if_true]

end RoundTrip

section Canonical

variable {codec : FloatCodec}

theorem compact_newline (level : ℕ) : Layout.compact.newline level = [] := rfl

theorem compact_itemGap : Layout.compact.itemGap = [] := rfl

theorem compact_writeList (level : ℕ) (texts : List (List Char)) :
    Layout.compact.writeList level texts = joinList texts := by
  cases texts with
  | nil => rfl
  | cons text texts =>
    simp only [Layout.writeList, Layout.writeItems, compact_newline, compact_itemGap, joinList,
      List.append_nil, List.nil_append]

theorem compact_writeDict (level : ℕ) (items : List (PyStr × List Char)) :
    Layout.compact.writeDict level items = joinItems items := by
  cases items with
  | nil => rfl
  | cons kv items =>
    simp only [Layout.writeDict, List.map_cons, Layout.writeItems, compact_newline,
      compact_itemGap, joinItems, List.append_nil, List.nil_append]
    rfl

mutual

theorem compact_dumps : ∀ v : PyValue, IsData codec v → ∀ level,
    Layout.compact.dumps level v = CanonicalJson.dumps v
  | .none, _, _ => rfl
  | .bool _, _, _ => rfl
  | .int _, _, _ => rfl
  | .float _, _, _ => rfl
  | .str _, _, _ => rfl
  | .list xs, h, level => by
    rw [Layout.dumps, CanonicalJson.dumps, compact_dumpsList xs (allData_iff.mp h) (level + 1)]
    exact congrArg (fun f => (dumpsList xs).map f) (funext (compact_writeList level))
  | .dict items, h, level => by
    rw [Layout.dumps, CanonicalJson.dumps,
      compact_dumpsItems items (allDataItems_iff.mp h.2) (level + 1)]
    exact congrArg (fun f => (dumpsItems items).map f)
      (funext fun texts => compact_writeDict level (sortItems texts))

theorem compact_dumpsList : ∀ xs : List PyValue, (∀ x ∈ xs, IsData codec x) → ∀ level,
    Layout.compact.dumpsList level xs = CanonicalJson.dumpsList xs
  | [], _, _ => rfl
  | x :: xs, h, level => by
    obtain ⟨hx, hxs⟩ := List.forall_mem_cons.mp h
    rw [Layout.dumpsList, CanonicalJson.dumpsList, compact_dumps x hx level,
      compact_dumpsList xs hxs level]

theorem compact_dumpsItems : ∀ items : List (PyStr × PyValue),
    (∀ kv ∈ items, Unpaired kv.1 ∧ IsData codec kv.2) → ∀ level,
      Layout.compact.dumpsItems level items = CanonicalJson.dumpsItems items
  | [], _, _ => rfl
  | (k, v) :: items, h, level => by
    obtain ⟨hv, hitems⟩ := List.forall_mem_cons.mp h
    rw [Layout.dumpsItems, CanonicalJson.dumpsItems, compact_dumps v hv.2 level,
      compact_dumpsItems items hitems level]

end

theorem sortMembers_sorted (items : List (PyStr × PyValue)) :
    sortMembers ((sortMembers items).map fun kv => (kv.1, sortKeys kv.2)) =
      (sortMembers items).map fun kv => (kv.1, sortKeys kv.2) := by
  apply List.Pairwise.insertionSort_eq
  exact List.pairwise_map.mpr
    (List.pairwise_insertionSort (fun a b : PyStr × PyValue => a.1 ≤ b.1) items)

/-- A dict whose members print as their sorted values do prints as its sorted value does. -/
theorem dumps_sortKeys_dict {layout : Layout} {level : ℕ} {items : List (PyStr × PyValue)}
    (hsame : ∀ kv ∈ items,
      layout.dumps (level + 1) (sortKeys kv.2) = layout.dumps (level + 1) kv.2)
    (hok : ∀ kv ∈ items,
      layout.dumps (level + 1) kv.2 = .ok (layout.textOf (level + 1) kv.2)) :
    layout.dumps level (sortKeys (.dict items)) = layout.dumps level (.dict items) := by
  have hmem : ∀ kv ∈ sortMembers items, kv ∈ items := fun kv =>
    (sortMembers_perm items).mem_iff.mp
  have htext : ∀ kv ∈ items,
      layout.textOf (level + 1) (sortKeys kv.2) = layout.textOf (level + 1) kv.2 := fun kv hkv =>
    congrArg (fun x => x.toOption.getD []) (hsame kv hkv)
  have hoks : ∀ kv ∈ (sortMembers items).map fun kv => (kv.1, sortKeys kv.2),
      layout.dumps (level + 1) kv.2 = .ok (layout.textOf (level + 1) kv.2) := by
    intro kv' hkv'
    obtain ⟨kv, hkv, rfl⟩ := List.mem_map.mp hkv'
    rw [hsame kv (hmem kv hkv), hok kv (hmem kv hkv), htext kv (hmem kv hkv)]
  have hmembers : ((sortMembers items).map fun kv => (kv.1, sortKeys kv.2)).map
      (layout.memberText (level + 1)) =
        (sortMembers items).map (layout.memberText (level + 1)) := by
    rw [List.map_map]
    apply List.map_congr_left
    intro kv hkv
    exact congrArg (fun text => layout.writeMember (kv.1, text)) (htext kv (hmem kv hkv))
  rw [sortKeys_dict, Layout.dumps_dict hoks, sortMembers_sorted, hmembers, Layout.dumps_dict hok]

mutual

/-- Sorting the members changes neither what can be serialised nor the printed text. -/
theorem dumps_sortKeys {layout : Layout} : ∀ v : PyValue, IsData codec v → ∀ level,
    layout.dumps level (sortKeys v) = layout.dumps level v
  | .none, _, _ => rfl
  | .bool _, _, _ => rfl
  | .int _, _, _ => rfl
  | .float _, _, _ => rfl
  | .str _, _, _ => rfl
  | .list xs, h, level => by
    rw [sortKeys, Layout.dumps, Layout.dumps,
      dumpsList_sortKeys xs (allData_iff.mp h) (level + 1)]
  | .dict items, h, level => by
    have hitems := allDataItems_iff.mp h.2
    have hsame := @dumpsItems_sortKeys layout items hitems
    exact dumps_sortKeys_dict (fun kv hkv => hsame kv hkv (level + 1)) fun kv hkv =>
      (readsBack kv.2 (hitems kv hkv).2 (level + 1)).dumps_eq

theorem dumpsList_sortKeys {layout : Layout} : ∀ xs : List PyValue, (∀ x ∈ xs, IsData codec x) →
    ∀ level, layout.dumpsList level (sortKeysList xs) = layout.dumpsList level xs
  | [], _, _ => rfl
  | x :: xs, h, level => by
    obtain ⟨hx, hxs⟩ := List.forall_mem_cons.mp h
    rw [sortKeysList, Layout.dumpsList, Layout.dumpsList, dumps_sortKeys x hx level,
      dumpsList_sortKeys xs hxs level]

theorem dumpsItems_sortKeys {layout : Layout} : ∀ items : List (PyStr × PyValue),
    (∀ kv ∈ items, Unpaired kv.1 ∧ IsData codec kv.2) →
      ∀ kv ∈ items, ∀ level, layout.dumps level (sortKeys kv.2) = layout.dumps level kv.2
  | [], _ => by simp
  | (k, v) :: items, h => by
    obtain ⟨hv, hitems⟩ := List.forall_mem_cons.mp h
    exact List.forall_mem_cons.mpr ⟨dumps_sortKeys v hv.2, dumpsItems_sortKeys items hitems⟩

end

mutual

theorem sameJson_sortKeys : ∀ v : PyValue, IsJson v → SameJson v (sortKeys v)
  | .none, _ => trivial
  | .bool _, _ => rfl
  | .int _, _ => rfl
  | .str _, _ => rfl
  | .list xs, h => by
    rw [sortKeys, sortKeysList_eq]
    exact sameJsonList_iff.mpr (forall₂_sortKeys xs (allJson_iff.mp h))
  | .dict items, h => by
    rw [sortKeys_dict]
    exact ⟨items.map fun kv => (kv.1, sortKeys kv.2), ((sortMembers_perm items).map _).symm,
      sameJsonItems_iff.mpr (forall₂_items_sortKeys items (allJsonItems_iff.mp h.2))⟩

theorem forall₂_sortKeys : ∀ xs : List PyValue, (∀ x ∈ xs, IsJson x) →
    List.Forall₂ SameJson xs (xs.map sortKeys)
  | [], _ => .nil
  | x :: xs, h => by
    obtain ⟨hx, hxs⟩ := List.forall_mem_cons.mp h
    exact .cons (sameJson_sortKeys x hx) (forall₂_sortKeys xs hxs)

theorem forall₂_items_sortKeys : ∀ items : List (PyStr × PyValue),
    (∀ kv ∈ items, IsText kv.1 ∧ IsJson kv.2) →
      List.Forall₂ (fun p q => p.1 = q.1 ∧ SameJson p.2 q.2) items
        (items.map fun kv => (kv.1, sortKeys kv.2))
  | [], _ => .nil
  | (k, v) :: items, h => by
    obtain ⟨hv, hitems⟩ := List.forall_mem_cons.mp h
    exact .cons ⟨rfl, sameJson_sortKeys v hv.2⟩ (forall₂_items_sortKeys items hitems)

end

mutual

theorem isData_sortKeys : ∀ v : PyValue, IsData codec v → IsData codec (sortKeys v)
  | .none, h => h
  | .bool _, h => h
  | .int _, h => h
  | .float _, h => h
  | .str _, h => h
  | .list xs, h => by
    rw [sortKeys, sortKeysList_eq]
    refine allData_iff.mpr fun x hx => ?_
    obtain ⟨y, hy, rfl⟩ := List.mem_map.mp hx
    exact forall_isData_sortKeys xs (allData_iff.mp h) y hy
  | .dict items, h => by
    have hitems := allDataItems_iff.mp h.2
    rw [sortKeys_dict]
    refine ⟨?_, allDataItems_iff.mpr fun kv hkv => ?_⟩
    · rw [List.map_map]
      exact ((sortMembers_perm items).map Prod.fst).nodup_iff.mpr h.1
    · obtain ⟨lw, hlw, rfl⟩ := List.mem_map.mp hkv
      have hmem := (sortMembers_perm items).mem_iff.mp hlw
      exact ⟨(hitems lw hmem).1, forall_items_isData_sortKeys items hitems lw hmem⟩

theorem forall_isData_sortKeys : ∀ xs : List PyValue, (∀ x ∈ xs, IsData codec x) →
    ∀ x ∈ xs, IsData codec (sortKeys x)
  | [], _ => by simp
  | x :: xs, h => by
    obtain ⟨hx, hxs⟩ := List.forall_mem_cons.mp h
    exact List.forall_mem_cons.mpr ⟨isData_sortKeys x hx, forall_isData_sortKeys xs hxs⟩

theorem forall_items_isData_sortKeys : ∀ items : List (PyStr × PyValue),
    (∀ kv ∈ items, Unpaired kv.1 ∧ IsData codec kv.2) →
      ∀ kv ∈ items, IsData codec (sortKeys kv.2)
  | [], _ => by simp
  | (k, v) :: items, h => by
    obtain ⟨hv, hitems⟩ := List.forall_mem_cons.mp h
    exact List.forall_mem_cons.mpr
      ⟨isData_sortKeys v hv.2, forall_items_isData_sortKeys items hitems⟩

end

theorem canonicalJson_eq {v : PyValue} (hv : IsData codec v) :
    canonicalJson v = .ok (String.ofList (Layout.compact.textOf 0 v)) := by
  have hread : ReadsBack codec .compact 0 v := readsBack v hv 0
  rw [canonicalJson, ← compact_dumps v hv 0, hread.dumps_eq]
  rfl

theorem loads_textOf {layout : Layout} {v : PyValue} (hv : IsData codec v) :
    loads codec.parse (String.ofList (layout.textOf 0 v)) = .ok (sortKeys v) := by
  have hread : ReadsBack codec layout 0 v := readsBack v hv 0
  obtain ⟨c, w, htext, hc⟩ := hread.begins
  have hloads := @loads_of_recovers codec _ [] [] c w _ htext hc hread.recovers (by simp) (by simp)
  rwa [List.nil_append, List.append_nil] at hloads

end Canonical

/-- Canonical JSON is loaded as the value with its members sorted, whose canonical JSON is the
same text; and so is what any other layout prints. -/
theorem canonicalJson_loads (codec : FloatCodec) {v : PyValue} (hv : IsData codec v) :
    (∃ text, canonicalJson v = .ok text ∧ loads codec.parse text = .ok (sortKeys v) ∧
      canonicalJson (sortKeys v) = .ok text) ∧
    (∀ layout : Layout, ∃ text, layout.dumps 0 v = .ok text ∧
      loads codec.parse (String.ofList text) = .ok (sortKeys v)) ∧
    (IsJson v → SameJson v (sortKeys v)) := by
  have hsame : Layout.compact.textOf 0 (sortKeys v) = Layout.compact.textOf 0 v :=
    congrArg (fun x => x.toOption.getD []) (dumps_sortKeys v hv 0)
  refine ⟨⟨_, canonicalJson_eq hv, loads_textOf hv, ?_⟩, fun layout => ?_, sameJson_sortKeys v⟩
  · rw [canonicalJson_eq (isData_sortKeys v hv), hsame]
  · have hread : ReadsBack codec layout 0 v := readsBack v hv 0
    exact ⟨_, hread.dumps_eq, loads_textOf hv⟩

/-- The float `1e-07`. -/
def tenMillionth : FloatText := .finite false Binary64.tenMillionth

/-- A conversion that knows `1e-07` and `NaN`. -/
def sampleCodec : FloatCodec where
  parse text := if text = tenMillionth.text then tenMillionth else .nan
  Recovered x := x = tenMillionth ∨ x = .nan
  recovered := by
    rintro x (rfl | rfl)
    · exact if_pos rfl
    · exact if_neg (by decide)

/-- A payload with two members out of order, and surrogates without partners. -/
def unsortedPayload : PyValue :=
  .dict [([codePoint 0x62], .list [.int (-20), .str [codePoint 0x1f600, codePoint 0xd83d]]),
    ([codePoint 0xde00, codePoint 0x61], .float tenMillionth)]

theorem canonicalJson_loads_unsorted :
    (∃ text, canonicalJson unsortedPayload = .ok text ∧
      loads sampleCodec.parse text = .ok (sortKeys unsortedPayload) ∧
      canonicalJson (sortKeys unsortedPayload) = .ok text) ∧
    (∀ layout : Layout, ∃ text, layout.dumps 0 unsortedPayload = .ok text ∧
      loads sampleCodec.parse (String.ofList text) = .ok (sortKeys unsortedPayload)) ∧
    (IsJson unsortedPayload → SameJson unsortedPayload (sortKeys unsortedPayload)) := by
  apply canonicalJson_loads
  refine ⟨by decide, ⟨?_, ⟨trivial, ?_, trivial⟩⟩, ⟨?_, .inl rfl⟩, trivial⟩
  all_goals simp [IsData, Unpaired, IsHighSurrogate, IsLowSurrogate, codePoint]

end Athena
