import Athena.Ledger.JsonTokens

/-!
# Loading JSON

`loads` is `json.loads`: values nested in arrays and objects, whitespace between
the tokens, the last of several members with one name. It raises
`JSONDecodeError` for anything else; the nesting that the interpreter's stack
allows is not bounded here.
-/

namespace Athena

namespace JsonLoads

open RecursiveDescent CanonicalJson

/-- The characters of `[ \t\n\r]*`. -/
def isWhitespace (c : Char) : Bool := [0x20, 0x09, 0x0a, 0x0d].contains c.toNat

def openBrace : Char := Char.ofNat 0x7b

def closeBrace : Char := Char.ofNat 0x7d

section Definitions

def propertyName : JsonReader PyStr where
  run
    | [] => .error .jsonDecodeError
    | c :: s => if c = quotationMark then scanString.run s else .error .jsonDecodeError
  shortens := by
    intro s b r h
    cases s with
    | nil => cases h
    | cons c s =>
      dsimp only at h
      split_ifs at h with hc
      exact lt_trans (scanString.shortens h) (Nat.lt_succ_self _)

def behindName (value : JsonReader PyValue) (name : PyStr) (s : List Char) :
    Except PyErr ((PyStr × PyValue) × List Char) :=
  match s.dropWhile isWhitespace with
  | [] => .error .jsonDecodeError
  | c :: rest =>
    if c = ':' then
      (value.run (rest.dropWhile isWhitespace)).map fun x => ((name, x.1), x.2)
    else .error .jsonDecodeError

theorem map_eq_ok {ε α β : Type} {x : Except ε α} {f : α → β} {b : β} (h : x.map f = .ok b) :
    ∃ a, x = .ok a ∧ f a = b := by
  cases x with
  | error e => cases h
  | ok a => exact ⟨a, rfl, Except.ok.inj h⟩

theorem behindName_eq_ok {value : JsonReader PyValue} {name : PyStr} {s r : List Char}
    {kv : PyStr × PyValue} (h : behindName value name s = .ok (kv, r)) :
    ∃ rest v, s.dropWhile isWhitespace = ':' :: rest ∧
      value.run (rest.dropWhile isWhitespace) = .ok (v, r) ∧ kv = (name, v) := by
  unfold behindName at h
  cases hs : s.dropWhile isWhitespace with
  | nil => rw [hs] at h; cases h
  | cons c rest =>
    rw [hs] at h
    dsimp only at h
    split_ifs at h with hc
    obtain ⟨x, hx, hkv⟩ := map_eq_ok h
    obtain ⟨hkv, hr⟩ := Prod.mk.inj hkv
    exact ⟨rest, x.1, by rw [hc], by rw [hx, ← hr], hkv.symm⟩

theorem behindName_of_eq {value : JsonReader PyValue} {name : PyStr} {s rest r : List Char}
    {v : PyValue} (hs : s.dropWhile isWhitespace = ':' :: rest)
    (hv : value.run (rest.dropWhile isWhitespace) = .ok (v, r)) :
    behindName value name s = .ok ((name, v), r) := by
  simp only [behindName, hs, if_true, hv]
  rfl

def readMember (value : JsonReader PyValue) : JsonReader (PyStr × PyValue) :=
  propertyName.andThen (behindName value) fun {name s kv r} h => by
    obtain ⟨rest, v, hs, hv, -⟩ := behindName_eq_ok h
    have hlength := length_dropWhile_le isWhitespace s
    have hrest := length_dropWhile_le isWhitespace rest
    have hvalue := value.shortens hv
    rw [hs, List.length_cons] at hlength
    omega

/-- What stands behind an opening bracket. -/
def readBlock {β : Type} (close : Char) (make : List β → PyValue) (items : JsonReader (List β))
    (s : List Char) : Except PyErr (PyValue × List Char) :=
  match s.dropWhile isWhitespace with
  | [] => .error .jsonDecodeError
  | c :: rest =>
    if c = close then .ok (make [], rest)
    else (items.run (c :: rest)).map fun x => (make x.1, x.2)

def readSeparated {β : Type} (close : Char) (item : JsonReader β) : JsonReader (List β) :=
  readItems .jsonDecodeError isWhitespace ',' close item

/-- The `dict` of the members of an object, assigned one after the other. -/
def dictOf (members : List (PyStr × PyValue)) : PyValue :=
  .dict (members.foldl (fun d kv => dictSet d kv.1 kv.2) [])

def parseArray (value : JsonReader PyValue) : List Char → Except PyErr (PyValue × List Char) :=
  readBlock ']' .list (readSeparated ']' value)

def parseObject (value : JsonReader PyValue) : List Char → Except PyErr (PyValue × List Char) :=
  readBlock closeBrace dictOf (readSeparated closeBrace (readMember value))

theorem readBlock_length {β : Type} {close : Char} {make : List β → PyValue}
    {items : JsonReader (List β)} {s r : List Char} {v : PyValue}
    (h : readBlock close make items s = .ok (v, r)) : r.length < s.length := by
  have hs := length_dropWhile_le isWhitespace s
  unfold readBlock at h
  cases hd : s.dropWhile isWhitespace with
  | nil => rw [hd] at h; cases h
  | cons c rest =>
    rw [hd] at h hs
    dsimp only at h
    split_ifs at h with hc
    · obtain ⟨-, rfl⟩ := ok_pair_inj h
      exact hs
    · obtain ⟨x, hx, hxr⟩ := map_eq_ok h
      have hlength := items.shortens hx
      rw [← (Prod.mk.inj hxr).2]
      omega

variable (parseFloat : List Char → FloatText)

/-- A value, given how the values inside it are read. -/
def valueStep (value : JsonReader PyValue) : JsonReader PyValue where
  run
    | [] => .error .jsonDecodeError
    | c :: s =>
      if c = quotationMark then (scanString.run s).map fun x => (.str x.1, x.2)
      else if c = '[' then parseArray value s
      else if c = openBrace then parseObject value s
      else scanPlain parseFloat (c :: s)
  shortens := by
    intro s v r h
    cases s with
    | nil => cases h
    | cons c s =>
      dsimp only at h
      split_ifs at h with hquote hbracket hbrace
      · obtain ⟨x, hx, hxr⟩ := map_eq_ok h
        rw [← (Prod.mk.inj hxr).2]
        exact lt_trans (scanString.shortens hx) (Nat.lt_succ_self _)
      · exact lt_trans (readBlock_length h) (Nat.lt_succ_self _)
      · exact lt_trans (readBlock_length h) (Nat.lt_succ_self _)
      · exact scanPlain_length h

def scanOnce : JsonReader PyValue := descend .jsonDecodeError (valueStep parseFloat)

def utf8Bom : Char := Char.ofNat 0xfeff

def loads (text : String) : Except PyErr PyValue :=
  if text.toList.head? = some utf8Bom then .error .jsonDecodeError
  else
    match (scanOnce parseFloat).run (text.toList.dropWhile isWhitespace) with
    | .error e => .error e
    | .ok (v, rest) =>
      if rest.dropWhile isWhitespace = [] then .ok v else .error .jsonDecodeError

end Definitions

section Descent

variable {parseFloat : List Char → FloatText}

theorem readMember_congr {p q : JsonReader PyValue} {s : List Char}
    (h : ∀ t : List Char, t.length ≤ s.length → p.run t = q.run t) :
    (readMember p).run s = (readMember q).run s := by
  simp only [readMember, Reader.andThen]
  cases hname : propertyName.run s with
  | error e => rfl
  | ok x =>
    have hx := propertyName.shortens hname
    simp only [Except.bind, behindName]
    cases hd : x.2.dropWhile isWhitespace with
    | nil => rfl
    | cons c rest =>
      have hlength := length_dropWhile_le isWhitespace x.2
      have hrest := length_dropWhile_le isWhitespace rest
      rw [hd, List.length_cons] at hlength
      simp only [h (rest.dropWhile isWhitespace) (by omega)]

theorem readBlock_congr {β : Type} {close : Char} {make : List β → PyValue}
    {p q : JsonReader (List β)} {s : List Char}
    (h : ∀ t : List Char, t.length ≤ s.length → p.run t = q.run t) :
    readBlock close make p s = readBlock close make q s := by
  unfold readBlock
  cases hd : s.dropWhile isWhitespace with
  | nil => rfl
  | cons c rest =>
    have hlength := length_dropWhile_le isWhitespace s
    rw [hd] at hlength
    simp only [h (c :: rest) hlength]

theorem valueStep_guarded : Guarded (valueStep parseFloat) := by
  intro p q s h
  cases s with
  | nil => rfl
  | cons c s =>
    have hinner : ∀ t : List Char, t.length ≤ s.length → p.run t = q.run t :=
      fun t ht => h t (Nat.lt_succ_of_le ht)
    have harray : parseArray p s = parseArray q s :=
      readBlock_congr fun t ht => readItems_congr fun u hu => hinner u (hu.trans ht)
    have hobject : parseObject p s = parseObject q s :=
      readBlock_congr fun t ht => readItems_congr fun u hu =>
        readMember_congr fun w hw => hinner w ((hw.trans hu).trans ht)
    simp only [valueStep, harray, hobject]

theorem scanOnce_run (s : List Char) :
    (scanOnce parseFloat).run s = (valueStep parseFloat (scanOnce parseFloat)).run s :=
  descend_run valueStep_guarded s

theorem scanOnce_quote (s : List Char) : (scanOnce parseFloat).run (quotationMark :: s) =
    (scanString.run s).map fun x => (.str x.1, x.2) := by
  rw [scanOnce_run]
  simp only [valueStep, if_true]

theorem scanOnce_bracket (s : List Char) :
    (scanOnce parseFloat).run ('[' :: s) = parseArray (scanOnce parseFloat) s := by
  rw [scanOnce_run]
  rfl

theorem scanOnce_brace (s : List Char) :
    (scanOnce parseFloat).run (openBrace :: s) = parseObject (scanOnce parseFloat) s := by
  rw [scanOnce_run]
  rfl

theorem scanOnce_plain {c : Char} (hquote : c ≠ quotationMark) (hbracket : c ≠ '[')
    (hbrace : c ≠ openBrace) (s : List Char) :
    (scanOnce parseFloat).run (c :: s) = scanPlain parseFloat (c :: s) := by
  rw [scanOnce_run]
  simp only [valueStep, if_neg hquote, if_neg hbracket, if_neg hbrace]

end Descent

section Prolonged

variable {parseFloat : List Char → FloatText}

theorem halts_of_isWhitespace {c : Char} (h : isWhitespace c = true) : Halts c := by
  have hprolongs : Prolongs c → isWhitespace c = false := by
    rintro (hdigit | hsign)
    · simp only [Char.isDigit, Bool.and_eq_true, decide_eq_true_eq,
        UInt32.le_iff_toNat_le] at hdigit
      have hlow : 48 ≤ c.toNat := hdigit.1
      simp only [isWhitespace, List.contains_eq_mem, List.mem_cons, List.not_mem_nil, or_false,
        decide_eq_false_iff_not]
      omega
    · simp only [List.mem_cons, List.not_mem_nil, or_false] at hsign
      rcases hsign with rfl | rfl | rfl | rfl | rfl <;> rfl
  intro hc
  rw [hprolongs hc] at h
  cases h

theorem propertyName_append {s r : List Char} {name : PyStr}
    (h : propertyName.run s = .ok (name, r)) (t : List Char) :
    propertyName.run (s ++ t) = .ok (name, r ++ t) := by
  cases s with
  | nil => cases h
  | cons c s =>
    simp only [propertyName, List.cons_append] at h ⊢
    split_ifs at h ⊢ with hc
    exact scanString_closed s name r t h

theorem readMember_stable {value : JsonReader PyValue} (hvalue : Stable value Halts) :
    Stable (readMember value) Halts := by
  intro s kv r t h hr
  simp only [readMember, Reader.andThen] at h ⊢
  cases hname : propertyName.run s with
  | error e => rw [hname] at h; cases h
  | ok x =>
    rw [hname] at h
    obtain ⟨rest, v, hcolon, hread, rfl⟩ := behindName_eq_ok h
    rw [propertyName_append hname t]
    apply behindName_of_eq (dropWhile_append_of_cons hcolon)
    rw [dropWhile_append_of_run hread t]
    exact hvalue _ v r t hread hr

theorem readSeparated_closed {β : Type} {close : Char} {item : JsonReader β}
    (hitem : Stable item Halts) (hclose : Halts close) : Closed (readSeparated close item) :=
  readItems_closed hitem (fun _ => halts_of_isWhitespace) (by decide) hclose

theorem readBlock_append {β : Type} {close : Char} {make : List β → PyValue}
    {items : JsonReader (List β)} (hitems : Closed items) {s r : List Char} {v : PyValue}
    (h : readBlock close make items s = .ok (v, r)) (t : List Char) :
    readBlock close make items (s ++ t) = .ok (v, r ++ t) := by
  unfold readBlock at h ⊢
  cases hd : s.dropWhile isWhitespace with
  | nil => rw [hd] at h; cases h
  | cons c rest =>
    rw [hd] at h
    rw [dropWhile_append_of_cons hd]
    dsimp only at h ⊢
    split_ifs at h ⊢ with hc
    · obtain ⟨rfl, rfl⟩ := ok_pair_inj h
      rfl
    · obtain ⟨x, hx, hxr⟩ := map_eq_ok h
      obtain ⟨rfl, rfl⟩ := Prod.mk.inj hxr
      have hmore := hitems _ x.1 x.2 t hx
      rw [List.cons_append] at hmore
      rw [hmore]
      rfl

theorem parseArray_append {value : JsonReader PyValue} (hvalue : Stable value Halts)
    {s r : List Char} {v : PyValue} (h : parseArray value s = .ok (v, r)) (t : List Char) :
    parseArray value (s ++ t) = .ok (v, r ++ t) :=
  readBlock_append (readSeparated_closed hvalue (by decide)) h t

theorem parseObject_append {value : JsonReader PyValue} (hvalue : Stable value Halts)
    {s r : List Char} {v : PyValue} (h : parseObject value s = .ok (v, r)) (t : List Char) :
    parseObject value (s ++ t) = .ok (v, r ++ t) :=
  readBlock_append (readSeparated_closed (readMember_stable hvalue) (by decide)) h t

theorem valueStep_stable (value : JsonReader PyValue) (hvalue : Stable value Halts) :
    Stable (valueStep parseFloat value) Halts := by
  intro s v r t h hr
  cases s with
  | nil => cases h
  | cons c s =>
    simp only [valueStep, List.cons_append] at h ⊢
    split_ifs at h ⊢ with hquote hbracket hbrace
    · obtain ⟨x, hx, hxr⟩ := map_eq_ok h
      obtain ⟨rfl, rfl⟩ := Prod.mk.inj hxr
      rw [scanString_closed s x.1 x.2 t hx]
      rfl
    · exact parseArray_append hvalue h t
    · exact parseObject_append hvalue h t
    · exact scanPlain_append h hr t

/-- A value that has ended stays the same when the text goes on. -/
theorem scanOnce_stable : Stable (scanOnce parseFloat) Halts :=
  descend_stable valueStep_guarded valueStep_stable

def Opens (c : Char) : Prop := c = quotationMark ∨ c = '[' ∨ c = openBrace

theorem Opens.not_whitespace {c : Char} (h : Opens c) : isWhitespace c = false := by
  rcases h with rfl | rfl | rfl <;> rfl

theorem scanOnce_enclosed {s r : List Char} {v : PyValue}
    (h : (scanOnce parseFloat).run s = .ok (v, r)) {c : Char} {u : List Char} (hs : s = c :: u)
    (hc : Opens c) (t : List Char) : (scanOnce parseFloat).run (s ++ t) = .ok (v, r ++ t) := by
  subst hs
  rw [List.cons_append]
  rcases hc with rfl | rfl | rfl
  · rw [scanOnce_quote] at h ⊢
    obtain ⟨x, hx, hxr⟩ := map_eq_ok h
    obtain ⟨rfl, rfl⟩ := Prod.mk.inj hxr
    rw [scanString_closed u x.1 x.2 t hx]
    rfl
  · rw [scanOnce_bracket] at h ⊢
    exact parseArray_append scanOnce_stable h t
  · rw [scanOnce_brace] at h ⊢
    exact parseObject_append scanOnce_stable h t

theorem loads_eq_ok {text : String} {v : PyValue} (h : loads parseFloat text = .ok v) :
    ∃ rest, (scanOnce parseFloat).run (text.toList.dropWhile isWhitespace) = .ok (v, rest) ∧
      rest.dropWhile isWhitespace = [] := by
  unfold loads at h
  split_ifs at h with hmark
  cases hscan : (scanOnce parseFloat).run (text.toList.dropWhile isWhitespace) with
  | error e => rw [hscan] at h; cases h
  | ok x =>
    rw [hscan] at h
    dsimp only at h
    split_ifs at h with hrest
    cases h
    exact ⟨x.2, rfl, hrest⟩

/-- If an enclosed value is read to the end of its text, no proper front of the text loads. -/
theorem not_loads_of_proper {text front : List Char} {c : Char} {u : List Char} {v : PyValue}
    (htext : text = c :: u) (hc : Opens c)
    (hscan : (scanOnce parseFloat).run text = .ok (v, [])) (hfront : front <+: text)
    (hne : front ≠ text) (v' : PyValue) : loads parseFloat (String.ofList front) ≠ .ok v' := by
  intro h
  obtain ⟨w, hw⟩ := hfront
  obtain ⟨rest, hread, -⟩ := loads_eq_ok h
  rw [String.toList_ofList] at hread
  cases front with
  | nil =>
    rw [List.dropWhile_nil] at hread
    exact absurd ((scanOnce parseFloat).shortens hread) (Nat.not_lt_zero _)
  | cons d front =>
    have hdc : d = c := by
      rw [htext] at hw
      exact (List.cons.inj hw).1
    subst hdc
    rw [List.dropWhile_cons_of_neg (by simp [hc.not_whitespace])] at hread
    have hlong := scanOnce_enclosed hread rfl hc w
    rw [hw, hscan] at hlong
    have hend := (ok_pair_inj hlong).2
    have hwnil : w = [] := (List.append_eq_nil_iff.mp hend.symm).2
    exact hne (by rw [← hw, hwnil, List.append_nil])

end Prolonged

end JsonLoads

end Athena
