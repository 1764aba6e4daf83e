import Athena.Core.Numerals

/-!
# Textfiles of the metrics collector

A textfile is a list of lines, each a first word, a space and a rest. A gauge
has a sample for every line whose first word is its name.
-/

namespace Athena

structure MetricLine where
  word : List Char
  rest : List Char
  spaceFree : ' ' ∉ word
  oneLine : OneLine word ∧ OneLine rest

theorem IsWord.spaceFree {s : List Char} (h : IsWord s) : ' ' ∉ s := fun hmem =>
  absurd (h.2 _ hmem) (by decide)

abbrev MetricName := {name : List Char // IsWord name}

namespace MetricLine

def text (l : MetricLine) : List Char := l.word ++ ' ' :: l.rest

def help (name : MetricName) (doc : String) (h : OneLine doc.toList := by decide +kernel) :
    MetricLine where
  word := ['#']
  rest := "HELP ".toList ++ (name.val ++ ' ' :: doc.toList)
  spaceFree := by decide
  oneLine := by
    refine ⟨by decide, ?_⟩
    rw [oneLine_append, oneLine_append, oneLine_cons]
    exact ⟨by decide, name.2.oneLine, by decide, h⟩

def gauge (name : MetricName) : MetricLine where
  word := ['#']
  rest := "TYPE ".toList ++ (name.val ++ " gauge".toList)
  spaceFree := by decide
  oneLine := by
    refine ⟨by decide, ?_⟩
    rw [oneLine_append, oneLine_append]
    exact ⟨by decide, name.2.oneLine, by decide⟩

def sample (name : MetricName) (value : {v : List Char // IsWord v}) : MetricLine where
  word := name.val
  rest := value.val
  spaceFree := name.2.spaceFree
  oneLine := ⟨name.2.oneLine, value.2.oneLine⟩

theorem text_oneLine (l : MetricLine) : OneLine l.text := by
  rw [text, oneLine_append, oneLine_cons]
  exact ⟨l.oneLine.1, by decide, l.oneLine.2⟩

theorem words_sample (name : MetricName) (value : {v : List Char // IsWord v}) :
    words (sample name value).text = [name.val, value.val] := by
  rw [text, sample, words_append name.2, words_of_isWord value.2]

/-- The line is a line of the metric `name`. -/
def IsOf (name : MetricName) (line : List Char) : Bool := (name.val ++ [' ']).isPrefixOf line

theorem isOf_text (name : MetricName) (l : MetricLine) : IsOf name l.text = true ↔ l.word = name :=
  isPrefixOf_word_iff name.2.spaceFree l.spaceFree l.rest

end MetricLine

/-- The file that consists of the lines. -/
def render (lines : List MetricLine) : List Char := lines.flatMap fun l => l.text ++ [newline]

theorem splitlines_render (lines : List MetricLine) :
    splitlines (render lines) = lines.map MetricLine.text := by
  have hflat : render lines = (lines.map MetricLine.text).flatMap fun l => l ++ [newline] := by
    rw [render, List.flatMap_map]
  rw [hflat, splitlines_flatMap]
  intro l hl
  obtain ⟨line, -, rfl⟩ := List.mem_map.mp hl
  exact line.text_oneLine

/-- The values of all samples of a metric. -/
def samples (text : List Char) (name : MetricName) : List (List Char) :=
  ((splitlines text).filter (MetricLine.IsOf name)).map (List.drop (name.val.length + 1))

theorem samples_render (lines : List MetricLine) (name : MetricName) :
    samples (render lines) name =
      (lines.filter fun l => l.word = name.val).map MetricLine.rest := by
  rw [samples, splitlines_render]
  induction lines with
  | nil => rfl
  | cons l lines ih =>
    by_cases hword : l.word = name.val
    · have hof : MetricLine.IsOf name l.text = true := (MetricLine.isOf_text name l).mpr hword
      have hdrop : l.text.drop (name.val.length + 1) = l.rest := by
        rw [MetricLine.text, hword, List.drop_append]
        simp
      rw [List.map_cons, List.filter_cons_of_pos hof, List.map_cons, ih,
        List.filter_cons_of_pos (by simpa using hword), List.map_cons, hdrop]
    · have hof : ¬ MetricLine.IsOf name l.text = true := fun h =>
        hword ((MetricLine.isOf_text name l).mp h)
      rw [List.map_cons, List.filter_cons_of_neg hof, ih,
        List.filter_cons_of_neg (by simpa using hword)]

theorem find_render (lines : List MetricLine) (name : MetricName) :
    (splitlines (render lines)).find? (MetricLine.IsOf name) =
      (lines.find? fun l => l.word = name.val).map MetricLine.text := by
  have hof : (MetricLine.IsOf name ∘ MetricLine.text) = fun l => decide (l.word = name.val) := by
    funext l
    rw [Function.comp_apply, Bool.eq_iff_iff, MetricLine.isOf_text, decide_eq_true_eq]
  rw [splitlines_render, List.find?_map, hof]

def printInt (n : Int) : {v : List Char // IsWord v} := ⟨(strInt n).toList, strInt_isWord n⟩

section Emitting

variable {α ε : Type*}

/-- The output file after emitters one after the other, if there was none at first. An emitter
makes a file of the one it finds. -/
def emittedBy (emit : Option (List Char) → α → Except ε (List Char)) (es : List α) :
    Except ε (Option (List Char)) :=
  es.foldlM (fun output e => (emit output e).map some) none

theorem emittedBy_append (emit : Option (List Char) → α → Except ε (List Char)) (es : List α)
    (e : α) :
    emittedBy emit (es ++ [e]) =
      (emittedBy emit es).bind fun output => (emit output e).map some := by
  unfold emittedBy
  simp only [List.foldlM_append, List.foldlM_cons, List.foldlM_nil, bind_pure]
  rfl

theorem emittedBy_append_ok {emit : Option (List Char) → α → Except ε (List Char)} {es : List α}
    {e : α} {output : Option (List Char)} {text : List Char} (hes : emittedBy emit es = .ok output)
    (he : emit output e = .ok text) : emittedBy emit (es ++ [e]) = .ok (some text) := by
  rw [emittedBy_append, hes]
  exact congrArg (Except.map some) he

theorem emittedBy_append_isSome {emit : Option (List Char) → α → Except ε (List Char)}
    {es : List α} {e : α} {output : Option (List Char)}
    (h : emittedBy emit (es ++ [e]) = .ok output) : output.isSome := by
  rw [emittedBy_append] at h
  cases hes : emittedBy emit es with
  | error err => rw [hes] at h; cases h
  | ok before =>
    cases he : emit before e with
    | error err => cases (congrArg (Except.map some) he).symm.trans (hes ▸ h)
    | ok text => cases (congrArg (Except.map some) he).symm.trans (hes ▸ h); rfl

end Emitting

theorem parseFloatInt_printInt {n : Int} (hn : |n| ≤ 2 ^ 53) :
    parseFloatInt (printInt n).val = .ok n := parseFloatInt_strInt hn

end Athena
