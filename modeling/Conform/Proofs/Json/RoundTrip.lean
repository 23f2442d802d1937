import Conform.Codec
import Conform.Proofs.Json.Document
import Conform.Proofs.Json.Numeral
import Conform.Proofs.Json.Quoted

/-!
# Written JSON is read back

A text *reads as* a value if it is read as that value wherever it stands (`ReadsAs`).  The text of
a document reads as the document, in every layout and at every level (`exists_write`); the one
induction is on the document, and the lists in it are gone through item by item, with the layout's
separators between them.  So rendering a document and reading the text gives the document again,
with its keys in their order, whenever the indentation fits into a word (`parseText_renderText`).
-/

namespace Conform

namespace Json

open Value Digits

/-! ## Blanks -/

/-- There are only blanks in the text. -/
def IsSpace (ws : List Char) : Prop := ∀ c ∈ ws, isBlank c = true

theorem skipBlanks_append {ws : List Char} (h : IsSpace ws) (cs : List Char) :
    skipBlanks (ws ++ cs) = skipBlanks cs :=
  List.dropWhile_append_of_pos h

theorem skipBlanks_cons {c : Char} (h : isBlank c = false) (cs : List Char) :
    skipBlanks (c :: cs) = c :: cs :=
  List.dropWhile_cons_of_neg (by simp [h])

theorem isSpace_singleton : IsSpace [' '] := List.forall_mem_singleton.mpr (by decide)

theorem isSpace_lineBreak (layout : Layout) (level : Nat) : IsSpace (lineBreak layout level) := by
  intro c hc
  cases layout with
  | compact => cases hc
  | lines indent =>
      rcases List.mem_cons.mp hc with rfl | hc
      · decide
      · rw [List.eq_of_mem_replicate hc]
        decide

theorem separator_eq (layout : Layout) (level : Nat) :
    ∃ ws, separator layout level = ',' :: ws ∧ IsSpace ws := by
  cases layout with
  | compact => exact ⟨[' '], rfl, isSpace_singleton⟩
  | lines indent => exact ⟨_, rfl, isSpace_lineBreak (.lines indent) level⟩

theorem endsNumber_append {ws rest : List Char} (h : IsSpace ws) (hrest : EndsNumber rest) :
    EndsNumber (ws ++ rest) := by
  cases ws with
  | nil => exact hrest
  | cons c ws =>
      have hc := h c List.mem_cons_self
      simp only [isBlank, Bool.or_eq_true, beq_iff_eq] at hc
      rcases hc with ((rfl | rfl) | rfl) | rfl <;>
        exact endsNumber_cons (by decide) (by decide) (by decide) (by decide) _

/-! ## Texts that read as a value -/

/-- The text is read as the value wherever it stands, if nothing behind it goes on with a number.
Two nested steps for each character are enough. -/
structure ReadsAs (cs : List Char) (v : Value) : Prop where
  /-- It starts with neither a blank, a closing bracket nor a byte order mark. -/
  start : ∃ c tail, cs = c :: tail ∧ isBlank c = false ∧ c ∉ [']', '\uFEFF']
  read : ∀ {steps : Nat} {rest : List Char}, 2 * cs.length ≤ steps → EndsNumber rest →
    readValue steps (cs ++ rest) = .ok (v, rest)

theorem ReadsAs.skip {cs : List Char} {v : Value} (h : ReadsAs cs v) {ws : List Char}
    (hws : IsSpace ws) (rest : List Char) :
    skipBlanks (ws ++ (cs ++ rest)) = cs ++ rest := by
  obtain ⟨c, tail, rfl, hc, -⟩ := h.start
  rw [skipBlanks_append hws, List.cons_append, skipBlanks_cons hc]

/-- It is enough that the text is read in one step. -/
theorem readsAs_of_step {c : Char} {tail : List Char} {v : Value} (hblank : isBlank c = false)
    (hstart : c ∉ [']', '\uFEFF']) (hread : ∀ (steps : Nat) {rest : List Char}, EndsNumber rest →
      readValue (steps + 1) (c :: (tail ++ rest)) = .ok (v, rest)) :
    ReadsAs (c :: tail) v where
  start := ⟨c, tail, rfl, hblank, hstart⟩
  read := by
    intro steps rest hsteps hrest
    rw [List.length_cons] at hsteps
    obtain ⟨n, rfl⟩ : ∃ n, steps = n + 1 := ⟨steps - 1, by omega⟩
    exact hread n hrest

theorem readsAs_null : ReadsAs "null".toList .null := by
  show ReadsAs ['n', 'u', 'l', 'l'] _
  refine readsAs_of_step (by decide) (by decide) ?_
  intro steps rest _
  simp only [List.cons_append, List.nil_append, readValue]

theorem readsAs_bool (b : Bool) : ReadsAs (if b then "true" else "false").toList (.bool b) := by
  cases b with
  | false =>
      show ReadsAs ['f', 'a', 'l', 's', 'e'] _
      refine readsAs_of_step (by decide) (by decide) ?_
      intro steps rest _
      simp only [List.cons_append, List.nil_append, readValue]
  | true =>
      show ReadsAs ['t', 'r', 'u', 'e'] _
      refine readsAs_of_step (by decide) (by decide) ?_
      intro steps rest _
      simp only [List.cons_append, List.nil_append, readValue]

theorem readsAs_quote (s : String) : ReadsAs (quote false s.toList) (.text s) := by
  refine readsAs_of_step (by decide) (by decide) ?_
  intro steps rest _
  rw [List.append_assoc, List.singleton_append, readValue, readString_quote]
  simp [Except.map]

theorem isBlank_of_isDigit {c : Char} (h : isDigit c = true) : isBlank c = false := by
  simp only [isDigit, Bool.and_eq_true, decide_eq_true_eq] at h
  simp only [isBlank, Bool.or_eq_false_iff, beq_eq_false_iff_ne]
  refine ⟨⟨⟨?_, ?_⟩, ?_⟩, ?_⟩ <;> (rintro rfl; revert h; decide)

theorem readValue_digit {c : Char} (h : isDigit c = true) (steps : Nat) (cs : List Char) :
    readValue (steps + 1) (c :: cs) = readNumber (c :: cs) := by
  rw [readValue] <;> (intro rest heq; injection heq with hc; subst hc; revert h; decide)

theorem readValue_minus {c : Char} (h : isDigit c = true) (steps : Nat) (cs : List Char) :
    readValue (steps + 1) ('-' :: c :: cs) = readNumber ('-' :: c :: cs) := by
  rw [readValue] <;> (intro rest heq; simp at heq)
  obtain ⟨rfl, -⟩ := heq
  revert h
  decide

theorem readsAs_numeral {n : Numeral} (h : n.IsProper) {negative : Bool} {v : Value}
    (hread : ∀ {rest : List Char}, EndsNumber rest →
      readNumber (signText negative ++ (n.text ++ rest)) = .ok (v, rest)) :
    ReadsAs (signText negative ++ n.text) v := by
  obtain ⟨c, tail, htext, hc⟩ := h.exists_text_eq
  cases negative with
  | false =>
      have hstart : c ∉ [']', '\uFEFF'] := by
        intro hmem
        simp only [List.mem_cons, List.not_mem_nil, or_false] at hmem
        rcases hmem with rfl | rfl <;> (revert hc; decide)
      rw [htext] at hread ⊢
      refine readsAs_of_step (isBlank_of_isDigit hc) hstart ?_
      intro steps rest hrest
      rw [readValue_digit hc]
      exact hread hrest
  | true =>
      rw [htext] at hread ⊢
      refine readsAs_of_step (by decide) (by decide) ?_
      intro steps rest hrest
      show readValue (steps + 1) ('-' :: c :: (tail ++ rest)) = _
      rw [readValue_minus hc]
      exact hread hrest

theorem readsAs_ofInt {n : Int} (hn : withinLimit n = true) : ReadsAs (ofInt n) (.int n) := by
  rw [ofInt_eq]
  refine readsAs_numeral (isProper_wholeNumeral _) ?_
  intro rest hrest
  rw [← List.append_assoc, ← ofInt_eq]
  exact readNumber_ofInt hn hrest

theorem readsAs_float (x : Binary64) : ReadsAs (x.write floatWords) (.float x) := by
  cases x with
  | nan =>
      show ReadsAs ['N', 'a', 'N'] _
      refine readsAs_of_step (by decide) (by decide) ?_
      intro steps rest _
      simp only [List.cons_append, List.nil_append, readValue]
  | infinite negative =>
      cases negative with
      | false =>
          show ReadsAs ['I', 'n', 'f', 'i', 'n', 'i', 't', 'y'] _
          refine readsAs_of_step (by decide) (by decide) ?_
          intro steps rest _
          simp only [List.cons_append, List.nil_append, readValue]
      | true =>
          show ReadsAs ['-', 'I', 'n', 'f', 'i', 'n', 'i', 't', 'y'] _
          refine readsAs_of_step (by decide) (by decide) ?_
          intro steps rest _
          simp only [List.cons_append, List.nil_append, readValue]
  | finite negative m e hc =>
      obtain ⟨n, hn, hnotInt, htext, hreading⟩ := exists_numeral_finite negative hc floatWords
      rw [htext]
      refine readsAs_numeral hn ?_
      intro rest hrest
      rw [Numeral.readNumber_text hn hrest, if_neg hnotInt, hreading]

/-! ## Items -/

theorem endsNumber_comma (rest : List Char) : EndsNumber (',' :: rest) :=
  endsNumber_cons (by decide) (by decide) (by decide) (by decide) rest

/-- A closing bracket or brace ends a number, also behind blanks. -/
theorem endsNumber_closing {ws : List Char} (hws : IsSpace ws) {c : Char} (hc : c = ']' ∨ c = '}')
    (rest : List Char) : EndsNumber (ws ++ c :: rest) := by
  refine endsNumber_append hws ?_
  rcases hc with rfl | rfl <;>
    exact endsNumber_cons (by decide) (by decide) (by decide) (by decide) rest

/-- The text reads as these items, up to the closing bracket, behind any first one. -/
def ItemsRead (tail : List Char) (xs : List Value) : Prop :=
  ∀ {body : List Char} {x : Value}, ReadsAs body x → ∀ {steps : Nat} {ws : List Char}
    (rest : List Char), IsSpace ws → 2 * (body.length + tail.length) + 1 ≤ steps →
      readItems steps (body ++ (tail ++ (ws ++ ']' :: rest))) = .ok (x :: xs, rest)

theorem itemsRead_nil : ItemsRead [] [] := by
  intro body x hbody steps ws rest hws hsteps
  obtain ⟨n, rfl⟩ : ∃ n, steps = n + 1 := ⟨steps - 1, by omega⟩
  rw [List.nil_append, readItems, hbody.read (by omega) (endsNumber_closing hws (Or.inl rfl) rest)]
  simp only [skipBlanks_append hws, skipBlanks_cons (c := ']') (by decide)]

theorem ItemsRead.cons {body tail : List Char} {x : Value} {xs : List Value}
    (hbody : ReadsAs body x) (htail : ItemsRead tail xs) (layout : Layout) (level : Nat) :
    ItemsRead (separator layout level ++ body ++ tail) (x :: xs) := by
  intro first y hfirst steps ws rest hws hsteps
  obtain ⟨n, rfl⟩ : ∃ n, steps = n + 1 := ⟨steps - 1, by omega⟩
  obtain ⟨gap, hgap, hspace⟩ := separator_eq layout level
  rw [hgap] at hsteps ⊢
  simp only [List.cons_append, List.append_assoc, List.length_cons, List.length_append] at hsteps ⊢
  rw [readItems, hfirst.read (by omega) (endsNumber_comma _)]
  simp only [skipBlanks_cons (c := ',') (by decide), hbody.skip hspace]
  rw [htail hbody rest hws (by omega)]
  rfl

theorem ItemsRead.list {body tail : List Char} {x : Value} {xs : List Value}
    (hbody : ReadsAs body x) (htail : ItemsRead tail xs) (layout : Layout) (level : Nat) :
    ReadsAs (enclose layout level '[' ']' (body ++ tail)) (.list (x :: xs)) where
  start := ⟨'[', _, rfl, by decide, by decide⟩
  read := by
    intro steps rest hsteps _
    obtain ⟨n, rfl⟩ : ∃ n, steps = n + 1 := ⟨steps - 1, by simp [enclose] at hsteps; omega⟩
    have hitems : readItems n (body ++ (tail ++ (lineBreak layout level ++ ']' :: rest))) = _ :=
      htail hbody rest (isSpace_lineBreak layout level) (by simp [enclose] at hsteps; omega)
    have hskip := hbody.skip (isSpace_lineBreak layout (level + 1))
      (tail ++ (lineBreak layout level ++ ']' :: rest))
    obtain ⟨c, cs, rfl, -, hstart⟩ := hbody.start
    simp only [List.cons_append] at hitems hskip
    simp only [enclose, List.cons_append, List.append_assoc, List.nil_append, readValue, hskip]
    split
    · rename_i heq
      exact absurd (List.cons.inj heq).1 fun hc => hstart (by simp [hc])
    · rw [hitems]
      rfl

/-! ## Entries -/

def entryText (key : String) (body : List Char) : List Char :=
  quote false key.toList ++ ':' :: ' ' :: body

/-- The text reads as these entries, up to the closing brace, behind any first one. -/
def EntriesRead (tail : List Char) (es : Entries) : Prop :=
  ∀ (key : String) {body : List Char} {v : Value}, ReadsAs body v → ∀ {steps : Nat}
    {ws : List Char} (rest : List Char), IsSpace ws → 2 * (body.length + tail.length) + 1 ≤ steps →
      readEntries steps (entryText key body ++ (tail ++ (ws ++ '}' :: rest))) =
        .ok ((.text key, v) :: es, rest)

/-- Reads what stands behind an entry: the closing brace, or a comma and the other entries. -/
def readBehind (steps : Nat) (entry : Value × Value) (rest : List Char) :
    Result (List (Value × Value)) :=
  match skipBlanks rest with
  | '}' :: rest => .ok ([entry], rest)
  | ',' :: rest => (readEntries steps (skipBlanks rest)).map fun r => (entry :: r.1, r.2)
  | rest => .error ⟨.expectingComma, rest⟩

/-- The first of some entries is read, and then what stands behind it. -/
theorem readEntries_entryText (key : String) {body : List Char} {v : Value} (hbody : ReadsAs body v)
    {steps : Nat} {rest : List Char} (hsteps : 2 * body.length ≤ steps) (hrest : EndsNumber rest) :
    readEntries (steps + 1) (entryText key body ++ rest) = readBehind steps (.text key, v) rest := by
  have hskip := hbody.skip isSpace_singleton rest
  rw [List.singleton_append] at hskip
  simp only [entryText, quote, List.cons_append, List.append_assoc, List.nil_append, readEntries,
    readString_quote, skipBlanks_cons (c := ':') (by decide), hskip, hbody.read hsteps hrest,
    String.ofList_toList]
  rfl

theorem entriesRead_nil : EntriesRead [] [] := by
  intro key body v hbody steps ws rest hws hsteps
  obtain ⟨n, rfl⟩ : ∃ n, steps = n + 1 := ⟨steps - 1, by omega⟩
  rw [List.nil_append, readEntries_entryText key hbody (by omega)
    (endsNumber_closing hws (Or.inr rfl) rest), readBehind]
  simp only [skipBlanks_append hws, skipBlanks_cons (c := '}') (by decide)]

theorem EntriesRead.cons {key : String} {body tail : List Char} {v : Value} {es : Entries}
    (hbody : ReadsAs body v) (htail : EntriesRead tail es) (layout : Layout) (level : Nat) :
    EntriesRead (separator layout level ++ entryText key body ++ tail) ((.text key, v) :: es) := by
  intro first body' w hfirst steps ws rest hws hsteps
  obtain ⟨n, rfl⟩ : ∃ n, steps = n + 1 := ⟨steps - 1, by omega⟩
  obtain ⟨gap, hgap, hspace⟩ := separator_eq layout level
  rw [hgap] at hsteps ⊢
  simp only [List.cons_append, List.append_assoc, List.length_cons, List.length_append] at hsteps ⊢
  rw [readEntries_entryText first hfirst (by omega) (endsNumber_comma _), readBehind]
  have hlen : body.length ≤ (entryText key body).length := by simp [entryText]; omega
  have hskip : skipBlanks (gap ++ (entryText key body ++ (tail ++ (ws ++ '}' :: rest)))) =
      entryText key body ++ (tail ++ (ws ++ '}' :: rest)) := by
    rw [skipBlanks_append hspace]
    exact skipBlanks_cons (by decide) _
  simp only [skipBlanks_cons (c := ',') (by decide), hskip]
  rw [htail key hbody rest hws (by omega)]
  rfl

theorem EntriesRead.map {key : String} {body tail : List Char} {v : Value} {es : Entries}
    (hbody : ReadsAs body v) (htail : EntriesRead tail es)
    (hdistinct : KeysDistinct ((.text key, v) :: es)) (layout : Layout) (level : Nat) :
    ReadsAs (enclose layout level '{' '}' (entryText key body ++ tail))
      (.map ((.text key, v) :: es)) where
  start := ⟨'{', _, rfl, by decide, by decide⟩
  read := by
    intro steps rest hsteps _
    have hlen : body.length ≤ (entryText key body).length := by simp [entryText]; omega
    obtain ⟨n, rfl⟩ : ∃ n, steps = n + 1 := ⟨steps - 1, by simp [enclose] at hsteps; omega⟩
    have hentries : readEntries n (entryText key body ++
        (tail ++ (lineBreak layout level ++ '}' :: rest))) = _ :=
      htail key hbody rest (isSpace_lineBreak layout level) (by simp [enclose] at hsteps; omega)
    have hskip : skipBlanks (lineBreak layout (level + 1) ++ (entryText key body ++
        (tail ++ (lineBreak layout level ++ '}' :: rest)))) =
          entryText key body ++ (tail ++ (lineBreak layout level ++ '}' :: rest)) := by
      rw [skipBlanks_append (isSpace_lineBreak layout _)]
      exact skipBlanks_cons (by decide) _
    simp only [enclose, List.cons_append, List.append_assoc, List.nil_append, readValue, hskip]
    split
    · rename_i heq
      exact absurd (List.cons.inj heq).1 (by decide)
    · rw [hentries]
      show Except.ok (ofEntries ((.text key, v) :: es), rest) = _
      rw [ofEntries_eq_map_iff.mpr hdistinct]

/-! ## Documents -/

theorem exists_writeItems {style : Style} {xs : List Value} {level : Nat}
    (h : ∀ x ∈ xs, ∃ cs, write style level x = .ok cs ∧ ReadsAs cs x) :
    ∃ tail, writeItems style level xs = .ok tail ∧ ItemsRead tail xs := by
  induction xs with
  | nil => exact ⟨[], rfl, itemsRead_nil⟩
  | cons x xs ih =>
      obtain ⟨body, hwrite, hbody⟩ := h x List.mem_cons_self
      obtain ⟨tail, hwrites, htail⟩ := ih fun y hy => h y (List.mem_cons_of_mem x hy)
      refine ⟨_, ?_, htail.cons hbody style.layout level⟩
      rw [writeItems, hwrite, hwrites]
      rfl

theorem exists_writeEntries {style : Style} (hstyle : style.ascii = false) {es : Entries}
    {level : Nat} (hnamed : ∀ e ∈ es, ∃ s, e.1 = .text s)
    (h : ∀ e ∈ es, ∃ cs, write style level e.2 = .ok cs ∧ ReadsAs cs e.2) :
    ∃ tail, writeEntries style level es = .ok tail ∧ EntriesRead tail es := by
  induction es with
  | nil => exact ⟨[], rfl, entriesRead_nil⟩
  | cons e es ih =>
      obtain ⟨k, v⟩ := e
      obtain ⟨key, rfl⟩ := hnamed _ List.mem_cons_self
      obtain ⟨body, hwrite, hbody⟩ := h _ List.mem_cons_self
      obtain ⟨tail, hwrites, htail⟩ := ih (fun e he => hnamed e (List.mem_cons_of_mem _ he))
        fun e he => h e (List.mem_cons_of_mem _ he)
      refine ⟨_, ?_, htail.cons hbody style.layout level⟩
      rw [writeEntries, hwrite, hwrites, hstyle]
      simp [keyText, entryText, bind, Except.bind, pure, Except.pure]

theorem exists_write (style : Style) (hstyle : style.ascii = false) {v : Value}
    (hv : IsDocument v) : ∀ level, ∃ cs, write style level v = .ok cs ∧ ReadsAs cs v := by
  induction hv with
  | null =>
      intro level
      exact ⟨_, by rw [write], readsAs_null⟩
  | bool b =>
      intro level
      exact ⟨_, by rw [write], readsAs_bool b⟩
  | int short =>
      intro level
      exact ⟨_, by rw [write, writeInt, if_pos short], readsAs_ofInt short⟩
  | float x =>
      intro level
      exact ⟨_, by rw [write], readsAs_float x⟩
  | text s =>
      intro level
      exact ⟨_, by rw [write, hstyle], readsAs_quote s⟩
  | @list xs items ih =>
      intro level
      cases xs with
      | nil =>
          refine ⟨_, by rw [write], readsAs_of_step (by decide) (by decide) ?_⟩
          intro steps rest _
          simp [readValue, skipBlanks_cons (c := ']') (by decide)]
      | cons x xs =>
          obtain ⟨body, hwrite, hbody⟩ := ih x List.mem_cons_self (level + 1)
          obtain ⟨tail, hwrites, htail⟩ :=
            exists_writeItems fun y hy => ih y (List.mem_cons_of_mem x hy) (level + 1)
          refine ⟨_, ?_, htail.list hbody style.layout level⟩
          rw [write, hwrite, hwrites]
          rfl
  | @map es distinct named values ih =>
      intro level
      cases es with
      | nil =>
          refine ⟨_, by rw [write], readsAs_of_step (by decide) (by decide) ?_⟩
          intro steps rest _
          simp [readValue, skipBlanks_cons (c := '}') (by decide)]
      | cons e es =>
          obtain ⟨k, v⟩ := e
          obtain ⟨key, rfl⟩ := named _ List.mem_cons_self
          obtain ⟨body, hwrite, hbody⟩ := ih _ List.mem_cons_self (level + 1)
          obtain ⟨tail, hwrites, htail⟩ := exists_writeEntries hstyle
            (fun e he => named e (List.mem_cons_of_mem _ he))
            fun e he => ih e (List.mem_cons_of_mem _ he) (level + 1)
          refine ⟨_, ?_, htail.map hbody distinct style.layout level⟩
          rw [write, hwrite, hwrites, hstyle]
          simp [keyText, entryText, bind, Except.bind, pure, Except.pure]

theorem ReadsAs.parse {cs : List Char} {v : Value} (h : ReadsAs cs v) : parse cs = .ok v := by
  have hread : readValue (2 * cs.length + 2) (cs ++ []) = .ok (v, []) :=
    h.read (Nat.le_add_right _ 2) endsNumber_nil
  have hskip : skipBlanks ([] ++ (cs ++ [])) = cs ++ [] := h.skip (List.forall_mem_nil _) []
  rw [List.append_nil] at hread hskip
  obtain ⟨c, tail, rfl, -, hstart⟩ := h.start
  rw [Json.parse]
  · rw [← List.nil_append (c :: tail), hskip, List.nil_append, hread]
    rfl
  · intro rest heq
    exact hstart (by simp [(List.cons.inj heq).1])

end Json

namespace Codec

open Json

/-- An indentation, if there is one, fits into a word of 64 bits. -/
def IsIndent (indent : Option Int) : Prop :=
  ∀ n, indent = some n → -9223372036854775808 ≤ n ∧ n < 9223372036854775808

theorem isIndent_some {n : Int} : IsIndent (some n) ↔ Digits.fitsWord n = true := by
  simp [IsIndent, Digits.fitsWord]

theorem exists_layout_iff {indent : Option Int} :
    (∃ layout, Layout.ofIndent? indent = some layout) ↔ IsIndent indent := by
  cases indent with
  | none => simp [Layout.ofIndent?, IsIndent]
  | some n =>
      rw [isIndent_some]
      cases h : Digits.fitsWord n <;> simp [Layout.ofIndent?, h]

theorem render_eq_write {indent : Option Int} {layout : Layout}
    (h : Layout.ofIndent? indent = some layout) (v : Value) :
    render indent v = (write ⟨layout, false, true⟩ 0 v).map String.ofList := by
  cases v <;> simp only [render, h]
  rfl

/-- A text is rendered on one line, whatever the indentation. -/
theorem render_text (indent : Option Int) (s : String) :
    render indent (.text s) = .ok (String.ofList (quote false s.toList)) := by
  rw [render]

theorem render_eq_error {indent : Option Int} (h : ¬ IsIndent indent) {v : Value}
    (hv : ∀ s, v ≠ .text s) : render indent v = .error .indent := by
  have hnone : Layout.ofIndent? indent = none := by
    cases hlayout : Layout.ofIndent? indent with
    | none => rfl
    | some layout => exact absurd (exists_layout_iff.mp ⟨layout, hlayout⟩) h
  cases v <;> simp only [render, hnone]
  exact absurd rfl (hv _)

theorem isDocument_of_parseText {text : String} {s : Value} (h : parseText .json text = .ok s) :
    IsDocument s := by
  refine (parse_cases text.toList).1 s ?_
  rw [parseText, Document.read] at h
  cases hp : parse text.toList with
  | ok v =>
      rw [hp] at h
      exact congrArg _ (Except.ok.inj h)
  | error fault =>
      rw [hp] at h
      cases h

theorem exists_renderText_of_readsAs {indent : Option Int} {v : Value} {cs : List Char}
    (hrender : render indent v = .ok (String.ofList cs)) (hcs : ReadsAs cs v) :
    ∃ t, renderText indent v = .ok t ∧ parseText .json t = .ok v := by
  refine ⟨String.ofList cs, by rw [renderText, hrender]; rfl, ?_⟩
  rw [parseText, Document.read, String.toList_ofList, hcs.parse]
  rfl

theorem exists_renderText {indent : Option Int} (hindent : IsIndent indent) {v : Value}
    (hv : IsDocument v) : ∃ t, renderText indent v = .ok t ∧ parseText .json t = .ok v := by
  obtain ⟨layout, hlayout⟩ := exists_layout_iff.mpr hindent
  obtain ⟨cs, hwrite, hcs⟩ := exists_write ⟨layout, false, true⟩ rfl hv 0
  exact exists_renderText_of_readsAs (by rw [render_eq_write hlayout, hwrite]; rfl) hcs

/-- What is rendered of a document is read back as the document.  A text is rendered with any
indentation, and what is no text exactly with those that fit into a word. -/
theorem parseText_renderText (indent : Option Int) {v : Value} (hv : IsDocument v) :
    ((∃ s, v = .text s) ∨ IsIndent indent →
        ∃ t, renderText indent v = .ok t ∧ parseText .json t = .ok v) ∧
      (¬ ((∃ s, v = .text s) ∨ IsIndent indent) →
        renderText indent v = .error (.unwritable indent .indent)) := by
  constructor
  · rintro (⟨s, rfl⟩ | hindent)
    · exact exists_renderText_of_readsAs (render_text indent s) (readsAs_quote s)
    · exact exists_renderText hindent hv
  · intro h
    rw [not_or, not_exists] at h
    rw [renderText, render_eq_error h.2 h.1]
    rfl

/-- Rendering a map of a list and a float and reading the text give the map again. -/
theorem parseText_renderText_map :
    ∃ t, renderText (some 2) (.map [(.text "\u00E9\n", .list [.int (-7), .bool true, .null]),
        (.text "x", .float (.zero true))]) = .ok t ∧
      parseText .json t = .ok (.map [(.text "\u00E9\n", .list [.int (-7), .bool true, .null]),
        (.text "x", .float (.zero true))]) := by
  exact (parseText_renderText (some 2) (by decide +kernel)).1 (Or.inr (isIndent_some.mpr rfl))

/-- The empty list is a document, and has no text with an indentation that fits into no word. -/
theorem not_renders_beyond_word : IsDocument (.list []) ∧
    ∀ t, renderText (some 9223372036854775808) (.list []) ≠ .ok t := by
  refine ⟨.list (by simp), ?_⟩
  intro t ht
  cases ht

end Codec

end Conform
