import Conform.Proofs.Json.Document
import Conform.Proofs.Portable.Tokens
import Conform.Proofs.Traversal

/-!
# Portable texts as YAML tokens

Tokens spell a value if they write it down as a collection in brackets or as a scalar (`Spells`).
Where a reader of JSON takes the front of a portable text, the lexer goes along and makes tokens
that spell the same (`ValuesLex`, `ItemsLex`, `EntriesLex`); one step of each reader is shown from
those that it starts, and then all of them together by induction on the steps (`lex`).  So the
tokens of a whole text spell what JSON reads in it (`exists_ofText`).
-/

namespace Conform

/-! ## The front of a portable text -/

namespace Json

open Digits

variable {c : Char} {cs : List Char}

theorem isBlank_of_isGap (h : isGap c = true) : isBlank c = true := by
  simp only [isGap, Bool.or_eq_true, beq_iff_eq] at h
  rcases h with (rfl | rfl) | rfl <;> rfl

theorem isBlank_of_isMark (h : isMark c = true) : isBlank c = false := by
  simp only [isMark, Bool.or_eq_true, beq_iff_eq] at h
  rcases h with ((((rfl | rfl) | rfl) | rfl) | rfl) | rfl <;> rfl

theorem isDelimiter_cases (h : isDelimiter c = true) :
    c ∈ [' ', '\n', '\r', '[', ']', '\x7b', '\x7d', ',', ':', '"'] := by
  simpa [isDelimiter, isGap, isMark, or_assoc] using h

/-- No word begins with what begins something else, nor does a number go on with it. -/
theorem isWordChar_of_isDelimiter (h : isDelimiter c = true) : Yaml.isWordChar c = false := by
  have hall : ∀ x ∈ [' ', '\n', '\r', '[', ']', '\x7b', '\x7d', ',', ':', '"'],
      Yaml.isWordChar x = false := List.all_iff_forall_prop.mp (by decide)
  exact hall c (isDelimiter_cases h)

theorem EndsWord.endsNumber (h : EndsWord cs) : EndsNumber cs := by
  have hall : ∀ x ∈ [' ', '\n', '\r', '[', ']', '\x7b', '\x7d', ',', ':', '"'],
      isDigit x = false ∧ x ≠ '.' ∧ x ≠ 'e' ∧ x ≠ 'E' := List.all_iff_forall_prop.mp (by decide)
  exact fun c hc => hall c (isDelimiter_cases (h c hc))

/-- A word begins with no white space, and with nothing that begins something else. -/
theorem Word.head {w : List Char} {v : Value} (h : Word w v) :
    ∃ x xs, w = x :: xs ∧ isBlank x = false ∧ isDelimiter x = false := by
  obtain ⟨x, xs, rfl, -⟩ := h.exists_eq_cons
  have hx := Yaml.isWordChar_of_mem h x List.mem_cons_self
  refine ⟨x, xs, rfl, ?_, ?_⟩
  all_goals
    rw [← Bool.not_eq_true]
    intro h
  · simp only [isBlank, Bool.or_eq_true, beq_iff_eq] at h
    rcases h with ((rfl | rfl) | rfl) | rfl <;> exact absurd hx (by decide)
  · rw [isWordChar_of_isDelimiter h] at hx
    cases hx

namespace Portable

/-- What JSON passes over before a lexeme is a gap. -/
theorem exists_gap (h : Portable cs) :
    ∃ gap, IsGap gap ∧ cs = gap ++ skipBlanks cs ∧ Portable (skipBlanks cs) := by
  have hstart {c : Char} {cs : List Char} (hc : isBlank c = false) (h : Portable (c :: cs)) :
      ∃ gap, IsGap gap ∧ c :: cs = gap ++ skipBlanks (c :: cs) ∧
        Portable (skipBlanks (c :: cs)) := by
    rw [skipBlanks_cons hc]
    exact ⟨[], List.forall_mem_nil _, rfl, h⟩
  induction h with
  | nil => exact ⟨[], List.forall_mem_nil _, rfl, .nil⟩
  | @gap c cs hc _ ih =>
      obtain ⟨gap, hgap, heq, hrest⟩ := ih
      have hskip : skipBlanks (c :: cs) = skipBlanks cs :=
        List.dropWhile_cons_of_pos (isBlank_of_isGap hc)
      rw [hskip]
      exact ⟨c :: gap, List.forall_mem_cons.mpr ⟨hc, hgap⟩, congrArg (c :: ·) heq, hrest⟩
  | mark hc hrest _ => exact hstart (isBlank_of_isMark hc) (.mark hc hrest)
  | @word w cs v hw ends hrest _ =>
      have hportable := Portable.word hw ends hrest
      obtain ⟨x, xs, rfl, hblank, -⟩ := hw.head
      exact hstart hblank hportable
  | text hbody key hrest _ => exact hstart (by decide) (.text hbody key hrest)

theorem of_mark (h : Portable (c :: cs)) (hc : isMark c = true) : Portable cs := by
  generalize heq : c :: cs = ds at h
  cases h with
  | nil => exact nomatch heq
  | gap _ hrest => exact (List.cons.inj heq).2 ▸ hrest
  | mark _ hrest => exact (List.cons.inj heq).2 ▸ hrest
  | word hw =>
      obtain ⟨x, xs, rfl, -, hx⟩ := hw.head
      rw [← (List.cons.inj heq).1] at hx
      simp [isDelimiter, hc] at hx
  | text =>
      rw [(List.cons.inj heq).1] at hc
      exact absurd hc (by decide)

theorem exists_text (h : Portable ('"' :: cs)) : ∃ body text rest,
    cs = body ++ '"' :: rest ∧ Quoted body text ∧ KeyFits (body.length + 2) rest ∧
      Portable rest := by
  generalize heq : '"' :: cs = ds at h
  cases h with
  | nil => exact nomatch heq
  | gap hc =>
      rw [← (List.cons.inj heq).1] at hc
      exact absurd hc (by decide)
  | mark hc =>
      rw [← (List.cons.inj heq).1] at hc
      exact absurd hc (by decide)
  | word hw =>
      obtain ⟨x, xs, rfl, -, hx⟩ := hw.head
      rw [← (List.cons.inj heq).1] at hx
      exact absurd hx (by decide)
  | text hbody key hrest => exact ⟨_, _, _, (List.cons.inj heq).2, hbody, key, hrest⟩

end Portable

end Json

namespace Yaml

open Json Lexer

/-! ## Tokens that spell values -/

/-- What tokens may spell: a value, or what is left of a collection that is not empty. -/
inductive Part where
  | value (v : Value)
  | items (xs : List Value)
  | entries (es : List (Value × Value))

/-- The tokens write down a value, or items or entries with the end of their collection. -/
inductive Spells : List Token → Part → Prop
  | word {w : List Char} {v : Value} (h : Word w v) : Spells [.scalar true w] (.value v)
  | text (text : List Char) : Spells [.scalar false text] (.value (.text (String.ofList text)))
  | noItems : Spells [.flowSequenceStart, .flowSequenceEnd] (.value (.list []))
  | list {ts : List Token} {xs : List Value} (h : Spells ts (.items xs)) :
      Spells (.flowSequenceStart :: ts) (.value (.list xs))
  | noEntries : Spells [.flowMappingStart, .flowMappingEnd] (.value (.map []))
  | map {ts : List Token} {es : List (Value × Value)} (h : Spells ts (.entries es)) :
      Spells (.flowMappingStart :: ts) (.value (Value.ofEntries es))
  | lastItem {ts : List Token} {v : Value} (h : Spells ts (.value v)) :
      Spells (ts ++ [.flowSequenceEnd]) (.items [v])
  | item {ts us : List Token} {v : Value} {xs : List Value} (h : Spells ts (.value v))
      (rest : Spells us (.items xs)) : Spells (ts ++ .flowEntry :: us) (.items (v :: xs))
  | lastEntry (key : List Char) {ts : List Token} {v : Value} (h : Spells ts (.value v)) :
      Spells (.key :: .scalar false key :: .value :: (ts ++ [.flowMappingEnd]))
        (.entries [(.text (String.ofList key), v)])
  | entry (key : List Char) {ts us : List Token} {v : Value} {es : List (Value × Value)}
      (h : Spells ts (.value v)) (rest : Spells us (.entries es)) :
      Spells (.key :: .scalar false key :: .value :: (ts ++ .flowEntry :: us))
        (.entries ((.text (String.ofList key), v) :: es))

/-! ## Reading and lexing together -/

/-- The lexer comes to the rest of the text with tokens more that spell something. -/
def Makes (l : Lexer) (rest : List Char) (level : Int) (out : List Token) (part : Part) : Prop :=
  ∃ l' ts, Leads l l' ∧ l'.At rest level (out ++ ts) ∧ Spells ts part

/-- What is read as a value is made tokens of, if it may stand on its level. -/
def ValuesLex (steps : Nat) : Prop :=
  ∀ {cs rest gap : List Char} {v : Value} {level : Int} {out : List Token} {l : Lexer},
    readValue steps cs = .ok (v, rest) → Portable cs → IsGap gap → 0 ≤ level →
      Closes (skipBlanks rest) → (level ≠ 0 ∨ skipBlanks rest = []) →
        l.At (gap ++ cs) level out → Portable rest ∧ ∃ gap', IsGap gap' ∧
          Makes l (gap' ++ skipBlanks rest) level out (.value v)

/-- What is read as items is made tokens of, with the end of the array. -/
def ItemsLex (steps : Nat) : Prop :=
  ∀ {cs rest gap : List Char} {xs : List Value} {level : Int} {out : List Token} {l : Lexer},
    readItems steps cs = .ok (xs, rest) → Portable cs → IsGap gap → 0 ≤ level →
      l.At (gap ++ cs) (level + 1) out → Portable rest ∧ Makes l rest level out (.items xs)

/-- What is read as entries is made tokens of, with the end of the object, where a key may start. -/
def EntriesLex (steps : Nat) : Prop :=
  ∀ {cs rest gap : List Char} {es : List (Value × Value)} {level : Int} {out : List Token}
    {l : Lexer}, readEntries steps cs = .ok (es, rest) → Portable cs → IsGap gap → 0 ≤ level →
      l.allowKey = true → l.At (gap ++ cs) (level + 1) out →
        Portable rest ∧ Makes l rest level out (.entries es)

section

variable {steps : Nat} {cs rest gap : List Char} {v : Value} {level : Int} {out : List Token}
  {l l' : Lexer}

theorem Makes.of_leads {ts : List Token} {part : Part} (hleads : Leads l l')
    (h : Makes l' rest level (out ++ ts) part) {part' : Part}
    (hspells : ∀ us, Spells us part → Spells (ts ++ us) part') : Makes l rest level out part' := by
  obtain ⟨l'', us, hleads', hat, hus⟩ := h
  exact ⟨l'', ts ++ us, hleads.trans hleads', List.append_assoc out ts us ▸ hat, hspells us hus⟩

/-- A portable text starts with a gap and what JSON reads next. -/
theorem At.exists_gap (h : l.At cs level out) (hcs : Portable cs) :
    ∃ gap, IsGap gap ∧ l.At (gap ++ skipBlanks cs) level out ∧ Portable (skipBlanks cs) := by
  obtain ⟨gap, hgap, heq, hrest⟩ := hcs.exists_gap
  exact ⟨gap, hgap, heq ▸ h, hrest⟩

theorem lexes_list (hitems : ItemsLex steps)
    (hread : readValue (steps + 1) ('[' :: cs) = .ok (v, rest)) (hcs : Portable cs)
    (hgap : IsGap gap) (hlevel : 0 ≤ level) (h : l.At (gap ++ '[' :: cs) level out) :
    Portable rest ∧ Makes l rest level out (.value v) := by
  obtain ⟨l₁, hleads, h₁, -⟩ := h.exists_opening hgap (.inl ⟨rfl, rfl⟩)
  obtain ⟨gap₁, hgap₁, h₁, hportable⟩ := At.exists_gap h₁ hcs
  rw [readValue] at hread
  split at hread
  · rename_i heq
    obtain ⟨rfl, rfl⟩ := Prod.mk.inj (Except.ok.inj hread)
    rw [heq] at h₁ hportable
    obtain ⟨l₂, hleads₂, h₂⟩ := h₁.exists_closing hgap₁ (.inl ⟨rfl, rfl⟩)
    rw [Int.add_sub_cancel, List.append_assoc] at h₂
    exact ⟨hportable.of_mark (by decide), l₂, _, hleads.trans hleads₂, h₂, .noItems⟩
  · obtain ⟨⟨xs, rest'⟩, hitems', heq⟩ := Traversal.map_eq_ok.mp hread
    obtain ⟨rfl, rfl⟩ := Prod.mk.inj heq
    obtain ⟨hrest, hmakes⟩ := hitems hitems' hportable hgap₁ hlevel h₁
    exact ⟨hrest, hmakes.of_leads hleads fun us hus => .list hus⟩

theorem lexes_map (hentries : EntriesLex steps)
    (hread : readValue (steps + 1) ('\x7b' :: cs) = .ok (v, rest)) (hcs : Portable cs)
    (hgap : IsGap gap) (hlevel : 0 ≤ level) (h : l.At (gap ++ '\x7b' :: cs) level out) :
    Portable rest ∧ Makes l rest level out (.value v) := by
  obtain ⟨l₁, hleads, h₁, hallow⟩ := h.exists_opening hgap (.inr ⟨rfl, rfl⟩)
  obtain ⟨gap₁, hgap₁, h₁, hportable⟩ := At.exists_gap h₁ hcs
  rw [readValue] at hread
  split at hread
  · rename_i heq
    obtain ⟨rfl, rfl⟩ := Prod.mk.inj (Except.ok.inj hread)
    rw [heq] at h₁ hportable
    obtain ⟨l₂, hleads₂, h₂⟩ := h₁.exists_closing hgap₁ (.inr ⟨rfl, rfl⟩)
    rw [Int.add_sub_cancel, List.append_assoc] at h₂
    exact ⟨hportable.of_mark (by decide), l₂, _, hleads.trans hleads₂, h₂, .noEntries⟩
  · obtain ⟨⟨es, rest'⟩, hentries', heq⟩ := Traversal.map_eq_ok.mp hread
    obtain ⟨rfl, rfl⟩ := Prod.mk.inj heq
    obtain ⟨hrest, hmakes⟩ := hentries hentries' hportable hgap₁ hlevel hallow h₁
    exact ⟨hrest, hmakes.of_leads hleads fun us hus => .map hus⟩

/-- No value begins with a gap or with a mark that belongs behind a value. -/
theorem exists_readValue_eq_error {c : Char}
    (hc : isGap c = true ∨ isClosing c = true ∨ c = ':') (steps : Nat) (cs : List Char) :
    ∃ fault, readValue (steps + 1) (c :: cs) = .error fault := by
  simp only [isGap, isClosing, Bool.or_eq_true, beq_iff_eq] at hc
  rcases hc with ((rfl | rfl) | rfl) | ((rfl | rfl) | rfl) | rfl <;> exact ⟨_, rfl⟩

theorem valuesLex_succ (hitems : ItemsLex steps) (hentries : EntriesLex steps) :
    ValuesLex (steps + 1) := by
  intro cs rest gap v level out l hread hcs hgap hlevel hcloses hend h
  -- Behind a value that ends in a mark of its own, the gap is still to come.
  have hbehind (hmakes : Portable rest ∧ Makes l rest level out (.value v)) : Portable rest ∧
      ∃ gap', IsGap gap' ∧ Makes l (gap' ++ skipBlanks rest) level out (.value v) := by
    obtain ⟨hrest, l', ts, hleads, h', hts⟩ := hmakes
    obtain ⟨gap', hgap', h', -⟩ := At.exists_gap h' hrest
    exact ⟨hrest, gap', hgap', l', ts, hleads, h', hts⟩
  have hstarts {c : Char} {cs : List Char} (hread : readValue (steps + 1) (c :: cs) = .ok (v, rest))
      (hc : isGap c = true ∨ isClosing c = true ∨ c = ':') : False := by
    obtain ⟨fault, heq⟩ := exists_readValue_eq_error hc steps cs
    rw [hread] at heq
    cases heq
  cases hcs with
  | nil => simp [readValue, readNumber, wholePart] at hread
  | @gap c cs hc _ => exact (hstarts hread (.inl hc)).elim
  | @mark c cs hc hrest =>
      simp only [isMark, Bool.or_eq_true, beq_iff_eq] at hc
      rcases hc with ((((rfl | rfl) | rfl) | rfl) | rfl) | rfl
      · exact hbehind (lexes_list hitems hread hrest hgap hlevel h)
      · exact (hstarts hread (.inr (.inl rfl))).elim
      · exact hbehind (lexes_map hentries hread hrest hgap hlevel h)
      · exact (hstarts hread (.inr (.inl rfl))).elim
      · exact (hstarts hread (.inr (.inl rfl))).elim
      · exact (hstarts hread (.inr (.inr rfl))).elim
  | @word w cs' v' hw ends hrest =>
      rw [readValue_word hw ends.endsNumber] at hread
      obtain ⟨rfl, rfl⟩ := Prod.mk.inj (Except.ok.inj hread)
      obtain ⟨behind, hbehind', heq, -⟩ := hrest.exists_gap
      rw [heq] at h
      obtain ⟨l', hleads, h'⟩ := At.exists_word hw h hgap hbehind' hcloses hend
      exact ⟨hrest, [], List.forall_mem_nil _, l', _, hleads, h', .word hw⟩
  | @text body text cs' hbody key hrest =>
      rw [readValue, readString_quoted hbody] at hread
      obtain ⟨rfl, rfl⟩ := Prod.mk.inj (Except.ok.inj hread)
      obtain ⟨l', hleads, h', -⟩ := h.exists_text hgap hbody
      exact hbehind ⟨hrest, l', _, hleads, h', .text text⟩

theorem ValuesLex.inside (hvalues : ValuesLex steps) {rest' : List Char} {x : Char}
    (hread : readValue steps cs = .ok (v, rest')) (hrest : skipBlanks rest' = x :: rest)
    (hx : isClosing x = true) (hcs : Portable cs) (hgap : IsGap gap) (hlevel : 0 ≤ level)
    (h : l.At (gap ++ cs) (level + 1) out) :
    ∃ l' ts gap', Leads l l' ∧ IsGap gap' ∧ l'.At (gap' ++ x :: rest) (level + 1) (out ++ ts) ∧
      Spells ts (.value v) ∧ Portable rest := by
  have hcloses : Closes (skipBlanks rest') := by
    intro y hy
    rw [hrest] at hy
    rwa [← Option.some.inj hy]
  obtain ⟨hportable, gap', hgap', l', ts, hleads, h', hts⟩ :=
    hvalues hread hcs hgap (by omega) hcloses (.inl (by omega)) h
  obtain ⟨-, -, -, hportable⟩ := hportable.exists_gap
  rw [hrest] at h' hportable
  have hmark : isMark x = true := by
    simp only [isClosing, Bool.or_eq_true, beq_iff_eq] at hx
    rcases hx with (rfl | rfl) | rfl <;> rfl
  exact ⟨l', ts, gap', hleads, hgap', h', hts, hportable.of_mark hmark⟩

theorem itemsLex_succ (hvalues : ValuesLex steps) (hitems : ItemsLex steps) :
    ItemsLex (steps + 1) := by
  intro cs rest gap xs level out l hread hcs hgap hlevel h
  rw [readItems] at hread
  split at hread
  · cases hread
  · rename_i v rest₁ hvalue
    split at hread
    · rename_i rest₂ heq
      obtain ⟨rfl, rfl⟩ := Prod.mk.inj (Except.ok.inj hread)
      obtain ⟨l₁, ts, gap₁, hleads, hgap₁, h₁, hts, hportable⟩ :=
        hvalues.inside hvalue heq rfl hcs hgap hlevel h
      obtain ⟨l₂, hleads₂, h₂⟩ := h₁.exists_closing hgap₁ (.inl ⟨rfl, rfl⟩)
      rw [Int.add_sub_cancel, List.append_assoc] at h₂
      exact ⟨hportable, l₂, _, hleads.trans hleads₂, h₂, .lastItem hts⟩
    · rename_i rest₂ heq
      obtain ⟨⟨xs', rest₃⟩, hitems', heq'⟩ := Traversal.map_eq_ok.mp hread
      obtain ⟨rfl, rfl⟩ := Prod.mk.inj heq'
      obtain ⟨l₁, ts, gap₁, hleads, hgap₁, h₁, hts, hportable⟩ :=
        hvalues.inside hvalue heq rfl hcs hgap hlevel h
      obtain ⟨l₂, hleads₂, h₂, -⟩ := h₁.exists_comma hgap₁
      obtain ⟨gap₂, hgap₂, h₂, hportable⟩ := At.exists_gap h₂ hportable
      obtain ⟨hrest, hmakes⟩ := hitems hitems' hportable hgap₂ hlevel h₂
      rw [List.append_assoc] at hmakes
      refine ⟨hrest, hmakes.of_leads (hleads.trans hleads₂) fun us hus => ?_⟩
      rw [List.append_assoc]
      exact .item hts hus
    · cases hread

theorem lexes_key {body text rest' : List Char} (hbody : Quoted body text)
    (hkey : KeyFits (body.length + 2) rest') (hcs : Portable rest')
    (hrest : skipBlanks rest' = ':' :: rest) (hgap : IsGap gap) (hlevel : 0 ≤ level)
    (hallow : l.allowKey = true) (h : l.At (gap ++ '"' :: (body ++ '"' :: rest')) (level + 1) out) :
    ∃ l' gap', Leads l l' ∧ IsGap gap' ∧ Portable (skipBlanks rest) ∧
      l'.At (gap' ++ skipBlanks rest) (level + 1) (out ++ [.key, .scalar false text, .value]) := by
  obtain ⟨gap₁, hgap₁, heq, hportable⟩ := hcs.exists_gap
  rw [hrest] at heq hportable
  obtain ⟨hspaces, hwidth⟩ := hkey gap₁ rest heq hgap₁
  obtain ⟨l₁, hleads, h₁, hnoted⟩ := h.exists_text hgap hbody
  rw [heq] at h₁
  obtain ⟨l₂, hleads₂, h₂⟩ := h₁.exists_colon hspaces (by omega) (hnoted hallow) hwidth
  obtain ⟨gap₂, hgap₂, h₂, hportable⟩ := At.exists_gap h₂ (hportable.of_mark (by decide))
  exact ⟨l₂, gap₂, hleads.trans hleads₂, hgap₂, hportable, h₂⟩

theorem entriesLex_succ (hvalues : ValuesLex steps) (hentries : EntriesLex steps) :
    EntriesLex (steps + 1) := by
  intro cs rest gap es level out l hread hcs hgap hlevel hallow h
  by_cases hquote : ∃ ds, cs = '"' :: ds
  · obtain ⟨ds, rfl⟩ := hquote
    obtain ⟨body, text, rest₁, rfl, hbody, hkey, hrest₁⟩ := hcs.exists_text
    rw [readEntries, readString_quoted hbody] at hread
    simp only [List.reverse_nil, List.nil_append] at hread
    split at hread
    · rename_i rest₂ hcolon
      obtain ⟨l₁, gap₁, hleads₁, hgap₁, hportable, h₁⟩ :=
        lexes_key hbody hkey hrest₁ hcolon hgap hlevel hallow h
      split at hread
      · cases hread
      · rename_i v rest₃ hvalue
        split at hread
        · rename_i rest₄ heq
          obtain ⟨rfl, rfl⟩ := Prod.mk.inj (Except.ok.inj hread)
          obtain ⟨l₂, ts, gap₂, hleads₂, hgap₂, h₂, hts, hportable⟩ :=
            hvalues.inside hvalue heq rfl hportable hgap₁ hlevel h₁
          obtain ⟨l₃, hleads₃, h₃⟩ := h₂.exists_closing hgap₂ (.inr ⟨rfl, rfl⟩)
          rw [Int.add_sub_cancel, List.append_assoc, List.append_assoc] at h₃
          exact ⟨hportable, l₃, _, (hleads₁.trans hleads₂).trans hleads₃, h₃, .lastEntry text hts⟩
        · rename_i rest₄ heq
          obtain ⟨⟨es', rest₅⟩, hentries', heq'⟩ := Traversal.map_eq_ok.mp hread
          obtain ⟨rfl, rfl⟩ := Prod.mk.inj heq'
          obtain ⟨l₂, ts, gap₂, hleads₂, hgap₂, h₂, hts, hportable⟩ :=
            hvalues.inside hvalue heq rfl hportable hgap₁ hlevel h₁
          obtain ⟨l₃, hleads₃, h₃, hallow₃⟩ := h₂.exists_comma hgap₂
          obtain ⟨gap₃, hgap₃, h₃, hportable⟩ := At.exists_gap h₃ hportable
          obtain ⟨hrest, hmakes⟩ := hentries hentries' hportable hgap₃ hlevel hallow₃ h₃
          rw [List.append_assoc, List.append_assoc] at hmakes
          refine ⟨hrest, hmakes.of_leads ((hleads₁.trans hleads₂).trans hleads₃) fun us hus => ?_⟩
          simp only [List.append_assoc, List.cons_append, List.nil_append]
          exact .entry text hts hus
        · cases hread
    · cases hread
  · rw [readEntries] at hread
    · cases hread
    · exact fun ds heq => hquote ⟨ds, heq⟩

/-- In any number of steps, what is read is made tokens of. -/
theorem lex : ∀ steps : Nat, ValuesLex steps ∧ ItemsLex steps ∧ EntriesLex steps
  | 0 => by
      refine ⟨?_, ?_, ?_⟩
      · intro cs rest gap v level out l hread
        exact nomatch hread
      · intro cs rest gap xs level out l hread
        exact nomatch hread
      · intro cs rest gap es level out l hread
        exact nomatch hread
  | steps + 1 => by
      obtain ⟨hvalues, hitems, hentries⟩ := lex steps
      exact ⟨valuesLex_succ hitems hentries, itemsLex_succ hvalues hitems,
        entriesLex_succ hvalues hentries⟩

end

/-! ## Whole texts -/

theorem isAllowed_quoted {body text : List Char} (h : Quoted body text) :
    ∀ c ∈ body, isAllowed c = true := by
  induction h with
  | nil => exact List.forall_mem_nil _
  | raw hc _ ih =>
      simp only [isRaw, Bool.and_eq_true] at hc
      exact List.forall_mem_cons.mpr ⟨hc.1.1.1.1, ih⟩
  | short hc _ ih =>
      have hall : ∀ p ∈ [('"', '"'), ('\\', '\\'), ('/', '/'), ('b', '\x08'), ('f', '\x0c'),
          ('n', '\n'), ('r', '\r'), ('t', '\t')], isAllowed p.1 = true := by decide
      exact List.forall_mem_cons.mpr ⟨by decide,
        List.forall_mem_cons.mpr ⟨hall _ (escaped?_eq_some hc), ih⟩⟩
  | unicode digits _ _ ih =>
      have hhex := (isHexDigit_of_ofDigits? digits).2
      refine List.forall_mem_cons.mpr ⟨by decide, List.forall_mem_cons.mpr ⟨by decide, ?_⟩⟩
      exact List.forall_mem_append.mpr ⟨fun d hd => (isHexDigit_plain (hhex d hd)).2, ih⟩

theorem isAllowed_of_portable {cs : List Char} (h : Portable cs) :
    ∀ c ∈ cs, isAllowed c = true := by
  induction h with
  | nil => exact List.forall_mem_nil _
  | gap hc _ ih =>
      refine List.forall_mem_cons.mpr ⟨?_, ih⟩
      simp only [isGap, Bool.or_eq_true, beq_iff_eq] at hc
      rcases hc with (rfl | rfl) | rfl <;> rfl
  | mark hc _ ih =>
      refine List.forall_mem_cons.mpr ⟨?_, ih⟩
      simp only [isMark, Bool.or_eq_true, beq_iff_eq] at hc
      rcases hc with ((((rfl | rfl) | rfl) | rfl) | rfl) | rfl <;> rfl
  | word hw _ _ ih =>
      have hchars := isWordChar_of_mem hw
      exact List.forall_mem_append.mpr ⟨fun c hc => (isWordChar_plain (hchars c hc)).2.2.2.2, ih⟩
  | text hbody _ _ ih =>
      exact List.forall_mem_cons.mpr ⟨by decide, List.forall_mem_append.mpr
        ⟨isAllowed_quoted hbody, List.forall_mem_cons.mpr ⟨by decide, ih⟩⟩⟩

/-- The tokens of a portable text spell the value that JSON reads in it. -/
theorem exists_ofText {cs : List Char} {v : Value} (hread : Json.parse cs = .ok v)
    (hcs : Portable cs) :
    ∃ ts, Token.ofText cs = ts ++ [.streamEnd] ∧ Spells ts (.value v) := by
  have hparse : ∃ rest, readValue (2 * cs.length + 2) (skipBlanks cs) = .ok (v, rest) ∧
      skipBlanks rest = [] := by
    unfold Json.parse at hread
    split at hread
    · exact nomatch hread
    · split at hread
      · exact nomatch hread
      · rename_i v' rest heq
        split at hread
        · rename_i hend
          exact ⟨rest, Except.ok.inj hread ▸ heq, hend⟩
        · exact nomatch hread
  obtain ⟨rest, hvalue, hend⟩ := hparse
  obtain ⟨gap, hgap, hat, hportable⟩ := At.exists_gap (at_start cs) hcs
  obtain ⟨-, gap', hgap', l, ts, ⟨n, hn, hrun⟩, h, hts⟩ := (lex _).1 hvalue hportable hgap
    (Int.le_refl 0) (by rw [hend]; exact nofun) (.inr hend) hat
  refine ⟨ts, ?_, hts⟩
  rw [hend, List.append_nil] at h
  have hfuel : cs.length + 2 = n + (cs.length - n + 2) := by
    have hlength : (Lexer.start cs).cursor.rest = cs := rfl
    rw [hlength] at hn
    omega
  rw [Token.ofText, if_pos (List.all_eq_true.mpr (isAllowed_of_portable hcs)), hfuel, hrun,
    h.run_end hgap']
  rfl

end Yaml

end Conform
