import Conform.Proofs.Portable.Words
import Conform.Proofs.Yaml.Scanned
import Mathlib.Data.Bool.AllAny

/-!
# Portable scalars in a YAML text

A text in quotes is scanned as it is spelled, up to its closing quote (`readQuoted_quoted`), and a
word as itself, together with the white space behind it (`exists_readPlain_word`).

The scanner takes what is between quotes in runs, of spaces or of other characters that stand for
themselves; `Quoted.exists_run` cuts such a run off.
-/

namespace Conform

open Json

/-! ## Cursors -/

namespace Yaml

namespace Cursor

variable {c : Cursor} {x : Char} {cs : List Char}

theorem peek_of_rest (h : c.rest = x :: cs) : c.peek = x := by
  rw [peek, h, List.headD_cons]

theorem rest_skip : ∀ (n : Nat) (c : Cursor), (c.skip n).rest = c.rest.drop n
  | 0, _ => rfl
  | n + 1, c => by rw [skip, rest_skip n, rest_next, List.drop_tail]

theorem skip_skip (n : Nat) : ∀ (m : Nat) (c : Cursor), (c.skip m).skip n = c.skip (m + n)
  | 0, c => by rw [skip, Nat.zero_add]
  | m + 1, c => by rw [skip, skip_skip n m, Nat.succ_add, skip]

theorem rest_skip_append {run : List Char} (h : c.rest = run ++ cs) :
    (c.skip run.length).rest = cs := by
  rw [rest_skip, h, List.drop_left]

theorem index_next (h : c.rest = x :: cs) : c.next.index = c.index + 1 := by
  unfold next
  rw [h]
  dsimp only
  split <;> rfl

theorem line_next (h : c.rest = x :: cs) (hx : isBreak x = false) : c.next.line = c.line := by
  have hcr : (x == '\r') = false := by
    rw [isBreak] at hx
    simp_all
  unfold next
  rw [h]
  simp [hx, hcr]

/-- Past characters of one line, the index counts them and the line is the same. -/
theorem skip_line : ∀ {run : List Char} {c : Cursor}, c.rest = run ++ cs →
    (∀ x ∈ run, isBreak x = false) →
      (c.skip run.length).index = c.index + run.length ∧ (c.skip run.length).line = c.line
  | [], _, _, _ => ⟨rfl, rfl⟩
  | x :: run, c, h, hrun => by
      obtain ⟨hx, hrun⟩ := List.forall_mem_cons.mp hrun
      have hnext : c.next.rest = run ++ cs := by rw [rest_next, h]; rfl
      obtain ⟨hindex, hline⟩ := skip_line hnext hrun
      rw [List.length_cons, skip, hindex, hline, index_next h, line_next h hx]
      exact ⟨by omega, rfl⟩

end Cursor

end Yaml

/-! ## Texts in quotes -/

namespace Json

variable {body text : List Char}

/-- A run of one class at the front of what stands between quotes spells itself. -/
theorem Quoted.exists_run (h : Quoted body text) (accepts : Char → Bool)
    (hquote : accepts '"' = false) (hescape : accepts '\\' = false) (rest : List Char) :
    ∃ body' text', Quoted body' text' ∧
      body = (body ++ '"' :: rest).takeWhile accepts ++ body' ∧
      text = (body ++ '"' :: rest).takeWhile accepts ++ text' := by
  have hbreak {c : Char} (hc : accepts c = false) (cs : List Char) :
      (c :: cs).takeWhile accepts = [] := List.takeWhile_cons_of_neg (by simp [hc])
  induction h with
  | nil => exact ⟨[], [], .nil, by rw [List.nil_append, hbreak hquote]; exact ⟨rfl, rfl⟩⟩
  | @raw c body text hc rest' ih =>
      by_cases haccepts : accepts c = true
      · obtain ⟨body', text', h', hbody, htext⟩ := ih
        refine ⟨body', text', h', ?_, ?_⟩
        · rw [List.cons_append, List.takeWhile_cons_of_pos haccepts, List.cons_append, ← hbody]
        · rw [List.cons_append, List.takeWhile_cons_of_pos haccepts, List.cons_append, ← htext]
      · rw [List.cons_append, List.takeWhile_cons_of_neg haccepts]
        exact ⟨_, _, .raw hc rest', rfl, rfl⟩
  | short he rest' =>
      rw [List.cons_append, hbreak hescape]
      exact ⟨_, _, .short he rest', rfl, rfl⟩
  | unicode digits single rest' =>
      rw [List.cons_append, hbreak hescape]
      exact ⟨_, _, .unicode digits single rest', rfl, rfl⟩

theorem Quoted.head (h : Quoted body text) (rest : List Char) :
    ∃ c cs, body ++ '"' :: rest = c :: cs ∧ c ≠ '\x00' ∧ Yaml.isBreak c = false := by
  cases h with
  | nil => exact ⟨_, _, rfl, by decide, by decide⟩
  | @raw c body text hc =>
      refine ⟨c, _, rfl, ?_, ?_⟩
      · rintro rfl
        exact absurd hc (by decide)
      · simp_all [isRaw]
  | short => exact ⟨_, _, rfl, by decide, by decide⟩
  | unicode => exact ⟨_, _, rfl, by decide, by decide⟩

theorem yaml_escaped?_eq_some {c e : Char} (h : escaped? c = some e) :
    Yaml.escaped? c = some e := by
  have hmem := escaped?_eq_some h
  simp only [List.mem_cons, Prod.mk.injEq, List.not_mem_nil, or_false] at hmem
  rcases hmem with ⟨rfl, rfl⟩ | ⟨rfl, rfl⟩ | ⟨rfl, rfl⟩ | ⟨rfl, rfl⟩ | ⟨rfl, rfl⟩ | ⟨rfl, rfl⟩ |
    ⟨rfl, rfl⟩ | ⟨rfl, rfl⟩ <;> rfl

end Json

namespace Yaml

open Cursor

variable {body text rest : List Char} {c : Cursor}

theorem isHexDigit_of_digitValue? {x : Char} {d : Nat} (h : Digits.digitValue? x = some d)
    (hd : d < 16) : Digits.isHexDigit x = true := by
  have hchars : 'f'.toNat = 102 ∧ 'F'.toNat = 70 ∧ 'a'.toNat = 97 ∧ 'A'.toNat = 65 := by decide
  simp only [Digits.isHexDigit, Digits.isDigit, Bool.or_eq_true, Bool.and_eq_true,
    decide_eq_true_iff]
  unfold Digits.digitValue? at h
  split at h
  · exact .inl (.inl ‹_›)
  · split at h
    · rename_i hx
      have ha : 'a'.toNat ≤ x.toNat := hx.1
      have hvalue := Option.some.inj h
      exact .inl (.inr ⟨hx.1, show x.toNat ≤ 'f'.toNat by omega⟩)
    · split at h
      · rename_i hx
        have hA : 'A'.toNat ≤ x.toNat := hx.1
        have hvalue := Option.some.inj h
        exact .inr ⟨hx.1, show x.toNat ≤ 'F'.toNat by omega⟩
      · cases h

theorem isHexDigit_of_ofDigits? {ds : List Char} {n : Nat}
    (h : Digits.ofDigits? 16 ds = some n) :
    Digits.ofDigits 16 ds = n ∧ ∀ d ∈ ds, Digits.isHexDigit d = true := by
  unfold Digits.ofDigits? at h
  split at h
  · rename_i hall
    refine ⟨Option.some.inj h, fun d hd => ?_⟩
    have hvalue := List.all_eq_true.mp hall.2 d hd
    split at hvalue
    · exact isHexDigit_of_digitValue? ‹_› (of_decide_eq_true hvalue)
    · exact nomatch hvalue
  · exact nomatch h

theorem isHexDigit_plain {x : Char} (h : Digits.isHexDigit x = true) :
    isBreak x = false ∧ isAllowed x = true := by
  have hascii : x.toNat < 0x80 := by
    simp only [Digits.isHexDigit, Digits.isDigit, Bool.or_eq_true, Bool.and_eq_true,
      decide_eq_true_iff] at h
    rcases h with (⟨-, h⟩ | ⟨-, h⟩) | ⟨-, h⟩
    all_goals exact Nat.lt_of_le_of_lt (Char.le_def.mp h) (by decide)
  exact Text.forall_ascii (P := fun x => Digits.isHexDigit x = true →
    isBreak x = false ∧ isAllowed x = true) (by decide) hascii h

theorem isBreak_quoted (h : Quoted body text) : ∀ x ∈ body, isBreak x = false := by
  induction h with
  | nil => exact List.forall_mem_nil _
  | raw hx _ ih =>
      refine List.forall_mem_cons.mpr ⟨?_, ih⟩
      simp_all [isRaw]
  | @short x e _ _ hx _ ih =>
      have hall : ∀ p ∈ [('"', '"'), ('\\', '\\'), ('/', '/'), ('b', '\x08'), ('f', '\x0c'),
          ('n', '\n'), ('r', '\r'), ('t', '\t')], isBreak p.1 = false := by decide
      exact List.forall_mem_cons.mpr ⟨by decide,
        List.forall_mem_cons.mpr ⟨hall _ (escaped?_eq_some hx), ih⟩⟩
  | unicode digits _ _ ih =>
      have hhex := (isHexDigit_of_ofDigits? digits).2
      refine List.forall_mem_cons.mpr ⟨by decide, List.forall_mem_cons.mpr ⟨by decide, ?_⟩⟩
      exact List.forall_mem_append.mpr ⟨fun d hd => (isHexDigit_plain (hhex d hd)).1, ih⟩

/-- What is scanned behind the backslash of an escape of four digits. -/
theorem quotedEscape_unicode {w x y z : Char} {n : Nat}
    (hdigits : Digits.ofDigits? 16 [w, x, y, z] = some n) (hsingle : n < 0xD800 ∨ 0xE000 ≤ n)
    (hrest : c.rest = 'u' :: w :: x :: y :: z :: rest) :
    quotedEscape c = .ok ([Char.ofNat n], c.skip 5) := by
  obtain ⟨rfl, hhex⟩ := isHexDigit_of_ofDigits? hdigits
  have hlt : Digits.ofDigits 16 [w, x, y, z] < 16 ^ 4 :=
    Digits.ofDigits_lt fun d hd => Digits.digitValue_lt_of_isHexDigit (hhex d hd)
  have hchar : characterOf (Digits.ofDigits 16 [w, x, y, z]) =
      .ok (Char.ofNat (Digits.ofDigits 16 [w, x, y, z])) := by
    rw [characterOf, if_neg (by omega), if_neg (by omega)]
  have htake : c.next.rest.take 4 = [w, x, y, z] := by
    rw [rest_next, hrest]
    rfl
  have hall : [w, x, y, z].all Digits.isHexDigit = true := List.all_eq_true.mpr hhex
  simp only [quotedEscape, peek_of_rest hrest, escaped?, escapeWidth?, htake, hall, hchar]
  rfl

section

variable (fuel : Nat) (done : List Char) {run : List Char} {x : Char}

/-- The white space that may stand among the characters between quotes. -/
def isInnerSpace (x : Char) : Bool := x == ' ' || x == '\t'

/-- The other characters between quotes that stand for themselves, but for single quotes. -/
def isInnerPlain (x : Char) : Bool := !("'\"\\ \t".toList.contains x || isBreakOrEnd x)

theorem quotedText_spaces (hpeek : c.peek = ' ') (hrun : c.front isInnerSpace = run)
    (hnext : (c.skip run.length).peek = x) (hx : x ≠ '\x00' ∧ isBreak x = false) :
    quotedText true (fuel + 1) done c =
      quotedText true fuel (done ++ run) (c.skip run.length) := by
  change c.front (fun x => x == ' ' || x == '\t') = run at hrun
  simp [quotedText, hpeek, hrun, hnext, hx]

theorem quotedText_run (hpeek : c.peek = x) (hx : x ≠ '\x00' ∧ isBreak x = false)
    (hmarks : x ≠ ' ' ∧ x ≠ '\t' ∧ x ≠ '"' ∧ x ≠ '\\')
    (hrun : (if (c.front isInnerPlain).isEmpty then [x] else c.front isInnerPlain) = run) :
    quotedText true (fuel + 1) done c =
      quotedText true fuel (done ++ run) (c.skip run.length) := by
  change (if (c.front fun x => !("'\"\\ \t".toList.contains x || isBreakOrEnd x)).isEmpty then [x]
    else c.front fun x => !("'\"\\ \t".toList.contains x || isBreakOrEnd x)) = run at hrun
  simp only [quotedText, hpeek, beq_iff_eq, Bool.or_eq_true, hx.1, hx.2, hmarks, if_false,
    Bool.false_eq_true, or_self, if_true, Bool.true_and, hrun]

theorem quotedText_escape (hpeek : c.peek = '\\')
    (hescape : quotedEscape c.next = .ok (run, c.next.skip n)) :
    quotedText true (fuel + 1) done c =
      quotedText true fuel (done ++ run) (c.skip (n + 1)) := by
  simp only [quotedText, hpeek, hescape]
  rfl

end

theorem quotedText_quoted {fuel : Nat} : ∀ {body text : List Char} {done : List Char} {c : Cursor},
    Quoted body text → body.length < fuel → c.rest = body ++ '"' :: rest →
      quotedText true fuel done c = .ok (done ++ text, c.skip (body.length + 1)) := by
  induction fuel with
  | zero => exact fun _ h => absurd h (Nat.not_lt_zero _)
  | succ fuel ih =>
      intro body text done c h hfuel hrest
      -- Once a piece is scanned as what it spells, the rest is scanned with less fuel.
      have hgo (piece shown : List Char) {body' text' : List Char} (h' : Quoted body' text')
          (hbody : body = piece ++ body') (htext : text = shown ++ text') (hpiece : piece ≠ [])
          (hstep : quotedText true (fuel + 1) done c =
            quotedText true fuel (done ++ shown) (c.skip piece.length)) :
          quotedText true (fuel + 1) done c = .ok (done ++ text, c.skip (body.length + 1)) := by
        have hpos := List.length_pos_iff.mpr hpiece
        subst hbody htext
        rw [List.length_append] at hfuel
        have hrest' : (c.skip piece.length).rest = body' ++ '"' :: rest :=
          rest_skip_append (by rw [hrest, List.append_assoc])
        rw [hstep, ih h' (by omega) hrest', skip_skip, List.append_assoc, List.length_append,
          Nat.add_assoc]
      cases h with
      | nil =>
          simp only [quotedText, peek_of_rest hrest]
          simp [isBreak, skip]
      | @raw x body text hx htail =>
          have hall := Quoted.raw hx htail
          have hpeek : c.peek = x := peek_of_rest hrest
          have hhead : x ≠ '\x00' ∧ isBreak x = false := by
            obtain ⟨y, ys, hy, hplain⟩ := hall.head rest
            rwa [(List.cons.inj hy).1]
          have hmarks : x ≠ '\t' ∧ x ≠ '"' ∧ x ≠ '\\' := by simp_all [isRaw]
          by_cases hspace : x = ' '
          · -- A run of spaces, behind which there is no end of a line.
            obtain ⟨body', text', h', hbody, htext⟩ :=
              hall.exists_run isInnerSpace (by decide) (by decide) rest
            have hrun : c.front isInnerSpace = _ := congrArg (List.takeWhile isInnerSpace) hrest
            have hne : (x :: body ++ '"' :: rest).takeWhile isInnerSpace ≠ [] := by
              rw [hspace, List.cons_append, List.takeWhile_cons_of_pos (by decide)]
              exact List.cons_ne_nil _ _
            generalize (x :: body ++ '"' :: rest).takeWhile isInnerSpace = run at *
            obtain ⟨y, ys, hy, hplain⟩ := h'.head rest
            have hnext : (c.skip run.length).peek = y := by
              rw [peek, rest_skip_append (by rw [hrest, hbody, List.append_assoc]), hy]
              rfl
            exact hgo _ _ h' hbody htext hne
              (quotedText_spaces fuel done (hspace ▸ hpeek) hrun hnext hplain)
          · obtain ⟨body', text', h', hbody, htext⟩ :=
              hall.exists_run isInnerPlain (by decide) (by decide) rest
            have hrun : c.front isInnerPlain = _ := congrArg (List.takeWhile isInnerPlain) hrest
            generalize (x :: body ++ '"' :: rest).takeWhile isInnerPlain = run at *
            have hstep := quotedText_run fuel done hpeek hhead ⟨hspace, hmarks⟩ rfl
            rw [hrun] at hstep
            cases run with
            -- A single quote is a run of its own.
            | nil => exact hgo [x] [x] htail rfl rfl (by simp) hstep
            | cons y run => exact hgo _ _ h' hbody htext (by simp) hstep
      | @short x e body text he h' =>
          have hpeek : c.next.peek = x := peek_of_rest (by rw [rest_next, hrest]; rfl)
          have hescape : quotedEscape c.next = .ok ([e], c.next.skip 1) := by
            simp only [quotedEscape, hpeek, yaml_escaped?_eq_some he]
            rfl
          have hstep := quotedText_escape fuel done (peek_of_rest hrest) hescape
          exact hgo ['\\', x] [e] h' rfl rfl (by simp) hstep
      | @unicode w x y z n body text hdigits hsingle h' =>
          have hnext : c.next.rest = 'u' :: w :: x :: y :: z :: (body ++ '"' :: rest) := by
            rw [rest_next, hrest]
            rfl
          have hescape := quotedEscape_unicode hdigits hsingle hnext
          have hstep := quotedText_escape fuel done (peek_of_rest hrest) hescape
          exact hgo ['\\', 'u', w, x, y, z] [Char.ofNat n] h' rfl rfl (by simp) hstep

theorem readQuoted_quoted (h : Quoted body text) (hrest : c.rest = '"' :: (body ++ '"' :: rest)) :
    readQuoted true c = .ok (text, c.skip (body.length + 2)) := by
  have hnext : c.next.rest = body ++ '"' :: rest := by rw [rest_next, hrest]; rfl
  have hfuel : body.length < c.rest.length + 1 := by rw [hrest]; simp; omega
  exact quotedText_quoted h hfuel hnext

end Yaml

/-! ## Gaps and the fronts of words -/

namespace Json

open Digits

theorem IsGap.exists_spaces : ∀ {gap : List Char}, IsGap gap → ∃ spaces more, gap = spaces ++ more ∧
    (∀ x ∈ spaces, x = ' ') ∧ (more = [] ∨ ∃ x xs, more = x :: xs ∧ (x = '\n' ∨ x = '\r'))
  | [], _ => ⟨[], [], rfl, List.forall_mem_nil _, .inl rfl⟩
  | x :: gap, h => by
      obtain ⟨hx, hgap⟩ := List.forall_mem_cons.mp h
      by_cases hspace : x = ' '
      · obtain ⟨spaces, more, rfl, hspaces, hmore⟩ := exists_spaces hgap
        exact ⟨x :: spaces, more, rfl, List.forall_mem_cons.mpr ⟨hspace, hspaces⟩, hmore⟩
      · exact ⟨[], x :: gap, rfl, List.forall_mem_nil _, .inr ⟨x, gap, rfl, by
          simpa [isGap, hspace] using hx⟩⟩

/-- A digit, or the first letter of a word. -/
def isInitial (x : Char) : Bool := isDigit x || x == 'n' || x == 't' || x == 'f'

theorem Word.exists_eq_cons {w : List Char} {v : Value} (h : Word w v) :
    ∃ x xs, w = x :: xs ∧
      (isInitial x = true ∨ x = '-' ∧ ∃ d ds, xs = d :: ds ∧ isDigit d = true) := by
  have hnumber {c : Char} (hc : isDigit c = true) (negative : Bool) (cs : List Char) :
      ∃ x xs, signText negative ++ c :: cs = x :: xs ∧
        (isInitial x = true ∨ x = '-' ∧ ∃ d ds, xs = d :: ds ∧ isDigit d = true) := by
    cases negative with
    | true => exact ⟨_, _, rfl, .inr ⟨rfl, c, cs, rfl, hc⟩⟩
    | false => exact ⟨_, _, rfl, .inl (by simp [isInitial, hc])⟩
  cases h with
  | null => exact ⟨_, _, rfl, .inl (by decide)⟩
  | bool b => cases b <;> exact ⟨_, _, rfl, .inl (by decide)⟩
  | int negative whole short =>
      obtain ⟨c, cs, rfl, hc⟩ := whole.exists_eq_cons
      exact hnumber hc negative cs
  | float negative whole point proper =>
      obtain ⟨c, cs, rfl, hc⟩ := whole.exists_eq_cons
      exact hnumber hc negative _

end Json

namespace Yaml

open Cursor Json

variable {c : Cursor} {gap cs : List Char} {x : Char}

/-! ## White space -/

/-- Is the character passed over between tokens, or the start of what is? -/
def isFiller (x : Char) : Bool := isBlankOrEnd x || x == '#'

/-- Where a gap ends there is neither a space, nor the end of a line, nor a comment. -/
theorem peek_stops (hcs : Text.Stops isFiller cs) (hrest : c.rest = cs) :
    c.peek ≠ ' ' ∧ isBreak c.peek = false ∧ c.peek ≠ '#' := by
  cases cs with
  | nil =>
      have hpeek : c.peek = '\x00' := by rw [peek, hrest]; rfl
      rw [hpeek]
      decide
  | cons x cs =>
      have hx := Text.stops_cons.mp hcs
      rw [peek_of_rest hrest]
      simp_all [isFiller, isBlankOrEnd, isSpaceOrEnd, isBreakOrEnd]

theorem skipSpaces_eq {spaces : List Char} (hspaces : ∀ x ∈ spaces, x = ' ')
    (hcs : Text.Stops (· == ' ') cs) (hrest : c.rest = spaces ++ cs) :
    c.front (· == ' ') = spaces ∧ c.skipSpaces = c.skip spaces.length := by
  have hfront : c.front (· == ' ') = spaces := by
    rw [front, hrest]
    exact Text.takeWhile_run (fun x hx => by simp [hspaces x hx]) hcs
  exact ⟨hfront, by rw [skipSpaces, skipWhile, hfront]⟩

theorem stops_space {more : List Char}
    (hmore : more = [] ∨ ∃ x xs, more = x :: xs ∧ (x = '\n' ∨ x = '\r'))
    (hcs : Text.Stops isFiller cs) : Text.Stops (· == ' ') (more ++ cs) := by
  rcases hmore with rfl | ⟨x, xs, rfl, rfl | rfl⟩
  · intro y hy
    have hfiller := hcs y hy
    simp_all [isFiller, isBlankOrEnd, isSpaceOrEnd]
  · exact Text.stops_cons.mpr (by decide)
  · exact Text.stops_cons.mpr (by decide)

theorem exists_lineBreak (hx : x = '\n' ∨ x = '\r') (hgap : IsGap gap)
    (hcs : Text.Stops isFiller cs) (hrest : c.rest = x :: (gap ++ cs)) :
    ∃ gap' c', c.lineBreak = (['\n'], c') ∧ c'.rest = gap' ++ cs ∧ IsGap gap' ∧
      gap'.length ≤ gap.length := by
  have hpeek : c.peek = x := peek_of_rest hrest
  have hnext : c.next.rest = gap ++ cs := by rw [rest_next, hrest]; rfl
  by_cases htwo : (x == '\r' && c.peekAt 1 == '\n') = true
  · have hsecond : (gap ++ cs).head? = some '\n' := by
      rw [Bool.and_eq_true, beq_iff_eq, beq_iff_eq, peekAt, hrest, List.getD_cons_succ] at htwo
      cases hnext' : gap ++ cs with
      | nil => rw [hnext'] at htwo; exact absurd htwo.2 (by decide)
      | cons y ys => rw [hnext'] at htwo; exact congrArg some htwo.2
    cases gap with
    | nil => exact absurd (hcs _ hsecond) (by decide)
    | cons y gap =>
        refine ⟨gap, c.skip 2, ?_, ?_, (List.forall_mem_cons.mp hgap).2, Nat.le_succ _⟩
        · simp only [Cursor.lineBreak, hpeek, htwo, if_true]
        · show c.next.next.rest = _
          rw [rest_next, hnext]
          rfl
  · refine ⟨gap, c.next, ?_, hnext, hgap, Nat.le_refl _⟩
    rw [Bool.not_eq_true] at htwo
    simp only [Cursor.lineBreak, hpeek, htwo, Bool.false_eq_true, if_false]
    rcases hx with rfl | rfl <;> rfl

/-- What may stand behind a word inside of a collection. -/
def isClosing (x : Char) : Bool := x == ',' || x == ']' || x == '\x7d'

/-- What is behind a word: the end, or a mark that closes it. -/
def Closes (cs : List Char) : Prop := ∀ x, cs.head? = some x → isClosing x = true

theorem Closes.stops (h : Closes cs) : Text.Stops isFiller cs := by
  intro x hx
  have hclosing := h x hx
  simp only [isClosing, Bool.or_eq_true, beq_iff_eq] at hclosing
  rcases hclosing with (rfl | rfl) | rfl <;> decide

theorem not_atMarker (hgap : IsGap gap) (hcs : Closes cs) (hrest : c.rest = gap ++ cs) :
    (c.atMarker '-' || c.atMarker '.') = false := by
  have hhead : ∀ y, c.rest.head? = some y → y ≠ '-' ∧ y ≠ '.' := by
    intro y hy
    rw [hrest, List.head?_append, Option.or_eq_some_iff] at hy
    rcases hy with hy | ⟨-, hy⟩
    · have := hgap y (List.mem_of_mem_head? hy)
      constructor <;> (rintro rfl; revert this; decide)
    · have := hcs y hy
      constructor <;> (rintro rfl; revert this; decide)
  rw [Bool.or_eq_false_iff]
  simp only [atMarker]
  cases hc : c.rest with
  | nil => exact ⟨rfl, rfl⟩
  | cons y ys =>
      have := hhead y (by rw [hc]; rfl)
      simp [this]

theorem exists_emptyLines : ∀ (fuel : Nat) (breaks : List Char) {gap : List Char} {c : Cursor},
    IsGap gap → Closes cs → gap.length < fuel → c.rest = gap ++ cs →
      ∃ breaks' c', emptyLines fuel breaks c = (some breaks', c') ∧ c'.rest = cs
  | 0, _, _, _, _, _, h, _ => absurd h (Nat.not_lt_zero _)
  | fuel + 1, breaks, [], c, _, hcs, _, hrest => by
      refine ⟨breaks, c, ?_, hrest⟩
      simp [emptyLines, peek_stops hcs.stops hrest]
  | fuel + 1, breaks, x :: gap, c, hgap, hcs, hfuel, hrest => by
      obtain ⟨hx, hgap'⟩ := List.forall_mem_cons.mp hgap
      have hpeek : c.peek = x := peek_of_rest hrest
      rw [List.length_cons] at hfuel
      by_cases hspace : x = ' '
      · have hnext : c.next.rest = gap ++ cs := by rw [rest_next, hrest]; rfl
        obtain ⟨breaks', c', hlines, hc'⟩ :=
          exists_emptyLines fuel breaks hgap' hcs (by omega) hnext
        exact ⟨breaks', c', by simpa [emptyLines, hpeek, hspace] using hlines, hc'⟩
      · have hbreak : x = '\n' ∨ x = '\r' := by simpa [isGap, hspace] using hx
        obtain ⟨gap', c', hline, hc', hgap', hlength⟩ :=
          exists_lineBreak hbreak hgap' hcs.stops hrest
        obtain ⟨breaks', c'', hlines, hc''⟩ :=
          exists_emptyLines fuel (['\n'].reverse ++ breaks) hgap' hcs (by omega) hc'
        refine ⟨breaks', c'', ?_, hc''⟩
        have hisBreak : isBreak x = true := by rcases hbreak with rfl | rfl <;> decide
        simp only [emptyLines, hpeek, beq_iff_eq, hspace, if_false, hisBreak, if_true, hline,
          not_atMarker hgap' hcs hc', Bool.false_eq_true]
        exact hlines

theorem exists_plainSpaces (hgap : IsGap gap) (hcs : Closes cs) (hrest : c.rest = gap ++ cs) :
    ∃ spaces crossed c', plainSpaces c = (spaces, crossed, c') ∧ c'.rest = cs := by
  obtain ⟨spaces, more, rfl, hspaces, hmore⟩ := hgap.exists_spaces
  rw [List.append_assoc] at hrest
  obtain ⟨hfront, hskip⟩ := skipSpaces_eq hspaces (stops_space hmore hcs.stops) hrest
  have hrest' : (c.skip spaces.length).rest = more ++ cs := rest_skip_append hrest
  rcases hmore with rfl | ⟨x, xs, rfl, hx⟩
  · refine ⟨spaces, false, c.skip spaces.length, ?_, hrest'⟩
    simp only [plainSpaces, hfront, hskip, peek_stops hcs.stops hrest', Bool.false_eq_true,
      if_false]
  · obtain ⟨gap', c', hline, hc', hgap', -⟩ :=
      exists_lineBreak hx (fun y hy => hgap y (by simp [hy])) hcs.stops hrest'
    obtain ⟨breaks, c'', hlines, hc''⟩ :=
      exists_emptyLines (c'.rest.length + 1) [] hgap' hcs
        (by rw [hc', List.length_append]; omega) hc'
    refine ⟨foldBreaks ['\n'] breaks.reverse, true, c'', ?_, hc''⟩
    have hpeek : (c.skip spaces.length).peek = x := peek_of_rest hrest'
    have hisBreak : isBreak x = true := by rcases hx with rfl | rfl <;> decide
    simp only [plainSpaces, hskip, hpeek, hisBreak, if_true, hline, not_atMarker hgap' hcs hc',
      Bool.false_eq_true, if_false, hlines]

/-! ## Plain scalars -/

/-- A letter of the words, a digit, or a mark of a number. -/
def isWordChar (x : Char) : Bool :=
  Number.isNumeric x || x == 'E' || "nultrefas".toList.contains x

theorem isWordChar_of_mem {w : List Char} {v : Value} (h : Word w v) :
    ∀ x ∈ w, isWordChar x = true := by
  have hnumeric {x : Char} (hx : Number.isNumeric x = true) : isWordChar x = true := by
    simp [isWordChar, hx]
  cases h with
  | null => exact List.all_iff_forall_prop.mp (by decide)
  | bool b => cases b <;> exact List.all_iff_forall_prop.mp (by decide)
  | int negative whole short =>
      exact List.forall_mem_append.mpr ⟨Tag.forall_mem_signText negative (by decide),
        fun x hx => hnumeric (Number.isNumeric_of_isDigit (whole.digits x hx))⟩
  | float negative whole point proper =>
      intro x hx
      rcases Tag.isNumeric_or_of_mem negative whole point proper x hx with hx | rfl
      · exact hnumeric hx
      · decide

/-- A character of a word may stand anywhere, and ends no plain scalar. -/
theorem isWordChar_plain (hx : isWordChar x = true) : isBlankOrEnd x = false ∧ x ≠ ':' ∧
    x ≠ '#' ∧ ",?[]\x7b\x7d".toList.contains x = false ∧ isAllowed x = true := by
  have hascii : x.toNat < 0x80 := by
    simp only [isWordChar, Bool.or_eq_true, beq_iff_eq, List.contains_iff_mem] at hx
    rcases hx with (hx | rfl) | hx
    · exact Number.lt_of_isNumeric hx
    · decide
    · have hletters : ∀ y ∈ "nultrefas".toList, y.toNat < 0x80 :=
        List.all_iff_forall_prop.mp (by decide)
      exact hletters x hx
  exact Text.forall_ascii (P := fun x => isWordChar x = true → isBlankOrEnd x = false ∧ x ≠ ':' ∧
    x ≠ '#' ∧ ",?[]\x7b\x7d".toList.contains x = false ∧ isAllowed x = true) (by decide +kernel)
    hascii hx

theorem plainRun_word {flow : Bool} (hcs : plainRun flow cs = []) : ∀ {w : List Char},
    (∀ x ∈ w, isWordChar x = true) → plainRun flow (w ++ cs) = w
  | [], _ => hcs
  | x :: w, h => by
      obtain ⟨hx, hw⟩ := List.forall_mem_cons.mp h
      obtain ⟨hblank, hcolon, -, hmarks, -⟩ := isWordChar_plain hx
      have hrest := plainRun_word hcs hw
      rw [List.cons_append, plainRun]
      simp only [hblank, beq_eq_false_iff_ne.mpr hcolon, hmarks, Bool.false_and, Bool.and_false,
        Bool.or_self, Bool.false_eq_true, if_false, hrest]

theorem plainRuns_end {flow : Bool} {indent : Int} {done spaces : List Char} {crossed : Bool}
    (h : plainRun flow c.rest = []) :
    ∀ fuel : Nat, plainRuns flow indent fuel done spaces crossed c = (done, crossed, c)
  | 0 => rfl
  | fuel + 1 => by simp [plainRuns, h]

theorem exists_readPlain_word {w : List Char} {v : Value} (h : Word w v) {flow : Bool}
    (indent : Int) (hgap : IsGap gap) (hcs : Closes cs) (hflow : flow = true ∨ cs = [])
    (hrest : c.rest = w ++ (gap ++ cs)) :
    ∃ crossed c', readPlain flow indent c = (w, crossed, c') ∧ c'.rest = cs := by
  have hchars := isWordChar_of_mem h
  have hend : plainRun flow cs = [] := by
    cases cs with
    | nil => rfl
    | cons x cs =>
        have hx := hcs x rfl
        rcases hflow with rfl | heq
        · simp only [isClosing, Bool.or_eq_true, beq_iff_eq] at hx
          rcases hx with (rfl | rfl) | rfl <;> simp [plainRun]
        · exact nomatch heq
  have hstop : plainRun flow (gap ++ cs) = [] := by
    cases gap with
    | nil => exact hend
    | cons x gap =>
        have hx := hgap x List.mem_cons_self
        simp only [isGap, Bool.or_eq_true, beq_iff_eq] at hx
        rcases hx with (rfl | rfl) | rfl <;> simp [plainRun, isBlankOrEnd, isSpaceOrEnd,
          isBreakOrEnd, isBreak]
  have hrun : plainRun flow c.rest = w := by rw [hrest, plainRun_word hstop hchars]
  obtain ⟨spaces, crossed, c', hspaces, hc'⟩ :=
    exists_plainSpaces hgap hcs (rest_skip_append hrest)
  refine ⟨crossed, c', ?_, hc'⟩
  obtain ⟨x, xs, rfl, -⟩ := h.exists_eq_cons
  have hpeek : c.peek = x := peek_of_rest hrest
  have hx := isWordChar_plain (hchars x List.mem_cons_self)
  simp only [readPlain, plainRuns, hrun, hpeek, beq_iff_eq, hx, hspaces, List.isEmpty_cons,
    Bool.or_false, if_false, List.nil_append]
  -- Whatever the white space counts as, no further run follows it.
  rw [plainRuns_end (by rw [hc', hend]), ite_self]

end Yaml

end Conform
