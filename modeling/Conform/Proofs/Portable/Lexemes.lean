import Conform.Proofs.Json.RoundTrip
import Conform.Yaml.Token.Basic

/-!
# Lexemes that JSON and YAML share

A JSON text is portable if it is made of lexemes that a YAML reader takes for the same: white space
without tabs, punctuation, texts in quotes, words and numbers.  Not among them are

* characters that YAML does not allow or takes for line breaks, where JSON lets them stand for
  themselves in a text, and escapes of a character by two numbers;
* numbers with an exponent that lacks a point before it or a sign, and the words for the numbers
  that no digits express;
* keys that are not on one line with their colon, or begin too far in front of it.

JSON reads a portable lexeme as the value that comes with it, whatever follows it
(`readString_quoted`, `readValue_word`).
-/

namespace Conform.Json

open Digits

/-! ## White space and texts in quotes -/

/-- White space between lexemes; a tab is none in YAML. -/
def isGap (c : Char) : Bool := c == ' ' || c == '\n' || c == '\r'

def IsGap (gap : List Char) : Prop := ∀ c ∈ gap, isGap c = true

/-- Does the character stand for itself between quotes in both notations? -/
def isRaw (c : Char) : Bool :=
  Yaml.isAllowed c && !Yaml.isBreak c && c != '\t' && c != '"' && c != '\\'

/-- What stands between quotes, and the text that it spells. -/
inductive Quoted : List Char → List Char → Prop
  | nil : Quoted [] []
  | raw {c : Char} {body text : List Char} (h : isRaw c = true) (rest : Quoted body text) :
      Quoted (c :: body) (c :: text)
  | short {c e : Char} {body text : List Char} (h : escaped? c = some e) (rest : Quoted body text) :
      Quoted ('\\' :: c :: body) (e :: text)
  /-- The number of the character is no half of a surrogate pair. -/
  | unicode {a b c d : Char} {n : Nat} {body text : List Char}
      (digits : ofDigits? 16 [a, b, c, d] = some n) (single : n < 0xD800 ∨ 0xE000 ≤ n)
      (rest : Quoted body text) :
      Quoted ('\\' :: 'u' :: a :: b :: c :: d :: body) (Char.ofNat n :: text)

/-! ## Words and numbers -/

/-- Digits without a needless zero in front. -/
structure IsWhole (ds : List Char) : Prop where
  digits : ∀ c ∈ ds, isDigit c = true
  leading : ds = ['0'] ∨ ∃ c cs, ds = c :: cs ∧ c ≠ '0'

structure IsDigits (ds : List Char) : Prop where
  digits : ∀ c ∈ ds, isDigit c = true
  ne_nil : ds ≠ []

structure Power where
  mark : Char
  negative : Bool
  digits : List Char

namespace Power

def text (p : Power) : List Char := p.mark :: (if p.negative then '-' else '+') :: p.digits

def value (p : Power) : Int :=
  if p.negative then -(ofDigits 10 p.digits : Int) else ofDigits 10 p.digits

/-- An `e` in either case, and digits. -/
structure IsProper (p : Power) : Prop where
  mark : p.mark = 'e' ∨ p.mark = 'E'
  digits : IsDigits p.digits

end Power

def powerText (p : Option Power) : List Char := (p.map Power.text).getD []

def powerValue (p : Option Power) : Int := (p.map Power.value).getD 0

/-- A word or number that both notations share, and its value. -/
inductive Word : List Char → Value → Prop
  | null : Word "null".toList .null
  | bool (b : Bool) : Word (if b then "true" else "false").toList (.bool b)
  | int {ds : List Char} (negative : Bool) (whole : IsWhole ds) (short : ds.length ≤ limit) :
      Word (signText negative ++ ds)
        (.int (if negative then -(ofDigits 10 ds : Int) else ofDigits 10 ds))
  | float {ds fraction : List Char} {power : Option Power} (negative : Bool) (whole : IsWhole ds)
      (point : IsDigits fraction) (proper : ∀ p, power = some p → p.IsProper) :
      Word (signText negative ++ (ds ++ '.' :: (fraction ++ powerText power)))
        (.float (Binary64.ofDecimal negative (ofDigits 10 (ds ++ fraction))
          (powerValue power - fraction.length)))

/-! ## Texts -/

def isMark (c : Char) : Bool := c == '[' || c == ']' || c == '{' || c == '}' || c == ',' || c == ':'

/-- If a colon follows, then on the same line, and the key that takes so many characters and the gap
are not too long. -/
def KeyFits (width : Nat) (cs : List Char) : Prop :=
  ∀ gap rest, cs = gap ++ ':' :: rest → IsGap gap →
    (∀ c ∈ gap, c = ' ') ∧ width + gap.length ≤ 1024

/-- Does something other than a word begin with the character? -/
def isDelimiter (c : Char) : Bool := isGap c || isMark c || c == '"'

/-- Nothing here would go on with a word. -/
def EndsWord (cs : List Char) : Prop := ∀ c, cs.head? = some c → isDelimiter c = true

/-- A text made of lexemes that both notations share. -/
inductive Portable : List Char → Prop
  | nil : Portable []
  | gap {c : Char} {cs : List Char} (h : isGap c = true) (rest : Portable cs) : Portable (c :: cs)
  | mark {c : Char} {cs : List Char} (h : isMark c = true) (rest : Portable cs) : Portable (c :: cs)
  | word {w cs : List Char} {v : Value} (h : Word w v) (ends : EndsWord cs) (rest : Portable cs) :
      Portable (w ++ cs)
  | text {body text cs : List Char} (h : Quoted body text) (key : KeyFits (body.length + 2) cs)
      (rest : Portable cs) : Portable ('"' :: (body ++ '"' :: cs))

/-! ## Reading lexemes as JSON -/

theorem escaped?_eq_some {c e : Char} (h : escaped? c = some e) :
    (c, e) ∈ [('"', '"'), ('\\', '\\'), ('/', '/'), ('b', '\x08'), ('f', '\x0c'), ('n', '\n'),
      ('r', '\r'), ('t', '\t')] := by
  unfold escaped? at h
  split at h <;> first | (obtain rfl := Option.some.inj h; decide) | exact nomatch h

theorem not_control_of_isRaw {c : Char} (h : isRaw c = true) : ¬ c.toNat < 0x20 := by
  intro hlt
  have hall : ∀ n < 0x20, isRaw (Char.ofNat n) = false := by decide
  have hc := hall c.toNat hlt
  rw [Char.ofNat_toNat, h] at hc
  exact nomatch hc

theorem readString_quoted {body text : List Char} (h : Quoted body text)
    (start rest : List Char) : ∀ done,
    readString start none done (body ++ '"' :: rest) = .ok (done.reverse ++ text, rest) := by
  induction h with
  | nil => intro done; simp [readString, settle]
  | @raw c body text h _ ih =>
      intro done
      have hc : c ≠ '"' ∧ c ≠ '\\' := by simp_all [isRaw]
      rw [List.cons_append, readString, if_neg (not_control_of_isRaw h)]
      · show readString start none (c :: done) _ = _
        rw [ih, List.reverse_cons, List.append_assoc, List.singleton_append]
      all_goals simp_all
  | @short c e body text h _ ih =>
      intro done
      have hstep : readString start none done ('\\' :: c :: (body ++ '"' :: rest)) =
          readString start none (e :: done) (body ++ '"' :: rest) := by
        have hmem := escaped?_eq_some h
        simp only [List.mem_cons, Prod.mk.injEq, List.not_mem_nil, or_false] at hmem
        rcases hmem with ⟨rfl, rfl⟩ | ⟨rfl, rfl⟩ | ⟨rfl, rfl⟩ | ⟨rfl, rfl⟩ | ⟨rfl, rfl⟩ |
          ⟨rfl, rfl⟩ | ⟨rfl, rfl⟩ | ⟨rfl, rfl⟩ <;> rfl
      rw [List.cons_append, List.cons_append, hstep, ih, List.reverse_cons, List.append_assoc,
        List.singleton_append]
  | @unicode a b c d n body text digits single _ ih =>
      intro done
      have hhigh : isHighSurrogate n = false := by simp [isHighSurrogate]; omega
      have hlow : isLowSurrogate n = false := by simp [isLowSurrogate]; omega
      have hempty : (body ++ '"' :: rest).isEmpty = false := by simp
      simp only [List.cons_append, readString, digits, hempty, hhigh, hlow, Bool.false_eq_true,
        if_false]
      rw [ih, List.reverse_cons, List.append_assoc, List.singleton_append]

section

variable {ds fraction rest : List Char} {power : Option Power}

theorem endsDigits_cons {c : Char} (h : isDigit c = false) (rest : List Char) :
    EndsDigits (c :: rest) := by
  intro d hd
  rwa [← Option.some.inj hd]

theorem endsDigits_powerText (proper : ∀ p, power = some p → p.IsProper)
    (hrest : EndsNumber rest) : EndsDigits (powerText power ++ rest) := by
  cases power with
  | none => exact fun c hc => (hrest c hc).1
  | some p =>
      refine endsDigits_cons ?_ _
      rcases (proper p rfl).mark with h | h <;> (rw [h]; decide)

theorem IsWhole.isProper (h : IsWhole ds) : Numeral.IsProper ⟨ds, [], none⟩ :=
  ⟨h.digits, h.leading, nofun, nofun⟩

theorem IsWhole.wholePart (h : IsWhole ds) (tail : List Char) (htail : EndsDigits tail) :
    wholePart (ds ++ tail) = ds :=
  Numeral.wholePart_append h.isProper htail

theorem IsWhole.exists_eq_cons (h : IsWhole ds) : ∃ c cs, ds = c :: cs ∧ isDigit c = true := by
  rcases h.leading with rfl | ⟨c, cs, rfl, -⟩
  · exact ⟨_, _, rfl, by decide⟩
  · exact ⟨c, cs, rfl, h.digits c List.mem_cons_self⟩

/-- What begins with a number is no word that begins with something else. -/
theorem IsWhole.append_ne (h : IsWhole ds) (tail : List Char) {w : List Char}
    (hw : w.head?.any isDigit = false) : ds ++ tail ≠ w := by
  obtain ⟨c, cs, rfl, hc⟩ := h.exists_eq_cons
  rintro rfl
  rw [List.cons_append, List.head?_cons, Option.any_some, hc] at hw
  exact nomatch hw

theorem exponentPart_powerText (proper : ∀ p, power = some p → p.IsProper)
    (hrest : EndsNumber rest) :
    exponentPart (powerText power ++ rest) = (powerValue power, (powerText power).length) := by
  cases power with
  | none =>
      cases rest with
      | nil => rfl
      | cons c rest =>
          have hc := hrest c rfl
          simp only [powerText, Option.map_none, Option.getD_none, List.nil_append, exponentPart,
            hc.2.2.1, hc.2.2.2, or_self, if_false]
          rfl
  | some p =>
      have hp := proper p rfl
      have htake := takeWhile_digits hp.digits.digits fun c hc => (hrest c hc).1
      have hwidth := Nat.add_comm 2 p.digits.length
      obtain ⟨mark, negative, digits⟩ := p
      cases negative <;> simp_all [powerText, powerValue, Power.text, Power.value, exponentPart,
        hp.mark, hp.digits.ne_nil]

theorem readNumber_float (negative : Bool) (whole : IsWhole ds) (point : IsDigits fraction)
    (proper : ∀ p, power = some p → p.IsProper) (hrest : EndsNumber rest) :
    readNumber (signText negative ++ (ds ++ '.' :: (fraction ++ (powerText power ++ rest)))) =
      .ok (.float (Binary64.ofDecimal negative (ofDigits 10 (ds ++ fraction))
        (powerValue power - fraction.length)), rest) := by
  have hwhole := whole.wholePart ('.' :: (fraction ++ (powerText power ++ rest)))
    (endsDigits_cons (by decide) _)
  have hfraction : fractionPart ('.' :: (fraction ++ (powerText power ++ rest))) = fraction :=
    takeWhile_digits point.digits (endsDigits_powerText proper hrest)
  have hexponent := exponentPart_powerText proper hrest
  have hne : ds ≠ [] := by
    obtain ⟨c, cs, rfl, -⟩ := whole.exists_eq_cons
    exact List.cons_ne_nil c cs
  have hdrop : ('.' :: (fraction ++ (powerText power ++ rest))).drop (fraction.length + 1) =
      powerText power ++ rest := by simp
  have hparts : ¬ (fraction = [] ∧ (powerText power).length = 0) := fun h => point.ne_nil h.1
  cases negative with
  | true =>
      simp only [signText, if_true, List.singleton_append, readNumber, hwhole, if_neg hne,
        List.drop_left, hfraction, if_neg point.ne_nil, hdrop, hexponent, if_neg hparts]
  | false =>
      simp only [signText, Bool.false_eq_true, if_false, List.nil_append]
      rw [readNumber]
      · simp only [hwhole, if_neg hne, List.drop_left, hfraction, if_neg point.ne_nil, hdrop,
          hexponent, if_neg hparts]
      · obtain ⟨c, cs, rfl, hc⟩ := whole.exists_eq_cons
        intro _ heq
        rw [(List.cons.inj heq).1] at hc
        revert hc
        decide

theorem readValue_number {negative : Bool} {c : Char} (hc : isDigit c = true) (steps : Nat)
    (cs : List Char) :
    readValue (steps + 1) (signText negative ++ c :: cs) =
      readNumber (signText negative ++ c :: cs) := by
  cases negative with
  | true => exact readValue_minus hc steps cs
  | false => exact readValue_digit hc steps cs

theorem readValue_word {w : List Char} {v : Value} (h : Word w v) (hrest : EndsNumber rest)
    (steps : Nat) : readValue (steps + 1) (w ++ rest) = .ok (v, rest) := by
  cases h with
  | null =>
      show readValue (steps + 1) ('n' :: 'u' :: 'l' :: 'l' :: rest) = _
      rw [readValue]
  | bool b =>
      cases b with
      | false =>
          show readValue (steps + 1) ('f' :: 'a' :: 'l' :: 's' :: 'e' :: rest) = _
          rw [readValue]
      | true =>
          show readValue (steps + 1) ('t' :: 'r' :: 'u' :: 'e' :: rest) = _
          rw [readValue]
  | int negative whole short =>
      have hread := Numeral.readNumber_text whole.isProper hrest negative
      simp only [Numeral.text, pointed, Numeral.exponentText, List.append_nil, and_self, if_true,
        if_neg (Nat.not_lt.mpr short)] at hread
      obtain ⟨c, cs, rfl, hc⟩ := whole.exists_eq_cons
      rw [List.append_assoc]
      exact (readValue_number hc steps _).trans hread
  | float negative whole point proper =>
      have hread := readNumber_float negative whole point proper hrest
      obtain ⟨c, cs, rfl, hc⟩ := whole.exists_eq_cons
      simp only [List.append_assoc, List.cons_append] at hread ⊢
      exact (readValue_number hc steps _).trans hread

end

end Conform.Json
