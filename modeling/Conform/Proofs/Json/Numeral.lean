import Conform.Json.Parser
import Conform.Proofs.Number.Shortest

/-!
# Numerals of JSON

A `Numeral` is the text of a number in its parts: digits before and behind the point, and an
exponent.  A proper one is read as the integer or the decimal that it stands for, whatever follows
it, if that does not go on with the number (`readNumber_text`).

Integers are written as proper numerals, and so are decimals, whichever of the forms is chosen for
them (`exists_numeral_write`).
-/

namespace Conform.Json

open Digits

/-- Nothing here would go on with a number. -/
def EndsNumber (rest : List Char) : Prop :=
  ∀ c, rest.head? = some c → isDigit c = false ∧ c ≠ '.' ∧ c ≠ 'e' ∧ c ≠ 'E'

theorem endsNumber_nil : EndsNumber [] := by simp [EndsNumber]

theorem endsNumber_cons {c : Char} (hd : isDigit c = false) (hp : c ≠ '.') (he : c ≠ 'e')
    (hE : c ≠ 'E') (rest : List Char) : EndsNumber (c :: rest) := by
  intro d hd'
  obtain rfl : c = d := Option.some.inj hd'
  exact ⟨hd, hp, he, hE⟩

/-- No digit stands at the front. -/
def EndsDigits (rest : List Char) : Prop := ∀ c, rest.head? = some c → isDigit c = false

theorem takeWhile_digits {ds rest : List Char} (hds : ∀ c ∈ ds, isDigit c = true)
    (hrest : EndsDigits rest) : (ds ++ rest).takeWhile isDigit = ds := by
  rw [List.takeWhile_append_of_pos hds]
  cases rest with
  | nil => simp
  | cons c rest => simp [hrest c rfl]

/-! ## The parts of a numeral -/

def signText (negative : Bool) : List Char := if negative then ['-'] else []

/-- Digits behind a point, or nothing. -/
def pointed : List Char → List Char
  | [] => []
  | ds => '.' :: ds

/-- The text of a number in its parts, without a sign. -/
structure Numeral where
  whole : List Char
  fraction : List Char
  /-- The sign and the digits of the exponent, if there is one. -/
  exponent : Option (Bool × List Char)

namespace Numeral

def exponentText : Option (Bool × List Char) → List Char
  | none => []
  | some (negative, ds) => 'e' :: (if negative then '-' else '+') :: ds

def text (n : Numeral) : List Char := n.whole ++ pointed n.fraction ++ exponentText n.exponent

def exponentValue : Option (Bool × List Char) → Int
  | none => 0
  | some (negative, ds) => if negative then -(ofDigits 10 ds : Int) else ofDigits 10 ds

def decimal (n : Numeral) : Decimal :=
  ⟨ofDigits 10 (n.whole ++ n.fraction), exponentValue n.exponent - n.fraction.length⟩

/-- Digits only, at least one before the point and in the exponent; a zero before the point stands
alone. -/
structure IsProper (n : Numeral) : Prop where
  whole : ∀ c ∈ n.whole, isDigit c = true
  leading : n.whole = ['0'] ∨ ∃ c cs, n.whole = c :: cs ∧ c ≠ '0'
  fraction : ∀ c ∈ n.fraction, isDigit c = true
  exponent : ∀ negative ds, n.exponent = some (negative, ds) →
    ds ≠ [] ∧ ∀ c ∈ ds, isDigit c = true

variable {n : Numeral} {rest : List Char}

/-! ## Reading a numeral -/

theorem endsDigits_exponentText (e : Option (Bool × List Char)) (hrest : EndsNumber rest) :
    EndsDigits (exponentText e ++ rest) := by
  cases e with
  | none => exact fun c hc => (hrest c hc).1
  | some e =>
      intro c hc
      obtain rfl : 'e' = c := Option.some.inj hc
      decide

theorem endsDigits_pointed (n : Numeral) (hrest : EndsNumber rest) :
    EndsDigits (pointed n.fraction ++ (exponentText n.exponent ++ rest)) := by
  cases n.fraction with
  | nil => exact endsDigits_exponentText n.exponent hrest
  | cons d ds =>
      intro c hc
      obtain rfl : '.' = c := Option.some.inj hc
      decide

theorem wholePart_append (h : n.IsProper) {tail : List Char} (htail : EndsDigits tail) :
    wholePart (n.whole ++ tail) = n.whole := by
  rcases h.leading with hw | ⟨c, cs, hw, hc⟩
  · rw [hw]
    rfl
  · have htake := takeWhile_digits h.whole htail
    rw [hw, List.cons_append] at htake ⊢
    rw [wholePart]
    · exact htake
    · intro _ heq
      exact hc (List.cons.inj heq).1

theorem fractionPart_append (h : n.IsProper) (hrest : EndsNumber rest) :
    fractionPart (pointed n.fraction ++ (exponentText n.exponent ++ rest)) = n.fraction := by
  have hstop := endsDigits_exponentText n.exponent hrest
  cases hf : n.fraction with
  | nil =>
      rw [pointed, List.nil_append]
      cases he : n.exponent with
      | none =>
          rw [exponentText, List.nil_append]
          cases rest with
          | nil => rfl
          | cons c rest =>
              rw [fractionPart]
              intro _ heq
              exact (hrest c rfl).2.1 (List.cons.inj heq).1
      | some e => rfl
  | cons d ds =>
      have htake := takeWhile_digits h.fraction hstop
      rw [hf] at htake
      rw [pointed, List.cons_append, fractionPart, htake]
      simp

theorem exponentPart_append (h : n.IsProper) (hrest : EndsNumber rest) :
    exponentPart (exponentText n.exponent ++ rest) =
      (exponentValue n.exponent, (exponentText n.exponent).length) := by
  cases he : n.exponent with
  | none =>
      rw [exponentText, List.nil_append]
      cases rest with
      | nil => rfl
      | cons c rest =>
          have hc := hrest c rfl
          simp only [exponentPart, hc.2.2.1, hc.2.2.2, or_self, if_false]
          rfl
  | some e =>
      obtain ⟨negative, ds⟩ := e
      obtain ⟨hne, hds⟩ := h.exponent negative ds he
      have htake := takeWhile_digits hds fun c hc => (hrest c hc).1
      have hwidth := Nat.add_comm 2 ds.length
      cases negative <;> simp [exponentText, exponentPart, exponentValue, htake, hne, hwidth]

theorem IsProper.exists_text_eq (h : n.IsProper) :
    ∃ c tail, n.text = c :: tail ∧ isDigit c = true := by
  obtain ⟨c, ds, hw⟩ : ∃ c ds, n.whole = c :: ds := by
    rcases h.leading with hw | ⟨c, ds, hw, -⟩
    · exact ⟨_, _, hw⟩
    · exact ⟨c, ds, hw⟩
  refine ⟨c, ds ++ pointed n.fraction ++ exponentText n.exponent, ?_, h.whole c (by simp [hw])⟩
  rw [text, hw, List.cons_append, List.cons_append]

theorem IsProper.text_append_ne (h : n.IsProper) (rest cs : List Char) :
    n.text ++ rest ≠ '-' :: cs := by
  intro heq
  obtain ⟨c, tail, hcons, hc⟩ := h.exists_text_eq
  rw [hcons, List.cons_append] at heq
  rw [(List.cons.inj heq).1] at hc
  revert hc
  decide

theorem drop_pointed (fraction tail : List Char) :
    (if fraction = [] then pointed fraction ++ tail
      else (pointed fraction ++ tail).drop (fraction.length + 1)) = tail := by
  cases fraction with
  | nil => rfl
  | cons d ds => simp [pointed]

/-- A proper numeral is an integer without point and exponent, and else the number nearest to its
decimal. -/
theorem readNumber_text (h : n.IsProper) (hrest : EndsNumber rest) (negative : Bool) :
    readNumber (signText negative ++ (n.text ++ rest)) =
      if n.fraction = [] ∧ n.exponent = none then
        if limit < n.whole.length then
          .error ⟨.numeral, signText negative ++ (n.text ++ rest)⟩
        else
          .ok (.int (if negative then -(ofDigits 10 n.whole : Int) else ofDigits 10 n.whole), rest)
      else .ok (.float (n.decimal.reading negative), rest) := by
  have htext : n.text ++ rest =
      n.whole ++ (pointed n.fraction ++ (exponentText n.exponent ++ rest)) := by
    rw [text, List.append_assoc, List.append_assoc]
  have hne : n.whole ≠ [] := by
    rcases h.leading with hw | ⟨c, cs, hw, -⟩ <;> simp [hw]
  have hunsigned := h.text_append_ne rest
  have hdrop := drop_pointed n.fraction (exponentText n.exponent ++ rest)
  have hwidth : (exponentText n.exponent).length = 0 ↔ n.exponent = none := by
    cases n.exponent <;> simp [exponentText]
  have hwhole := wholePart_append h (endsDigits_pointed n hrest)
  have hfraction := fractionPart_append h hrest
  have hexponent := exponentPart_append h hrest
  have hint : exponentText n.exponent ++ rest = rest ∨ ¬ (n.fraction = [] ∧ n.exponent = none) := by
    cases n.exponent with
    | none => exact Or.inl rfl
    | some e => exact Or.inr (by simp)
  rw [htext] at hunsigned ⊢
  cases negative with
  | true =>
      simp only [signText, if_true, List.singleton_append, readNumber, hwhole, if_neg hne,
        List.drop_left, hfraction, hdrop, hexponent, hwidth]
      split
      · rename_i hparts
        rw [hint.resolve_right (not_not_intro hparts)]
      · rfl
  | false =>
      simp only [signText, Bool.false_eq_true, if_false, List.nil_append]
      rw [readNumber]
      · simp only [hwhole, if_neg hne, List.drop_left, hfraction, hdrop, hexponent, hwidth]
        split
        · rename_i hparts
          rw [hint.resolve_right (not_not_intro hparts)]
          rfl
        · rfl
      · exact hunsigned

end Numeral

/-! ## Written numbers -/

/-- The digits of a number as a numeral. -/
def wholeNumeral (k : Nat) : Numeral := ⟨digits k, [], none⟩

theorem isProper_wholeNumeral (k : Nat) : (wholeNumeral k).IsProper where
  whole _ := isDigit_of_mem_digits
  leading := by
    rcases Nat.eq_zero_or_pos k with rfl | hk
    · exact Or.inl digits_zero
    · exact Or.inr (exists_digits_eq_cons hk)
  fraction := by simp [wholeNumeral]
  exponent := by simp [wholeNumeral]

theorem ofInt_eq (k : Int) :
    ofInt k = signText (decide (k < 0)) ++ (wholeNumeral k.natAbs).text := by
  cases k <;> simp [ofInt, signText, wholeNumeral, Numeral.text, pointed, Numeral.exponentText,
    Int.negSucc_lt_zero]

theorem readNumber_ofInt {k : Int} (hk : withinLimit k = true) {rest : List Char}
    (hrest : EndsNumber rest) : readNumber (ofInt k ++ rest) = .ok (.int k, rest) := by
  have hlen : ¬ limit < (digits k.natAbs).length :=
    Nat.not_lt.mpr (withinLimit_iff_length.mp hk)
  have hsign : (if decide (k < 0) = true then -(k.natAbs : Int) else k.natAbs) = k := by
    clear hk hlen
    simp only [decide_eq_true_eq]
    split <;> omega
  rw [ofInt_eq, List.append_assoc, Numeral.readNumber_text (isProper_wholeNumeral _) hrest]
  simp only [wholeNumeral, and_self, if_true, if_neg hlen, ofDigits_digits, hsign]

/-! ## Written decimals -/

/-- The numeral has a point or an exponent, and stands for the decimal but for zeros at the end. -/
structure Numeral.Expresses (n : Numeral) (d : Decimal) : Prop where
  proper : n.IsProper
  notInt : ¬ (n.fraction = [] ∧ n.exponent = none)
  value : ∃ k : Nat, n.decimal.digits = d.digits * 10 ^ k ∧ n.decimal.exponent = d.exponent - k

section

variable {d : Decimal}

/-- Zeros up to the point, and one behind it. -/
theorem expresses_zeros_behind (hd : 0 < d.digits) (he : 0 ≤ d.exponent) :
    Numeral.Expresses ⟨digits d.digits ++ List.replicate d.exponent.toNat '0', ['0'], none⟩ d where
  proper := by
    obtain ⟨c, cs, hds, hc⟩ := exists_digits_eq_cons hd
    refine ⟨?_, Or.inr ⟨c, cs ++ List.replicate d.exponent.toNat '0', ?_, hc⟩,
      List.forall_mem_singleton.mpr (by decide), by simp⟩
    · intro x hx
      rcases List.mem_append.mp hx with hx | hx
      · exact isDigit_of_mem_digits hx
      · rw [List.eq_of_mem_replicate hx]
        decide
    · rw [hds, List.cons_append]
  notInt := by simp
  value := by
    refine ⟨d.exponent.toNat + 1, ?_, ?_⟩
    · have hzeros := ofDigits_append_zeros 10 (digits d.digits) (d.exponent.toNat + 1)
      rw [List.replicate_succ', ← List.append_assoc, ofDigits_digits] at hzeros
      exact hzeros
    · simp only [Numeral.decimal, Numeral.exponentValue, List.length_singleton]
      omega

/-- A zero before the point, and more of them behind it. -/
theorem expresses_zeros_before {z : Nat}
    (hz : d.exponent = -(z + (digits d.digits).length : Nat)) :
    Numeral.Expresses ⟨['0'], List.replicate z '0' ++ digits d.digits, none⟩ d where
  proper := by
    refine ⟨List.forall_mem_singleton.mpr (by decide), Or.inl rfl, ?_, by simp⟩
    intro x hx
    rcases List.mem_append.mp hx with hx | hx
    · rw [List.eq_of_mem_replicate hx]
      decide
    · exact isDigit_of_mem_digits hx
  notInt := by simp [digits_ne_nil]
  value := by
    refine ⟨0, ?_, ?_⟩
    · have hzeros := ofDigits_zeros_append 10 (z + 1) (digits d.digits)
      rw [List.replicate_succ, List.cons_append, ofDigits_digits] at hzeros
      rw [Nat.pow_zero, Nat.mul_one]
      exact hzeros
    · simp only [Numeral.decimal, Numeral.exponentValue, List.length_append, List.length_replicate]
      omega

/-- The point among the digits. -/
theorem expresses_point_among (hd : 0 < d.digits) {p : Nat} (hp : 0 < p)
    (hlt : p < (digits d.digits).length) (he : d.exponent = -((digits d.digits).length - p : Nat)) :
    Numeral.Expresses ⟨(digits d.digits).take p, (digits d.digits).drop p, none⟩ d where
  proper := by
    obtain ⟨c, cs, hds, hc⟩ := exists_digits_eq_cons hd
    refine ⟨fun x hx => isDigit_of_mem_digits (List.mem_of_mem_take hx), Or.inr ?_,
      fun x hx => isDigit_of_mem_digits (List.mem_of_mem_drop hx), by simp⟩
    obtain ⟨q, rfl⟩ : ∃ q, p = q + 1 := ⟨p - 1, by omega⟩
    exact ⟨c, cs.take q, by rw [hds, List.take_succ_cons], hc⟩
  notInt := by
    rintro ⟨hnil, -⟩
    exact absurd (List.drop_eq_nil_iff.mp hnil) (Nat.not_le.mpr hlt)
  value := by
    refine ⟨0, ?_, ?_⟩
    · simp only [Numeral.decimal, List.take_append_drop, Nat.pow_zero, Nat.mul_one]
      exact ofDigits_digits d.digits
    · simp only [Numeral.decimal, Numeral.exponentValue, List.length_drop]
      omega

/-- One digit before the point, and an exponent. -/
theorem expresses_exponent (hd : 0 < d.digits) {lead : Int}
    (hlead : d.exponent + ((digits d.digits).length : Int) - 1 = lead) :
    Numeral.Expresses ⟨(digits d.digits).take 1, (digits d.digits).drop 1,
      some (decide (lead < 0), padded 2 lead.natAbs)⟩ d where
  proper := by
    obtain ⟨c, cs, hds, hc⟩ := exists_digits_eq_cons hd
    refine ⟨fun x hx => isDigit_of_mem_digits (List.mem_of_mem_take hx),
      Or.inr ⟨c, [], by simp [hds], hc⟩,
      fun x hx => isDigit_of_mem_digits (List.mem_of_mem_drop hx), ?_⟩
    intro negative es hes
    obtain ⟨-, rfl⟩ := Prod.mk.inj (Option.some.inj hes)
    exact ⟨padded_ne_nil _ _, fun _ => isDigit_of_mem_padded⟩
  notInt := by simp
  value := by
    have hne := digits_ne_nil d.digits
    refine ⟨0, ?_, ?_⟩
    · simp only [Numeral.decimal, List.take_append_drop, Nat.pow_zero, Nat.mul_one]
      exact ofDigits_digits d.digits
    · have hlen : 0 < (digits d.digits).length := List.length_pos_of_ne_nil hne
      simp only [Numeral.decimal, Numeral.exponentValue, ofDigits_padded, List.length_drop,
        decide_eq_true_eq]
      split <;> omega

theorem exists_numeral_write (hd : 0 < d.digits) :
    ∃ n : Numeral, n.Expresses d ∧ n.text = d.write := by
  have hlen : 0 < (digits d.digits).length := List.length_pos_of_ne_nil (digits_ne_nil _)
  rw [Decimal.write]
  dsimp only
  split
  · split
    · rename_i he
      exact ⟨_, expresses_zeros_behind hd he, by simp [Numeral.text, pointed, Numeral.exponentText]⟩
    · split
      · refine ⟨_, expresses_zeros_before
          (z := (-(d.exponent + (digits d.digits).length - 1) - 1).toNat) (by omega), ?_⟩
        obtain ⟨y, ys, hys⟩ := List.exists_cons_of_ne_nil
          (List.append_ne_nil_of_right_ne_nil (List.replicate
            (-(d.exponent + (digits d.digits).length - 1) - 1).toNat '0') (digits_ne_nil d.digits))
        simp only [Numeral.text, Numeral.exponentText, List.append_nil, List.append_assoc]
        rw [hys]
        rfl
      · have hlt : (d.exponent + (digits d.digits).length - 1 + 1).toNat <
            (digits d.digits).length := by omega
        refine ⟨_, expresses_point_among hd (by omega) hlt (by omega), ?_⟩
        obtain ⟨y, ys, hys⟩ := List.exists_cons_of_ne_nil (mt List.drop_eq_nil_iff.mp
          (Nat.not_le.mpr hlt))
        simp only [Numeral.text, Numeral.exponentText, List.append_nil]
        rw [hys]
        rfl
  · refine ⟨_, expresses_exponent hd rfl, ?_⟩
    simp only [Numeral.text, Numeral.exponentText, decide_eq_true_eq]
    cases (digits d.digits).drop 1 <;> rfl

end

/-- Zero in canonical form has the least exponent. -/
theorem zero_eq_finite {e : Int} (hc : CanonicalFloat 0 e) (negative : Bool) :
    Binary64.zero negative = .finite negative 0 e hc := by
  obtain rfl : e = -1074 := hc.2.2.2.resolve_left (by decide)
  rw [Binary64.zero, Binary64.pack, dif_pos hc]

theorem exists_numeral_finite (negative : Bool) {m : Nat} {e : Int} (hc : CanonicalFloat m e)
    (style : FloatStyle) : ∃ n : Numeral, n.IsProper ∧ ¬ (n.fraction = [] ∧ n.exponent = none) ∧
      (Binary64.finite negative m e hc).write style = signText negative ++ n.text ∧
      n.decimal.reading negative = .finite negative m e hc := by
  show ∃ n : Numeral, n.IsProper ∧ _ ∧ signText negative ++ _ = _ ∧ _
  by_cases hm : m = 0
  · subst hm
    have hzero : ∀ c ∈ ['0'], isDigit c = true := List.forall_mem_singleton.mpr (by decide)
    refine ⟨⟨['0'], ['0'], none⟩, ⟨hzero, Or.inl rfl, hzero, by simp⟩, by simp, rfl, ?_⟩
    rw [← zero_eq_finite hc]
    cases negative <;> rfl
  · have hpos := Nat.pos_of_ne_zero hm
    obtain ⟨n, hn, htext⟩ := exists_numeral_write (d := .shortest negative m e hc)
      (Decimal.digits_shortest_pos hpos hc)
    obtain ⟨k, hdigits, hexponent⟩ := hn.value
    refine ⟨n, hn.proper, hn.notInt, by rw [if_neg hm, htext], ?_⟩
    rw [Decimal.reading, hdigits, hexponent, Binary64.ofDecimal_mul_pow]
    exact Decimal.reading_shortest hpos hc

end Conform.Json
