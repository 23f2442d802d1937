import Conform.Proofs.Portable.Lexemes
import Conform.Proofs.Text.Pattern
import Conform.Proofs.Text.Run
import Conform.Yaml.Scalar

/-!
# Portable words as YAML

A plain scalar gets its tag from its looks, and is read under that tag.  A portable word looks like
what it is in JSON, and is read as the same value (`readScalar_word`).

Numbers are read by the rules for numbers written by hand, which allow much that a portable number
does not have: white space, digits of other scripts, underscores.  What is left of these rules for
its characters is in `readInt?_digits` and `readFloat?_decimal`.
-/

namespace Conform

open Digits Json

/-! ## Numbers written by hand -/

namespace Number

/-- A digit, or one of the marks of a decimal. -/
def isNumeric (c : Char) : Bool := isDigit c || c == '.' || c == 'e' || c == '+' || c == '-'

variable {c : Char} {cs ds fraction : List Char}

theorem lt_of_isNumeric (h : isNumeric c = true) : c.toNat < 0x80 := by
  simp only [isNumeric, isDigit, Bool.or_eq_true, Bool.and_eq_true, decide_eq_true_eq,
    beq_iff_eq] at h
  rcases h with (((⟨-, h⟩ | rfl) | rfl) | rfl) | rfl
  · have h9 : c.toNat ≤ '9'.toNat := h
    exact Nat.lt_of_le_of_lt h9 (by decide)
  all_goals decide

/-- The rules for other characters leave those of a number alone. -/
theorem numeric_plain (h : isNumeric c = true) :
    Text.isBlank c = false ∧ toAscii c = c ∧ c ≠ '_' ∧ c.toLower = c :=
  Text.forall_ascii (P := fun c => isNumeric c = true →
    Text.isBlank c = false ∧ toAscii c = c ∧ c ≠ '_' ∧ c.toLower = c) (by decide +kernel)
    (lt_of_isNumeric h) h

theorem isNumeric_of_isDigit (h : isDigit c = true) : isNumeric c = true := by
  simp [isNumeric, h]

theorem strip_numeric (h : ∀ c ∈ cs, isNumeric c = true) : Text.strip cs = cs := by
  have hfront {xs : List Char} (hx : ∀ c ∈ xs, isNumeric c = true) :
      xs.dropWhile Text.isBlank = xs :=
    (Text.stops_of_forall fun c hc => (numeric_plain (hx c hc)).1).dropWhile_eq_self
  rw [Text.strip, hfront h, hfront fun c hc => h c (List.mem_reverse.mp hc), List.reverse_reverse]

theorem map_eq_self {f : Char → Char} (h : ∀ c ∈ cs, f c = c) : cs.map f = cs :=
  (List.map_congr_left h).trans (List.map_id cs)

theorem map_toAscii_numeric (h : ∀ c ∈ cs, isNumeric c = true) : cs.map toAscii = cs :=
  map_eq_self fun c hc => (numeric_plain (h c hc)).2.1

theorem dropUnderscores?_eq_some {isDigit : Char → Bool} : ∀ {cs : List Char},
    (∀ c ∈ cs, c ≠ '_') → dropUnderscores? isDigit cs = some cs
  | [], _ => by rw [dropUnderscores?]
  | c :: cs, h => by
      obtain ⟨hc, hcs⟩ := List.forall_mem_cons.mp h
      rw [dropUnderscores?, if_neg hc, dropUnderscores?_eq_some hcs, Option.map_some]
      rintro b rest rfl
      exact hcs '_' List.mem_cons_self rfl

theorem splitSign_digit (h : isDigit c = true) (cs : List Char) :
    splitSign (c :: cs) = (false, c :: cs) := by
  rw [splitSign] <;> (rintro rest heq; rw [(List.cons.inj heq).1] at h; revert h; decide)

theorem splitSign_signText (negative : Bool) (h : isDigit c = true) (cs : List Char) :
    splitSign (signText negative ++ c :: cs) = (negative, c :: cs) := by
  cases negative with
  | true => rfl
  | false => exact splitSign_digit h cs

theorem ofDigits?_eq_some (h : IsDigits ds) : ofDigits? 10 ds = some (ofDigits 10 ds) := by
  unfold ofDigits?
  refine if_pos ⟨h.ne_nil, List.all_eq_true.mpr fun c hc => ?_⟩
  have hdigit := h.digits c hc
  have hlt := digitValue_lt_of_isDigit hdigit
  rw [isDigit, Bool.and_eq_true, decide_eq_true_iff, decide_eq_true_iff] at hdigit
  rw [digitValue?, if_pos hdigit] at hlt ⊢
  exact decide_eq_true hlt

theorem IsWhole.isDigits (h : IsWhole ds) : IsDigits ds := by
  obtain ⟨c, cs, rfl, -⟩ := h.exists_eq_cons
  exact ⟨h.digits, List.cons_ne_nil c cs⟩

theorem readInt?_digits (h : IsWhole ds) (short : ds.length ≤ limit) :
    readInt? 10 ds = some (ofDigits 10 ds : Int) := by
  have hnumeric : ∀ c ∈ ds, isNumeric c = true := fun c hc => isNumeric_of_isDigit (h.digits c hc)
  have hsign : splitSign ds = (false, ds) := by
    obtain ⟨c, cs, rfl, hc⟩ := h.exists_eq_cons
    exact splitSign_digit hc cs
  have hunderscores (isDigit : Char → Bool) : dropUnderscores? isDigit ds = some ds :=
    dropUnderscores?_eq_some fun c hc => (numeric_plain (hnumeric c hc)).2.2.1
  simp [readInt?, strip_numeric hnumeric, map_toAscii_numeric hnumeric, hsign, dropBaseMark,
    hunderscores, ofDigits?_eq_some (IsWhole.isDigits h), Nat.not_lt.mpr short]

theorem readExponent?_powerText {power : Option Power}
    (proper : ∀ p, power = some p → p.IsProper) :
    readExponent? (powerText power) = some (powerValue power) := by
  cases power with
  | none => rfl
  | some p =>
      have hp := proper p rfl
      have hdigits := ofDigits?_eq_some hp.digits
      obtain ⟨mark, negative, digits⟩ := p
      cases negative <;> simp_all [powerText, powerValue, Power.text, Power.value, readExponent?,
        splitSign, hp.mark]

theorem isNumeric_decimal {power : Option Power} (whole : IsWhole ds) (point : IsDigits fraction)
    (proper : ∀ p, power = some p → p.IsProper ∧ p.mark = 'e') :
    ∀ c ∈ ds ++ '.' :: (fraction ++ powerText power), isNumeric c = true := by
  intro c hc
  rcases List.mem_append.mp hc with hc | hc
  · exact isNumeric_of_isDigit (whole.digits c hc)
  rcases List.mem_cons.mp hc with rfl | hc
  · decide
  rcases List.mem_append.mp hc with hc | hc
  · exact isNumeric_of_isDigit (point.digits c hc)
  cases power with
  | none => exact nomatch hc
  | some p =>
      obtain ⟨hp, he⟩ := proper p rfl
      simp only [powerText, Option.map_some, Option.getD_some, Power.text, List.mem_cons] at hc
      rcases hc with rfl | rfl | hc
      · rw [he]
        decide
      · split <;> decide
      · exact isNumeric_of_isDigit (hp.digits.digits c hc)

theorem readFloat?_decimal {power : Option Power} (whole : IsWhole ds) (point : IsDigits fraction)
    (proper : ∀ p, power = some p → p.IsProper ∧ p.mark = 'e') :
    readFloat? (ds ++ '.' :: (fraction ++ powerText power)) =
      some (Binary64.ofDecimal false (ofDigits 10 (ds ++ fraction))
        (powerValue power - fraction.length)) := by
  have hnumeric := isNumeric_decimal whole point proper
  have hunderscores : dropUnderscores? isDigit (ds ++ '.' :: (fraction ++ powerText power)) =
      some (ds ++ '.' :: (fraction ++ powerText power)) :=
    dropUnderscores?_eq_some fun c hc => (numeric_plain (hnumeric c hc)).2.2.1
  have hlower := map_eq_self fun c hc => (numeric_plain (hnumeric c hc)).2.2.2
  have hstop : EndsDigits (powerText power) := by
    have h := endsDigits_powerText (fun p hp => (proper p hp).1) endsNumber_nil
    rwa [List.append_nil] at h
  have hdigits : IsDigits (ds ++ fraction) :=
    ⟨List.forall_mem_append.mpr ⟨whole.digits, point.digits⟩, by simp [point.ne_nil]⟩
  have hdecimal : readDecimal? false (ds ++ '.' :: (fraction ++ powerText power)) =
      some (Binary64.ofDecimal false (ofDigits 10 (ds ++ fraction))
        (powerValue power - fraction.length)) := by
    have hpoint : EndsDigits ('.' :: (fraction ++ powerText power)) :=
      endsDigits_cons (by decide) _
    simp [readDecimal?, Text.takeWhile_run whole.digits hpoint,
      Text.dropWhile_run whole.digits hpoint, Text.takeWhile_run point.digits hstop,
      Text.dropWhile_run point.digits hstop, ofDigits?_eq_some hdigits,
      readExponent?_powerText fun p hp => (proper p hp).1]
  have hword (w : String) (hw : w.toList.head?.any isDigit = false) :
      String.ofList ((ds ++ '.' :: (fraction ++ powerText power)).map Char.toLower) ≠ w := by
    rw [hlower]
    rintro rfl
    rw [String.toList_ofList] at hw
    exact whole.append_ne _ hw rfl
  obtain ⟨c, cs, rfl, hc⟩ := whole.exists_eq_cons
  have hsign : splitSign (c :: cs ++ '.' :: (fraction ++ powerText power)) = (false, _) :=
    splitSign_digit hc _
  rw [readFloat?, strip_numeric hnumeric, map_toAscii_numeric hnumeric, hunderscores]
  simp only [Option.bind_eq_bind, Option.bind_some, hsign]
  split
  · rename_i heq
    exact absurd heq (hword "inf" (by decide))
  · rename_i heq
    exact absurd heq (hword "infinity" (by decide))
  · rename_i heq
    exact absurd heq (hword "nan" (by decide))
  · exact hdecimal

end Number

/-! ## Words by their looks -/

namespace Yaml.Tag

open Pattern Number

variable {ds fraction text : List Char}

/-- The first looks that a text has give it its tag. -/
theorem ofPlain_eq (before : List (Pattern × Tag)) {after : List (Pattern × Tag)} {p : Pattern}
    {tag : Tag} (hlooks : looks = before ++ (p, tag) :: after) (hne : text ≠ [])
    (hbefore : ∀ l ∈ before, ∃ D : Char → Prop, l.1.Misses D ∧ ∀ c ∈ text, D c)
    (h : p.Matches text) : ofPlain text = tag := by
  have hfits : (Pattern.seq p (.opt (mark '\n'))).fits text = true := by
    rw [fits_iff_matches, ← List.append_nil text]
    exact .seq h (.right _ .empty)
  have hnone : before.find? (fun l => (Pattern.seq l.1 (.opt (mark '\n'))).fits text) = none := by
    refine List.find?_eq_none.mpr fun l hl => ?_
    obtain ⟨D, hmisses, htext⟩ := hbefore l hl
    have hseq : (Pattern.seq l.1 (.opt (mark '\n'))).Misses D := Or.inl hmisses
    rw [hseq.fits_eq_false htext]
    exact Bool.false_ne_true
  rw [ofPlain, if_neg (by simpa using hne), hlooks, List.find?_append, hnone, Option.none_or,
    List.find?_cons, hfits]

theorem misses_boolLooks : boolLooks.Misses fun c => isNumeric c = true ∨ c = 'E' := by
  simp [boolLooks, Pattern.words, Pattern.any, Pattern.text, Pattern.all, Misses, isNumeric,
    isDigit]

theorem misses_floatLooks : floatLooks.Misses fun c => isDigit c = true ∨ c = '-' := by
  simp [floatLooks, Pattern.words, Pattern.any, Pattern.text, Pattern.all, Misses, mark, isDigit]

theorem matches_sign (negative : Bool) : sign.Matches (signText negative) := by
  cases negative with
  | true => exact .left _ (.one (by decide))
  | false => exact .right _ .empty

theorem matches_digit {c : Char} (h : isDigit c = true) : digit.Matches [c] := .one h

theorem matches_digitsOrGaps (h : ∀ c ∈ ds, isDigit c = true) :
    (Pattern.star digitOrGap).Matches ds :=
  matches_star_one.mpr fun c hc => by simp [h c hc]

theorem matches_intLooks (negative : Bool) (h : IsWhole ds) :
    intLooks.Matches (signText negative ++ ds) := by
  have hzero : (Pattern.all [sign, mark '0']).Matches (signText negative ++ ['0']) :=
    .seq (matches_sign negative) (.seq (.one (by decide)) .empty)
  rcases h.leading with rfl | ⟨c, cs, rfl, hc⟩
  · exact .right _ (.right _ (.left _ hzero))
  · obtain ⟨hdigit, hdigits⟩ := List.forall_mem_cons.mp h.digits
    have hleading : ('1' ≤ c && c ≤ '9') = true := by
      rw [isDigit, Bool.and_eq_true, decide_eq_true_iff, decide_eq_true_iff] at hdigit
      rw [Bool.and_eq_true, decide_eq_true_iff, decide_eq_true_iff]
      refine ⟨?_, hdigit.2⟩
      have h0 : '0'.toNat ≤ c.toNat := hdigit.1
      have hne : c.toNat ≠ '0'.toNat := fun h => hc (Char.toNat_inj.mp h)
      show '1'.toNat ≤ c.toNat
      have : '0'.toNat = 48 ∧ '1'.toNat = 49 := by decide
      omega
    have hall : (Pattern.all [sign, leadingDigit, .star digitOrGap]).Matches
        (signText negative ++ c :: cs) := by
      refine .seq (matches_sign negative) (.seq (.one hleading) ?_)
      rw [← List.append_nil cs]
      exact .seq (matches_digitsOrGaps hdigits) .empty
    exact .right _ (.right _ (.right _ (.left _ hall)))

theorem matches_powerText {power : Option Power} (proper : ∀ p, power = some p → p.IsProper) :
    (Pattern.opt exponent).Matches (powerText power) := by
  cases power with
  | none => exact .right _ .empty
  | some p =>
      have hp := proper p rfl
      refine .left _ (.seq (.one ?_) (.seq (.one ?_) ?_))
      · rcases hp.mark with h | h <;> (rw [h]; decide)
      · split <;> decide
      · rw [← List.append_nil p.digits]
        exact .seq (matches_plus_one.mpr ⟨hp.digits.ne_nil, hp.digits.digits⟩) .empty

theorem matches_floatLooks {power : Option Power} (negative : Bool) (whole : IsWhole ds)
    (point : IsDigits fraction) (proper : ∀ p, power = some p → p.IsProper) :
    floatLooks.Matches (signText negative ++ (ds ++ '.' :: (fraction ++ powerText power))) := by
  obtain ⟨c, cs, rfl, -⟩ := whole.exists_eq_cons
  obtain ⟨hdigit, hdigits⟩ := List.forall_mem_cons.mp whole.digits
  have htext : signText negative ++ (c :: cs ++ '.' :: (fraction ++ powerText power)) =
      signText negative ++ ([c] ++ (cs ++ (['.'] ++ (fraction ++ (powerText power ++ []))))) := by
    simp
  rw [htext]
  exact .left _ (.seq (matches_sign negative) (.seq (matches_digit hdigit)
    (.seq (matches_digitsOrGaps hdigits) (.seq (.one (by decide))
      (.seq (matches_digitsOrGaps point.digits) (.seq (matches_powerText proper) .empty))))))

theorem signText_append_ne_nil (negative : Bool) {cs : List Char} (h : cs ≠ []) :
    signText negative ++ cs ≠ [] := by
  simp [h]

theorem forall_mem_signText (negative : Bool) {P : Char → Prop} (h : P '-') :
    ∀ c ∈ signText negative, P c := by
  cases negative with
  | true => exact List.forall_mem_singleton.mpr h
  | false => exact List.forall_mem_nil _

theorem ofPlain_int (negative : Bool) (h : IsWhole ds) :
    ofPlain (signText negative ++ ds) = .int := by
  have hdigits : ∀ c ∈ signText negative ++ ds, isDigit c = true ∨ c = '-' :=
    List.forall_mem_append.mpr
      ⟨forall_mem_signText negative (.inr rfl), fun c hc => .inl (h.digits c hc)⟩
  have hnumeric : ∀ c ∈ signText negative ++ ds, isNumeric c = true ∨ c = 'E' := fun c hc =>
    .inl ((hdigits c hc).elim isNumeric_of_isDigit (by rintro rfl; decide))
  refine ofPlain_eq [(boolLooks, .bool), (floatLooks, .float)] rfl
    (signText_append_ne_nil negative (IsWhole.isDigits h).ne_nil) ?_ (matches_intLooks negative h)
  exact List.forall_mem_cons.mpr ⟨⟨_, misses_boolLooks, hnumeric⟩,
    List.forall_mem_singleton.mpr ⟨_, misses_floatLooks, hdigits⟩⟩

theorem isNumeric_or_of_mem {power : Option Power} (negative : Bool) (whole : IsWhole ds)
    (point : IsDigits fraction) (proper : ∀ p, power = some p → p.IsProper) :
    ∀ c ∈ signText negative ++ (ds ++ '.' :: (fraction ++ powerText power)),
      isNumeric c = true ∨ c = 'E' := by
  refine List.forall_mem_append.mpr ⟨forall_mem_signText negative (.inl (by decide)), ?_⟩
  refine List.forall_mem_append.mpr
    ⟨fun c hc => .inl (isNumeric_of_isDigit (whole.digits c hc)), ?_⟩
  refine List.forall_mem_cons.mpr ⟨.inl (by decide), ?_⟩
  refine List.forall_mem_append.mpr
    ⟨fun c hc => .inl (isNumeric_of_isDigit (point.digits c hc)), ?_⟩
  cases power with
  | none => exact List.forall_mem_nil _
  | some p =>
      have hp := proper p rfl
      refine List.forall_mem_cons.mpr ⟨?_, List.forall_mem_cons.mpr ⟨.inl ?_, fun c hc =>
        .inl (isNumeric_of_isDigit (hp.digits.digits c hc))⟩⟩
      · rcases hp.mark with h | h
        · exact .inl (by rw [h]; decide)
        · exact .inr h
      · split <;> decide

theorem ofPlain_float {power : Option Power} (negative : Bool) (whole : IsWhole ds)
    (point : IsDigits fraction) (proper : ∀ p, power = some p → p.IsProper) :
    ofPlain (signText negative ++ (ds ++ '.' :: (fraction ++ powerText power))) = .float := by
  refine ofPlain_eq [(boolLooks, .bool)] rfl
    (signText_append_ne_nil negative (by simp)) ?_ (matches_floatLooks negative whole point proper)
  exact List.forall_mem_singleton.mpr
    ⟨_, misses_boolLooks, isNumeric_or_of_mem negative whole point proper⟩

theorem ofPlain_null : ofPlain "null".toList = .null := by decide +kernel

theorem ofPlain_bool : ∀ b : Bool, ofPlain (if b then "true" else "false").toList = .bool := by
  decide +kernel

/-! ## Words as values -/

theorem filter_underscores (h : ∀ c ∈ text, c ≠ '_') : text.filter (· != '_') = text :=
  List.filter_eq_self.mpr fun c hc => by simp [h c hc]

theorem readInt_signText (negative : Bool) (h : IsWhole ds) (short : ds.length ≤ limit) :
    readInt (signText negative ++ ds) =
      .ok (.int (if negative then -(ofDigits 10 ds : Int) else ofDigits 10 ds)) := by
  have hplain : ∀ c ∈ signText negative ++ ds, c ≠ '_' :=
    List.forall_mem_append.mpr ⟨forall_mem_signText negative (by decide),
      fun c hc => (numeric_plain (isNumeric_of_isDigit (h.digits c hc))).2.2.1⟩
  have hempty : (signText negative ++ ds).isEmpty = false := by
    simpa using fun _ => (IsWhole.isDigits h).ne_nil
  have hsign : splitSign (signText negative ++ ds) = (negative, ds) := by
    obtain ⟨c, cs, rfl, hc⟩ := h.exists_eq_cons
    exact splitSign_signText negative hc cs
  have hcolon : ds.contains ':' = false := by
    rw [Bool.eq_false_iff]
    intro hmem
    have hdigit := h.digits ':' (List.contains_iff_mem.mp hmem)
    revert hdigit
    decide
  have hdigits := readInt?_digits h short
  simp only [readInt, filter_underscores hplain, hempty, Bool.false_eq_true, if_false, hsign]
  rcases h.leading with rfl | ⟨c, cs, rfl, hc⟩
  · cases negative <;> rfl
  · -- The first digit is no zero, so the number is in base ten.
    split <;> simp_all [readDigits]

theorem negate_ofDecimal (digits : Nat) (e : Int) :
    (Binary64.ofDecimal false digits e).negate = Binary64.ofDecimal true digits e := by
  have hpack (m : Nat) (k : Int) : (Binary64.pack false m k).negate = Binary64.pack true m k := by
    unfold Binary64.pack
    split <;> rfl
  have hratio (a b : Nat) : (Binary64.ofRatio false a b).negate = Binary64.ofRatio true a b := by
    unfold Binary64.ofRatio
    split
    · exact hpack _ _
    · dsimp only
      split <;> exact hpack _ _
  unfold Binary64.ofDecimal
  split
  · exact hpack _ _
  · dsimp only
    split
    · rfl
    · split
      · exact hpack _ _
      · exact hratio _ _

theorem map_toLower_digits (h : ∀ c ∈ ds, isDigit c = true) : ds.map Char.toLower = ds :=
  map_eq_self fun c hc => (numeric_plain (isNumeric_of_isDigit (h c hc))).2.2.2

/-- A number is put into lower case by its exponent alone. -/
theorem map_toLower_powerText {power : Option Power}
    (proper : ∀ p, power = some p → p.IsProper) : ∃ low : Option Power,
      (powerText power).map Char.toLower = powerText low ∧ powerValue low = powerValue power ∧
        ∀ p, low = some p → p.IsProper ∧ p.mark = 'e' := by
  cases power with
  | none => exact ⟨none, rfl, rfl, nofun⟩
  | some p =>
      have hp := proper p rfl
      refine ⟨some { p with mark := 'e' }, ?_, rfl, ?_⟩
      · have hmark : p.mark.toLower = 'e' := by rcases hp.mark with h | h <;> (rw [h]; decide)
        have hsign : (if p.negative then '-' else '+').toLower =
            if p.negative then '-' else '+' := by split <;> decide
        simp only [powerText, Power.text, Option.map_some, Option.getD_some, List.map_cons, hmark,
          hsign, map_toLower_digits hp.digits.digits]
      · intro q hq
        obtain rfl := Option.some.inj hq
        exact ⟨⟨.inl rfl, hp.digits⟩, rfl⟩

theorem readFloat_signText {power : Option Power} (negative : Bool) (whole : IsWhole ds)
    (point : IsDigits fraction) (proper : ∀ p, power = some p → p.IsProper) :
    readFloat (signText negative ++ (ds ++ '.' :: (fraction ++ powerText power))) =
      .ok (.float (Binary64.ofDecimal negative (ofDigits 10 (ds ++ fraction))
        (powerValue power - fraction.length))) := by
  have hplain := filter_underscores fun c hc => show c ≠ '_' by
    rcases isNumeric_or_of_mem negative whole point proper c hc with h | rfl
    · exact (numeric_plain h).2.2.1
    · decide
  obtain ⟨low, hlow, hvalue, hproper⟩ := map_toLower_powerText proper
  have hlower : (signText negative ++ (ds ++ '.' :: (fraction ++ powerText power))).map
      Char.toLower = signText negative ++ (ds ++ '.' :: (fraction ++ powerText low)) := by
    have hsign : (signText negative).map Char.toLower = signText negative := by
      cases negative <;> rfl
    have hpoint : '.'.toLower = '.' := by decide
    simp only [List.map_append, List.map_cons, hsign, map_toLower_digits whole.digits,
      map_toLower_digits point.digits, hlow, hpoint]
  have hread := readFloat?_decimal whole point hproper
  have hnumeric := isNumeric_decimal whole point hproper
  have hcolon : (ds ++ '.' :: (fraction ++ powerText low)).contains ':' = false := by
    rw [Bool.eq_false_iff]
    intro hmem
    have h := hnumeric ':' (List.contains_iff_mem.mp hmem)
    revert h
    decide
  have hsign : splitSign (signText negative ++ (ds ++ '.' :: (fraction ++ powerText low))) =
      (negative, ds ++ '.' :: (fraction ++ powerText low)) := by
    obtain ⟨c, cs, rfl, hc⟩ := whole.exists_eq_cons
    exact splitSign_signText negative hc _
  have hword (w : List Char) (hw : w.head?.any isDigit = false) :
      (ds ++ '.' :: (fraction ++ powerText low) == w) = false :=
    beq_eq_false_iff_ne.mpr (whole.append_ne _ hw)
  have hempty :
      (signText negative ++ (ds ++ '.' :: (fraction ++ powerText low))).isEmpty = false := by
    simp
  simp only [readFloat, hplain, hlower, hempty, hsign, hword ".inf".toList (by decide),
    hword ".nan".toList (by decide), hcolon, readDecimal, hread, Bool.false_eq_true, if_false,
    hvalue]
  cases negative with
  | true => exact congrArg (fun x => Except.ok (Value.float x)) (negate_ofDecimal _ _)
  | false => rfl

/-- A portable word is read as the value that it has in JSON. -/
theorem readScalar_word {w : List Char} {v : Value} (h : Word w v) :
    (ofPlain w).readScalar w = .ok v := by
  cases h with
  | null =>
      rw [ofPlain_null]
      rfl
  | bool b =>
      rw [ofPlain_bool]
      cases b <;> rfl
  | int negative whole short =>
      rw [ofPlain_int negative whole]
      exact readInt_signText negative whole short
  | float negative whole point proper =>
      rw [ofPlain_float negative whole point proper]
      exact readFloat_signText negative whole point proper

end Yaml.Tag

end Conform
