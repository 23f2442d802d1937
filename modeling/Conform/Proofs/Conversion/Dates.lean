import Conform.Proofs.Calendar.Iso
import Conform.Proofs.Conversion.Final
import Conform.Proofs.Text.Pattern

/-!
# Points in time, converted there and back

Against `Shape.date` a conversion only asks which point in time a value stands for (`run_date`).
A point in time is written with a text that stands for it again: the written form reads back, and it
is never taken for a number, since its year is followed by a hyphen (`fits_numericText_iso`).

So a point in time comes back from its text, a day is the same as its text, and encoding and
decoding a text more than once changes nothing after the first time (`run_date_normalises`).
-/

namespace Conform.Conversion

open Digits Pattern

variable {table : Table} {d : Direction}

/-! ## Texts that read as a number -/

/-- White space, a sign, digits with points, an exponent and white space again. -/
theorem exists_parts_of_matches_numericText {cs : List Char} (h : numericText.Matches cs) :
    ∃ before sign number exponent behind,
      cs = before ++ (sign ++ (number ++ (exponent ++ behind))) ∧
      (∀ c ∈ before, Text.isBlank c = true) ∧ (∀ c ∈ sign, c = '-' ∨ c = '+') ∧
      (∀ c ∈ number, Text.isDecimal c = true ∨ c = '.') ∧
      (∀ c, exponent.head? = some c → c = 'e' ∨ c = 'E') ∧
      ∀ c ∈ behind, Text.isBlank c = true := by
  have hsign {xs : List Char} (h : optionalSign.Matches xs) : ∀ c ∈ xs, c = '-' ∨ c = '+' := by
    rcases matches_opt.mp h with h | rfl
    · obtain ⟨c, rfl, hc⟩ := matches_one.mp h
      simpa using hc
    · exact List.forall_mem_nil _
  have hpoint {xs : List Char} (h : point.Matches xs) : ∀ c ∈ xs, c = '.' := by
    obtain ⟨c, rfl, hc⟩ := matches_one.mp h
    simpa using hc
  obtain ⟨before, cs, rfl, hbefore, h⟩ := matches_all_cons.mp h
  obtain ⟨sign, cs, rfl, hs, h⟩ := matches_all_cons.mp h
  obtain ⟨number, cs, rfl, hnumber, h⟩ := matches_all_cons.mp h
  obtain ⟨exponent, cs, rfl, hexponent, h⟩ := matches_all_cons.mp h
  obtain ⟨behind, cs, rfl, hbehind, h⟩ := matches_all_cons.mp h
  obtain rfl := matches_empty.mp h
  rw [List.append_nil]
  refine ⟨before, sign, number, exponent, behind, rfl, matches_star_one.mp hbefore, hsign hs, ?_,
    ?_, matches_star_one.mp hbehind⟩
  · rcases matches_alt.mp hnumber with h | h
    · obtain ⟨whole, xs, rfl, hwhole, h⟩ := matches_all_cons.mp h
      obtain ⟨mark, xs, rfl, hmark, h⟩ := matches_all_cons.mp h
      obtain ⟨fraction, xs, rfl, hfraction, h⟩ := matches_all_cons.mp h
      obtain rfl := matches_empty.mp h
      intro c hc
      simp only [List.append_nil, List.mem_append] at hc
      rcases hc with hc | hc | hc
      · exact .inl ((matches_plus_one.mp hwhole).2 c hc)
      · rcases matches_opt.mp hmark with h | rfl
        · exact .inr (hpoint h c hc)
        · exact nomatch hc
      · exact .inl (matches_star_one.mp hfraction c hc)
    · obtain ⟨mark, fraction, rfl, hmark, hfraction⟩ := matches_seq.mp h
      intro c hc
      rcases List.mem_append.mp hc with hc | hc
      · exact .inr (hpoint hmark c hc)
      · exact .inl ((matches_plus_one.mp hfraction).2 c hc)
  · rcases matches_opt.mp hexponent with h | rfl
    · obtain ⟨letter, xs, rfl, hletter, -⟩ := matches_all_cons.mp h
      obtain ⟨c, rfl, hc⟩ := matches_one.mp hletter
      intro x hx
      obtain rfl : c = x := Option.some.inj hx
      simpa using hc
    · exact nofun

theorem isDecimal_of_isDigit {c : Char} (h : isDigit c = true) : Text.isDecimal c = true := by
  rw [isDigit, Bool.and_eq_true, decide_eq_true_iff, decide_eq_true_iff] at h
  have h0 : '0'.toNat ≤ c.toNat := h.1
  have h9 : c.toNat ≤ '9'.toNat := h.2
  have hrange : (decide (0x30 ≤ c.toNat) && decide (c.toNat ≤ 0x30 + 9)) = true := by
    rw [Bool.and_eq_true, decide_eq_true_iff, decide_eq_true_iff]
    exact ⟨h0, h9⟩
  rw [Text.isDecimal, Text.decimalValue?, Option.isSome_map, List.find?_isSome]
  exact ⟨0x30, .head _, hrange⟩

theorem isBlank_eq_false_of_isDigit {c : Char} (h : isDigit c = true) : Text.isBlank c = false := by
  rw [isDigit, Bool.and_eq_true, decide_eq_true_iff, decide_eq_true_iff] at h
  have h0 : '0'.toNat ≤ c.toNat := h.1
  have h9 : c.toNat ≤ '9'.toNat := h.2
  have : '0'.toNat = 48 ∧ '9'.toNat = 57 := by decide
  simp [Text.isBlank, Text.blanks, CharSet.contains]
  omega

/-- A hyphen behind the digits that a text begins with is in the way of a number. -/
theorem fits_numericText_hyphen {ds : List Char} (hne : ds ≠ [])
    (hds : ∀ c ∈ ds, isDigit c = true) (rest : List Char) :
    numericText.fits (ds ++ '-' :: rest) = false := by
  rw [Bool.eq_false_iff]
  intro hfits
  obtain ⟨before, sign, number, exponent, behind, heq, hbefore, hsign, hnumber, hexponent,
    hbehind⟩ := exists_parts_of_matches_numericText (fits_iff_matches.mp hfits)
  obtain ⟨c, ds, rfl⟩ := List.exists_cons_of_ne_nil hne
  have hc : isDigit c = true := hds c List.mem_cons_self
  -- Nothing stands in front of the first digit.
  obtain rfl : before = [] := by
    cases before with
    | nil => rfl
    | cons b before =>
        obtain rfl : c = b := (List.cons.inj heq).1
        have hblank := hbefore c List.mem_cons_self
        rw [isBlank_eq_false_of_isDigit hc] at hblank
        exact nomatch hblank
  obtain rfl : sign = [] := by
    cases sign with
    | nil => rfl
    | cons s sign =>
        obtain rfl : c = s := (List.cons.inj heq).1
        rcases hsign c List.mem_cons_self with rfl | rfl <;> exact absurd hc (by decide)
  -- What follows the digits and points begins with the hyphen.
  let inNumber : Char → Bool := fun c => Text.isDecimal c || c == '.'
  have hfirst : (c :: ds ++ '-' :: rest).dropWhile inNumber = '-' :: rest := by
    rw [List.dropWhile_append_of_pos fun x hx => by
      simp [inNumber, isDecimal_of_isDigit (hds x hx)]]
    exact List.dropWhile_cons_of_neg (by decide)
  rw [heq, List.nil_append, List.nil_append,
    List.dropWhile_append_of_pos fun x hx => by simpa [inNumber] using hnumber x hx] at hfirst
  cases exponent with
  | nil =>
      have hmem : '-' ∈ behind := by
        have hsub := List.dropWhile_sublist inNumber (l := behind)
        rw [← List.nil_append behind, hfirst] at hsub
        exact hsub.subset List.mem_cons_self
      exact absurd (hbehind _ hmem) (by decide)
  | cons e exponent =>
      have he := hexponent e rfl
      have hstop : inNumber e ≠ true := by rcases he with rfl | rfl <;> decide
      rw [List.cons_append, List.dropWhile_cons_of_neg hstop] at hfirst
      obtain rfl := (List.cons.inj hfirst).1
      exact absurd he (by decide)

/-- The written form of a day is no number, whatever follows it. -/
theorem fits_numericText_iso (date : Date) (rest : List Char) :
    numericText.fits (date.iso ++ rest) = false := by
  have h := fits_numericText_hyphen (padded_ne_nil 4 date.year) (fun _ => isDigit_of_mem_padded)
    (padded 2 date.month ++ '-' :: padded 2 date.day ++ rest)
  simpa [Date.iso] using h

/-! ## Conversions against a date -/

theorem momentOf?_iso (m : Moment) : momentOf? (.text (String.ofList m.iso)) = some m := by
  have hnumeric : numericText.fits m.iso = false := by
    simpa [Moment.iso, Moment.isoWith] using fits_numericText_iso m.date _
  simp [momentOf?, hnumeric, m.ofIso?_iso]

theorem momentOf?_date_iso (date : Date) :
    momentOf? (.text (String.ofList date.iso)) = some (.ofDate date) := by
  have hnumeric : numericText.fits date.iso = false := by
    simpa using fits_numericText_iso date []
  simp [momentOf?, hnumeric, Moment.ofIso?_date_iso]

theorem run_date {v y : Value} (hv : v ≠ .null) :
    run table d v .date = .ok y ↔ ∃ m, momentOf? v = some m ∧ convertMoment d m = y := by
  have hleaf : leaf? d v .date = (momentOf? v).map (convertMoment d) := by
    cases v <;> first | rfl | exact absurd rfl hv
  obtain ⟨n, hn⟩ : ∃ n, budget table v .date = n + 1 :=
    Nat.exists_eq_succ_of_ne_zero (Nat.mul_ne_zero (by omega) (by omega))
  rw [run_eq_ok, hn, verdict, judge_leaf rfl, ofLeaf_eq_ok, hleaf, Option.map_eq_some_iff]

theorem run_date_of_momentOf? {v : Value} {m : Moment} (h : momentOf? v = some m) :
    run table d v .date = .ok (convertMoment d m) :=
  (run_date (by rintro rfl; cases h)).mpr ⟨m, h, rfl⟩

/-- A point in time comes back from the text that it is encoded to; a day is decoded like its
written form; and a text that is accepted is encoded and decoded like what it is decoded or encoded
to. -/
theorem run_date_normalises (table : Table) :
    (∀ m : Moment, ∃ t, run table .encode (.moment m) .date = .ok (.text t) ∧
      run table .decode (.text t) .date = .ok (.moment m)) ∧
    (∀ date : Date, run table .decode (.date date) .date = .ok (.moment (.ofDate date)) ∧
      run table .decode (.text (String.ofList date.iso)) .date =
        .ok (.moment (.ofDate date))) ∧
    ∀ (t : String) (d : Direction), Accepts table d (.text t) .date →
      ∃ decoded encoded,
        run table .decode (.text t) .date = .ok decoded ∧
        run table .encode (.text t) .date = .ok encoded ∧
        run table .encode decoded .date = .ok encoded ∧
        run table .decode encoded .date = .ok decoded ∧
        run table .encode encoded .date = .ok encoded := by
  refine ⟨fun m => ⟨String.ofList m.iso, run_date_of_momentOf? rfl, ?_⟩,
    fun date => ⟨run_date_of_momentOf? rfl, ?_⟩, fun t d haccepts => ?_⟩
  · exact run_date_of_momentOf? (momentOf?_iso m)
  · exact run_date_of_momentOf? (momentOf?_date_iso date)
  · obtain ⟨y, hy⟩ := haccepts
    obtain ⟨m, hm, -⟩ := (run_date (by simp)).mp hy
    exact ⟨.moment m, .text (String.ofList m.iso), run_date_of_momentOf? hm,
      run_date_of_momentOf? hm, run_date_of_momentOf? rfl,
      run_date_of_momentOf? (momentOf?_iso m), run_date_of_momentOf? (momentOf?_iso m)⟩

theorem run_date_normalises_noon :
    Accepts .binaryTrees .decode (.text "2024-05-01 12:00-0330") .date ∧
      ∃ decoded encoded,
        run .binaryTrees .decode (.text "2024-05-01 12:00-0330") .date = .ok decoded ∧
        run .binaryTrees .encode (.text "2024-05-01 12:00-0330") .date = .ok encoded ∧
        run .binaryTrees .encode decoded .date = .ok encoded ∧
        run .binaryTrees .decode encoded .date = .ok decoded ∧
        run .binaryTrees .encode encoded .date = .ok encoded := by
  have hmoment : momentOf? (.text "2024-05-01 12:00-0330") =
      some ⟨⟨2024, 5, 1, by decide, by decide, by decide, by decide⟩,
        ⟨12, 0, 0, 0, by decide, by decide, by decide, by decide⟩, some ⟨-210, by decide⟩⟩ := by
    decide +kernel
  have haccepts : Accepts .binaryTrees .decode (.text "2024-05-01 12:00-0330") .date :=
    ⟨_, run_date_of_momentOf? hmoment⟩
  exact ⟨haccepts, (run_date_normalises .binaryTrees).2.2 _ .decode haccepts⟩

end Conform.Conversion
