import Conform.Proofs.Text.Run
import Conform.Text.Lowercase

/-!
# The lower case of a lower case

A character is *low* if it is its own lower case and neither of the two that have a rule of their
own.  The lower case of a text is made of low characters, so it is its own lower case
(`lower_lower`); no ASCII capital is low.

What has to be known of the table of capitals is found by going through pairs of its rows: the small
letters of one row are no capitals of another.
-/

namespace Conform.Text

/-! ## The table of capitals -/

/-- Is the code point one of the capitals in a row of the table? -/
def rowHas (r : Nat × Nat × Nat × Int) (n : Nat) : Bool :=
  r.1 ≤ n && n ≤ r.2.1 && (n - r.1) % r.2.2.1 == 0

/-- The code points of the first and the last small letter of a row. -/
def smallEnds (r : Nat × Nat × Nat × Int) : Nat × Nat :=
  ((r.1 + r.2.2.2).toNat, (r.2.1 + r.2.2.2).toNat)

/-- The small letters of the first row stand before or behind the capitals of the second, or between
them where every other character is a capital. -/
def rowsApart (r s : Nat × Nat × Nat × Int) : Bool :=
  Nat.blt (smallEnds r).2 s.1 || Nat.blt s.2.1 (smallEnds r).1 ||
    (s.2.2.1 == 2 && (r.1 == r.2.1 || r.2.2.1 == 2) && ((smallEnds r).1 + s.1) % 2 == 1)

theorem rowHas_eq_false {r s : Nat × Nat × Nat × Int} (h : rowsApart r s = true)
    (hpos : 0 < (smallEnds r).1) {n : Nat} (hn : rowHas r n = true) :
    rowHas s (n + r.2.2.2).toNat = false := by
  obtain ⟨lo, hi, step, shift⟩ := r
  obtain ⟨lo', hi', step', shift'⟩ := s
  simp only [rowsApart, smallEnds, rowHas, Bool.or_eq_true, Bool.and_eq_true, decide_eq_true_eq,
    beq_iff_eq, Nat.blt_eq, Bool.and_eq_false_iff, decide_eq_false_iff_not, beq_eq_false_iff_ne]
    at h hpos hn ⊢
  rcases h with (h | h) | ⟨⟨rfl, rfl | rfl⟩, h⟩ <;> omega

/-- Each small letter is a character, stands behind the ASCII capitals, and is no capital of the
table. -/
theorem rows_apart : capitals.all (fun r => Nat.blt 0x60 (smallEnds r).1 &&
    (Nat.blt (smallEnds r).2 0xD800 ||
      Nat.blt 0xDFFF (smallEnds r).1 && Nat.blt (smallEnds r).2 0x110000) &&
    (Nat.blt (smallEnds r).2 0x130 || Nat.blt 0x130 (smallEnds r).1) &&
      capitals.all (rowsApart r)) = true := by
  decide +kernel

/-! ## Low characters -/

/-- The character is its own lower case, wherever it stands. -/
def IsLow (c : Char) : Prop := c ≠ '\u03A3' ∧ c ≠ '\u0130' ∧ lowerChar c = c

instance (c : Char) : Decidable (IsLow c) := inferInstanceAs (Decidable (_ ∧ _ ∧ _))

theorem lowerChar_eq (c : Char) :
    lowerChar c = if c.toNat < 0x80 then c.toLower else
      match capitals.find? fun r => rowHas r c.toNat with
      | some r => Char.ofNat (c.toNat + r.2.2.2).toNat
      | none => c :=
  rfl

/-- What is in no row of the table is low, but for ASCII capitals and the one capital that becomes
two characters. -/
theorem isLow_of_rows {c : Char} (hdotted : c.toNat ≠ 0x130)
    (hascii : c.toNat < 0x41 ∨ 0x5A < c.toNat) (hrows : ∀ r ∈ capitals, rowHas r c.toNat = false) :
    IsLow c := by
  refine ⟨?_, ?_, ?_⟩
  · rintro rfl
    exact absurd (hrows (0x3A3, 0x3AB, 1, 32) (by decide +kernel)) (by decide)
  · rintro rfl
    exact hdotted rfl
  · rw [lowerChar_eq]
    split
    · rename_i hc
      have hall : ∀ n < 0x80, (Char.ofNat n).toNat < 0x41 ∨ 0x5A < (Char.ofNat n).toNat →
          (Char.ofNat n).toLower = Char.ofNat n := by decide +kernel
      exact forall_ascii (P := fun c => c.toNat < 0x41 ∨ 0x5A < c.toNat → c.toLower = c) hall hc
        hascii
    · have hnone : (capitals.find? fun r => rowHas r c.toNat) = none :=
        List.find?_eq_none.mpr fun r hr => by simp [hrows r hr]
      rw [hnone]

/-- A character beyond ASCII is in no row and stays, or its small letter is as far away as the row
says. -/
theorem lowerChar_cases {c : Char} (hc : ¬ c.toNat < 0x80) :
    (lowerChar c = c ∧ ∀ r ∈ capitals, rowHas r c.toNat = false) ∨
      ∃ r ∈ capitals, rowHas r c.toNat = true ∧
        (lowerChar c).toNat = (c.toNat + r.2.2.2).toNat := by
  rw [lowerChar_eq, if_neg hc]
  split
  · rename_i r hr
    have hmem := List.mem_of_find?_eq_some hr
    have hn := List.find?_some hr
    refine Or.inr ⟨r, hmem, hn, ?_⟩
    have hrow := List.all_eq_true.mp rows_apart r hmem
    simp only [Bool.and_eq_true, Bool.or_eq_true, Nat.blt_eq, smallEnds] at hrow
    simp only [rowHas, Bool.and_eq_true, decide_eq_true_eq] at hn
    have hvalid : (c.toNat + r.2.2.2).toNat.isValidChar := by
      rcases hrow.1.1.2 with h | h
      · exact Or.inl (by omega)
      · exact Or.inr (by omega)
    rw [Char.ofNat, dif_pos hvalid]
    rfl
  · rename_i hnone
    exact Or.inl ⟨rfl, fun r hr => by simpa using List.find?_eq_none.mp hnone r hr⟩

theorem isLow_lowerChar {c : Char} (hdotted : c ≠ '\u0130') : IsLow (lowerChar c) := by
  by_cases hc : c.toNat < 0x80
  · rw [lowerChar_eq, if_pos hc]
    exact forall_ascii (P := fun c => IsLow c.toLower) (by decide +kernel) hc
  · rcases lowerChar_cases hc with ⟨heq, hrows⟩ | ⟨r, hr, hn, heq⟩
    · rw [heq]
      exact isLow_of_rows (fun h => hdotted (Char.toNat_inj.mp h)) (by omega) hrows
    · have hrow := List.all_eq_true.mp rows_apart r hr
      simp only [Bool.and_eq_true, Bool.or_eq_true, Nat.blt_eq, List.all_eq_true] at hrow
      obtain ⟨⟨⟨hpos, -⟩, hedge⟩, hapart⟩ := hrow
      have hrows : ∀ s ∈ capitals, rowHas s (lowerChar c).toNat = false := fun s hs =>
        heq ▸ rowHas_eq_false (hapart s hs) (by omega) hn
      simp only [rowHas, Bool.and_eq_true, decide_eq_true_eq] at hn
      simp only [smallEnds] at hpos hedge
      exact isLow_of_rows (by omega) (by omega) hrows

theorem lowerChar_eq_self_or (c : Char) : lowerChar c = c ∨ 0x60 < (lowerChar c).toNat := by
  by_cases hc : c.toNat < 0x80
  · rw [lowerChar_eq, if_pos hc]
    exact forall_ascii (P := fun c => c.toLower = c ∨ 0x60 < c.toLower.toNat) (by decide +kernel) hc
  · rcases lowerChar_cases hc with ⟨heq, -⟩ | ⟨r, hr, hn, heq⟩
    · exact Or.inl heq
    · have hrow := List.all_eq_true.mp rows_apart r hr
      simp only [Bool.and_eq_true, Nat.blt_eq, smallEnds] at hrow
      simp only [rowHas, Bool.and_eq_true, decide_eq_true_eq] at hn
      exact Or.inr (by omega)

theorem not_isLow_of_isUpper {c : Char} (h : 'A' ≤ c ∧ c ≤ 'Z') : ¬ IsLow c := by
  have hall : ∀ n < 0x80, 'A' ≤ Char.ofNat n ∧ Char.ofNat n ≤ 'Z' → ¬ IsLow (Char.ofNat n) := by
    decide +kernel
  have hc : c.toNat < 0x80 := Nat.lt_of_le_of_lt (show c.toNat ≤ 'Z'.toNat from h.2) (by decide)
  exact forall_ascii (P := fun c => 'A' ≤ c ∧ c ≤ 'Z' → ¬ IsLow c) hall hc h

/-! ## Texts -/

theorem isLow_of_mem_lowerAfter {c : Char} : ∀ {before cs : List Char},
    c ∈ lowerAfter before cs → IsLow c
  | before, x :: cs, h => by
      rw [lowerAfter] at h
      rcases List.mem_append.mp h with h | h
      · split at h
        · rw [List.mem_singleton.mp h]
          split <;> decide +kernel
        · split at h
          · rcases List.mem_cons.mp h with rfl | h
            · decide +kernel
            · rw [List.mem_singleton.mp h]
              decide +kernel
          · rw [List.mem_singleton.mp h]
            exact isLow_lowerChar (by assumption)
      · exact isLow_of_mem_lowerAfter h

theorem lowerAfter_eq_self : ∀ {before cs : List Char}, (∀ c ∈ cs, IsLow c) →
    lowerAfter before cs = cs
  | _, [], _ => rfl
  | before, c :: cs, h => by
      obtain ⟨⟨hsigma, hdotted, hc⟩, hcs⟩ := List.forall_mem_cons.mp h
      rw [lowerAfter, if_neg hsigma, if_neg hdotted, hc, lowerAfter_eq_self hcs]
      rfl

theorem isLow_of_mem_lower {cs : List Char} {c : Char} (h : c ∈ lower cs) : IsLow c :=
  isLow_of_mem_lowerAfter h

theorem lower_eq_self {cs : List Char} (h : ∀ c ∈ cs, IsLow c) : lower cs = cs :=
  lowerAfter_eq_self h

theorem lower_lower (cs : List Char) : lower (lower cs) = lower cs :=
  lower_eq_self fun _ => isLow_of_mem_lower

/-- Only a text that begins with something other than a letter has a lower case that does so. -/
theorem head?_lower {cs : List Char} {c : Char} (h : (lower cs).head? = some c)
    (hc : c.toNat ≤ 0x60) : cs.head? = some c := by
  cases cs with
  | nil => cases h
  | cons x cs =>
      rw [lower, lowerAfter] at h
      split at h
      · obtain rfl : (if startsCased [] && !startsCased cs then '\u03C2' else '\u03C3') = c :=
          Option.some.inj h
        split at hc <;> exact absurd hc (by decide)
      · split at h
        · obtain rfl : 'i' = c := Option.some.inj h
          exact absurd hc (by decide)
        · obtain rfl : lowerChar x = c := Option.some.inj h
          rw [(lowerChar_eq_self_or x).resolve_right (by omega)]
          rfl

end Conform.Text
