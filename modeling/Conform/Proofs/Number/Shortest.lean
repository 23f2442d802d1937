import Conform.Number.Shortest
import Conform.Proofs.Number.Rounding

/-!
# The shortest decimal reads back

The decimal that is chosen for a floating-point number reads back as the number
(`ofDecimal_shortest`).  What the search finds was read back when it was tried, and zeros that are
then taken off its end do not count.  Should the search find nothing, the full decimal expansion is
taken, and reading it rounds nothing away.
-/

namespace Conform

open Binary64

namespace Decimal

variable {negative : Bool} {m : Nat} {e : Int}

/-- The number that a decimal is read as. -/
def reading (negative : Bool) (d : Decimal) : Binary64 := ofDecimal negative d.digits d.exponent

/-! ## The full expansion -/

theorem digits_exact_pos (hm : 0 < m) : 0 < (exact m e).digits := by
  simp only [exact, Nat.pow_eq]
  positivity

theorem two_pow_le {n k : Nat} (h : k ≤ 3 * n) : 2 ^ k ≤ 10 ^ n :=
  calc 2 ^ k ≤ 2 ^ (3 * n) := Nat.pow_le_pow_right (by decide) h
    _ = 8 ^ n := Nat.pow_mul 2 3 n
    _ ≤ 10 ^ n := Nat.pow_le_pow_left (by decide) n

/-- A factor of two for every place but the last four hundred is less than those are worth. -/
theorem ten_pow_le_five_pow {k : Nat} (h : k ≤ 1200) : 10 ^ (k - 400) ≤ 5 ^ k := by
  rcases Nat.le_total k 400 with hk | hk
  · rw [Nat.sub_eq_zero_of_le hk]
    exact Nat.one_le_pow k 5 (by decide)
  · have hten : 10 ^ (k - 400) * 10 ^ 400 ≤ 5 ^ k * 10 ^ 400 :=
      calc 10 ^ (k - 400) * 10 ^ 400 = 2 ^ k * 5 ^ k := by
            rw [← Nat.pow_add, Nat.sub_add_cancel hk, ← Nat.mul_pow]
        _ ≤ 10 ^ 400 * 5 ^ k := Nat.mul_le_mul_right _ (two_pow_le h)
        _ = 5 ^ k * 10 ^ 400 := Nat.mul_comm _ _
    exact Nat.le_of_mul_le_mul_right hten (by positivity)

/-- The first digit of a full expansion is at most four hundred places away from the point. -/
theorem exact_reach (hm : 0 < m) (hc : CanonicalFloat m e) :
    -400 ≤ (exact m e).exponent + decimalWidth (exact m e).digits ∧
      (exact m e).exponent + decimalWidth (exact m e).digits ≤ 400 := by
  have hpos := digits_exact_pos (e := e) hm
  obtain ⟨hlt, hlow, hhigh, -⟩ := hc
  rw [Nat.pow_eq] at hlt
  rcases le_or_gt 0 e with he | he
  · have hexp : (exact m e).exponent = 0 := min_eq_right he
    have hdigits : (exact m e).digits = m * 2 ^ e.toNat := by
      simp [exact, Int.toNat_of_nonpos (Int.neg_nonpos_of_nonneg he)]
    have hwidth : decimalWidth (exact m e).digits ≤ 400 := by
      rw [decimalWidth_le_iff hpos (by decide), hdigits]
      calc m * 2 ^ e.toNat < 2 ^ 53 * 2 ^ e.toNat := Nat.mul_lt_mul_of_pos_right hlt (by positivity)
        _ = 2 ^ (53 + e.toNat) := (Nat.pow_add 2 53 _).symm
        _ ≤ 10 ^ 400 := two_pow_le (by omega)
    omega
  · have hexp : (exact m e).exponent = e := min_eq_left he.le
    have hdigits : (exact m e).digits = m * 5 ^ (-e).toNat := by
      simp [exact, Int.toNat_of_nonpos he.le]
    generalize hk : (-e).toNat = k at hdigits
    have hupper : decimalWidth (exact m e).digits ≤ 16 + k := by
      rw [decimalWidth_le_iff hpos (by omega), hdigits, Nat.pow_add]
      calc m * 5 ^ k < 10 ^ 16 * 5 ^ k :=
            Nat.mul_lt_mul_of_pos_right (lt_trans hlt (by norm_num)) (by positivity)
        _ ≤ 10 ^ 16 * 10 ^ k := Nat.mul_le_mul_left _ (Nat.pow_le_pow_left (by decide) k)
    have hlower : k ≤ 400 + decimalWidth (exact m e).digits := by
      by_contra hlt
      have hsmall : (exact m e).digits < 10 ^ (k - 400) :=
        (decimalWidth_le_iff hpos (by omega)).mp (by omega)
      have hfive : 10 ^ (k - 400) ≤ 5 ^ k := ten_pow_le_five_pow (by omega)
      have hle : 5 ^ k ≤ m * 5 ^ k := Nat.le_mul_of_pos_left _ hm
      omega
    omega

theorem reading_exact (hm : 0 < m) (hc : CanonicalFloat m e) :
    (exact m e).reading negative = .finite negative m e hc := by
  obtain ⟨hlow, hhigh⟩ := exact_reach hm hc
  rw [reading, ofDecimal_eq_ofRatio (digits_exact_pos hm) hlow hhigh]
  refine ofRatio_exact (by positivity) hm hc ?_ negative
  simp only [exact, Nat.pow_eq]
  rcases Int.le_total 0 e with he | he
  · rw [min_eq_right he, Int.toNat_of_nonpos (Int.neg_nonpos_of_nonneg he)]
    simp
  · rw [min_eq_left he, Int.toNat_of_nonpos he, Nat.pow_zero, Nat.pow_zero, Nat.mul_one,
      Nat.mul_one, Nat.mul_one, Nat.mul_assoc, ← Nat.mul_pow]

/-! ## Trimming and searching -/

theorem reading_trim (fuel : Nat) (d : Decimal) :
    (trim fuel d).reading negative = d.reading negative := by
  induction fuel generalizing d with
  | zero => rfl
  | succ fuel ih =>
      rw [trim]
      split
      · rename_i h
        have hmul : d.digits / 10 * 10 ^ 1 = d.digits := by omega
        have hexp : d.exponent + 1 - (1 : Nat) = d.exponent := by omega
        rw [ih, reading, reading, ← ofDecimal_mul_pow negative (d.digits / 10) 1, hmul, hexp]
      · rfl

theorem reading_of_search {x : Binary64} {num den : Nat} {top : Int} {fuel count : Nat}
    {d : Decimal} (h : search x negative num den top fuel count = some d) :
    d.reading negative = x := by
  induction fuel generalizing count with
  | zero => cases h
  | succ fuel ih =>
      rw [search] at h
      split at h
      · rename_i found hfound
        have hread := List.find?_some hfound
        rw [← Option.some.inj h]
        exact of_decide_eq_true hread
      · exact ih h

/-- The shortest decimal reads back. -/
theorem reading_shortest (hm : 0 < m) (hc : CanonicalFloat m e) :
    (shortest negative m e hc).reading negative = .finite negative m e hc := by
  rw [shortest]
  dsimp only
  split
  · rename_i d hd
    rw [reading_trim, reading_of_search hd]
  · exact reading_exact hm hc

theorem digits_shortest_pos (hm : 0 < m) (hc : CanonicalFloat m e) :
    0 < (shortest negative m e hc).digits := by
  refine Nat.pos_of_ne_zero fun hzero => ?_
  have hread : (shortest negative m e hc).reading negative = _ := reading_shortest hm hc
  rw [reading, ofDecimal, if_pos hzero, zero, pack, dif_pos (by decide)] at hread
  have := (Binary64.finite.inj hread).2.1
  omega

end Decimal

end Conform
