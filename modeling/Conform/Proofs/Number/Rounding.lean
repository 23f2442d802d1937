import Conform.Number.Binary64
import Conform.Proofs.Number.Digits
import Mathlib.Algebra.Order.Field.Power
import Mathlib.Algebra.Order.Field.Rat
import Mathlib.Data.Int.Log
import Mathlib.Data.Rat.Floor
import Mathlib.Tactic.FieldSimp
import Mathlib.Tactic.Ring

/-!
# What rounding depends on

The number nearest to a quotient depends on the quotient alone, not on how it is written
(`ofRatio_congr`), and so zeros at the end of a decimal do not count if its exponent makes up for
them (`ofDecimal_mul_pow`).  A number that has a floating-point form is its own rounding
(`ofRatio_exact`), also when it is read from its full decimal expansion (`ofDecimal_exact`).

Quotients are compared as rational numbers; the leading power of two is the logarithm of the
quotient (`floorLog2_eq_log`).
-/

namespace Conform.Binary64

open Digits

/-! ## Powers with integer exponents -/

/-- A power is a quotient of two natural powers, one of which is one. -/
theorem zpow_eq_div (b : Nat) (hb : 0 < b) (k : Int) :
    (b : ℚ) ^ k = (b ^ k.toNat : Nat) / (b ^ (-k).toNat : Nat) := by
  have hb : (b : ℚ) ≠ 0 := Nat.cast_ne_zero.mpr (Nat.ne_of_gt hb)
  rw [Nat.cast_pow, Nat.cast_pow, ← zpow_natCast, ← zpow_natCast, ← zpow_sub₀ hb]
  congr 1
  omega

theorem pow_mul_le_iff {num den : Nat} (hd : 0 < den) (k : Int) :
    den * 2 ^ k.toNat ≤ num * 2 ^ (-k).toNat ↔ (2 : ℚ) ^ k ≤ num / den := by
  have hd : (0 : ℚ) < den := Nat.cast_pos.mpr hd
  have hp : (0 : ℚ) < (2 ^ (-k).toNat : Nat) := Nat.cast_pos.mpr (Nat.two_pow_pos _)
  have hz := zpow_eq_div 2 (by decide) k
  rw [Nat.cast_ofNat] at hz
  rw [hz, div_le_div_iff₀ hp hd, ← Nat.cast_mul, ← Nat.cast_mul, Nat.cast_le, Nat.mul_comm den]

theorem log2_bounds {n : Nat} (h : 0 < n) :
    (2 : ℚ) ^ (Nat.log2 n : Int) ≤ n ∧ (n : ℚ) < 2 ^ (Nat.log2 n + 1 : Int) := by
  rw [zpow_natCast, ← Nat.cast_succ, zpow_natCast]
  constructor
  · exact_mod_cast Nat.log2_self_le h.ne'
  · exact_mod_cast Nat.lt_log2_self

theorem log_eq {q : ℚ} {k : Int} (hlow : 2 ^ k ≤ q) (hhigh : q < 2 ^ (k + 1)) :
    Int.log 2 q = k := by
  have hq : 0 < q := lt_of_lt_of_le (by positivity) hlow
  have hle := (Int.zpow_le_iff_le_log (b := 2) (by decide) hq).mp (by exact_mod_cast hlow)
  have hlt := (Int.lt_zpow_iff_log_lt (b := 2) (by decide) hq).mp (by exact_mod_cast hhigh)
  omega

theorem floorLog2_eq_log {num den : Nat} (hn : 0 < num) (hd : 0 < den) :
    floorLog2 num den = Int.log 2 (num / den : ℚ) := by
  have hd' : (0 : ℚ) < den := Nat.cast_pos.mpr hd
  have htwo : (2 : ℚ) ≠ 0 := by norm_num
  obtain ⟨hnlow, hnhigh⟩ := log2_bounds hn
  obtain ⟨hdlow, hdhigh⟩ := log2_bounds hd
  -- The quotient stands between the powers before and after the difference of the exponents.
  have hlow : (2 : ℚ) ^ ((Nat.log2 num : Int) - Nat.log2 den - 1) ≤ num / den := by
    rw [le_div_iff₀ hd']
    calc (2 : ℚ) ^ ((Nat.log2 num : Int) - Nat.log2 den - 1) * den
        ≤ 2 ^ ((Nat.log2 num : Int) - Nat.log2 den - 1) * 2 ^ (Nat.log2 den + 1 : Int) := by gcongr
      _ = 2 ^ (Nat.log2 num : Int) := by rw [← zpow_add₀ htwo]; congr 1; ring
      _ ≤ num := hnlow
  have hhigh : (num / den : ℚ) < 2 ^ ((Nat.log2 num : Int) - Nat.log2 den + 1) := by
    rw [div_lt_iff₀ hd']
    calc (num : ℚ) < 2 ^ (Nat.log2 num + 1 : Int) := hnhigh
      _ = 2 ^ ((Nat.log2 num : Int) - Nat.log2 den + 1) * 2 ^ (Nat.log2 den : Int) := by
        rw [← zpow_add₀ htwo]; congr 1; ring
      _ ≤ 2 ^ ((Nat.log2 num : Int) - Nat.log2 den + 1) * den := by gcongr
  rw [floorLog2]
  simp only [Nat.pow_eq]
  split
  · rename_i h
    exact (log_eq ((pow_mul_le_iff hd _).mp h) hhigh).symm
  · rename_i h
    have hlt := not_le.mp (mt (pow_mul_le_iff hd _).mpr h)
    refine (log_eq hlow ?_).symm
    rwa [sub_add_cancel]

/-! ## Quotients -/

theorem divNearest_mul_left {c : Nat} (hc : 0 < c) (num den : Nat) :
    divNearest (c * num) (c * den) = divNearest num den := by
  have hlt (x y : Nat) : c * x < c * y ↔ x < y := Nat.mul_lt_mul_left hc
  rw [divNearest, divNearest, Nat.mul_div_mul_left num den hc, Nat.mul_mod_mul_left,
    Nat.mul_left_comm 2 c]
  simp only [hlt]

theorem divNearest_congr {num num' den den' : Nat} (hd : 0 < den) (hd' : 0 < den')
    (h : num * den' = num' * den) : divNearest num den = divNearest num' den' := by
  rw [← divNearest_mul_left hd' num den, ← divNearest_mul_left hd num' den',
    Nat.mul_comm den' num, h, Nat.mul_comm num', Nat.mul_comm den']

theorem divNearest_mul_self (m : Nat) {den : Nat} (hd : 0 < den) :
    divNearest (m * den) den = m := by
  simp [divNearest, Nat.mul_div_cancel m hd, hd]

theorem ofRatio_congr {num num' den den' : Nat} (hd : 0 < den) (hd' : 0 < den')
    (h : num * den' = num' * den) (negative : Bool) :
    ofRatio negative num den = ofRatio negative num' den' := by
  by_cases hn : num = 0
  · have hn' : num' = 0 := by
      rw [hn, Nat.zero_mul] at h
      exact (Nat.mul_eq_zero.mp h.symm).resolve_right hd.ne'
    rw [ofRatio, ofRatio, if_pos (Or.inl hn), if_pos (Or.inl hn')]
  · have hn' : num' ≠ 0 := by
      rintro rfl
      rw [Nat.zero_mul] at h
      exact (Nat.mul_eq_zero.mp h).elim hn hd'.ne'
    have hq : (num / den : ℚ) = num' / den' := by
      rw [div_eq_div_iff (Nat.cast_ne_zero.mpr hd.ne') (Nat.cast_ne_zero.mpr hd'.ne')]
      exact_mod_cast h
    have hlog : floorLog2 num den = floorLog2 num' den' := by
      rw [floorLog2_eq_log (Nat.pos_of_ne_zero hn) hd,
        floorLog2_eq_log (Nat.pos_of_ne_zero hn') hd', hq]
    have hm (e : Int) : divNearest (num * 2 ^ (-e).toNat) (den * 2 ^ e.toNat) =
        divNearest (num' * 2 ^ (-e).toNat) (den' * 2 ^ e.toNat) := by
      refine divNearest_congr (by positivity) (by positivity) ?_
      calc num * 2 ^ (-e).toNat * (den' * 2 ^ e.toNat)
          = num * den' * (2 ^ (-e).toNat * 2 ^ e.toNat) := by ring
        _ = num' * 2 ^ (-e).toNat * (den * 2 ^ e.toNat) := by rw [h]; ring
    rw [ofRatio, ofRatio, if_neg (not_or.mpr ⟨hn, hd.ne'⟩), if_neg (not_or.mpr ⟨hn', hd'.ne'⟩),
      hlog]
    simp only [Nat.pow_eq, hm]

/-- A number in canonical form is its own rounding. -/
theorem ofRatio_exact {num den m : Nat} {e : Int} (hd : 0 < den) (hm : 0 < m)
    (hc : CanonicalFloat m e) (h : num * 2 ^ (-e).toNat = m * (den * 2 ^ e.toNat))
    (negative : Bool) : ofRatio negative num den = .finite negative m e hc := by
  obtain ⟨hlt, hle, -, hnormal⟩ := id hc
  rw [Nat.pow_eq] at hlt hnormal
  have hden : 0 < den * 2 ^ e.toNat := by positivity
  have hn : 0 < num := by
    refine Nat.pos_of_ne_zero ?_
    rintro rfl
    rw [Nat.zero_mul] at h
    exact (Nat.mul_pos hm hden).ne h
  -- The quotient is `m · 2^e`, so its leading power of two is that of `m`, moved by `e`.
  have hq : (num / den : ℚ) = m * 2 ^ e := by
    have hz := zpow_eq_div 2 (by decide) e
    have hcast : (num : ℚ) * (2 ^ (-e).toNat : Nat) = m * (den * (2 ^ e.toNat : Nat)) := by
      exact_mod_cast h
    rw [Nat.cast_ofNat] at hz
    rw [hz, div_eq_iff (Nat.cast_ne_zero.mpr hd.ne'), mul_div_assoc', div_mul_eq_mul_div,
      eq_div_iff (by positivity), hcast]
    ring
  have hlog : floorLog2 num den = Nat.log2 m + e := by
    obtain ⟨hlow, hhigh⟩ := log2_bounds hm
    rw [floorLog2_eq_log hn hd, hq]
    refine log_eq ?_ ?_
    · rw [zpow_add₀ (by norm_num)]
      gcongr
    · rw [add_right_comm, zpow_add₀ (by norm_num)]
      gcongr
  have hexp : max (floorLog2 num den - 52) (-1074) = e := by
    rw [hlog]
    have hsmall : Nat.log2 m < 53 := (Nat.log2_lt hm.ne').mpr hlt
    rcases hnormal with hnormal | rfl
    · have : 52 ≤ Nat.log2 m := (Nat.le_log2 hm.ne').mpr hnormal
      omega
    · omega
  rw [ofRatio, if_neg (not_or.mpr ⟨hn.ne', hd.ne'⟩)]
  simp only [Nat.pow_eq, hexp, h, divNearest_mul_self m hden]
  rw [if_neg hlt.ne, pack, dif_pos hc]

/-! ## Decimals -/

theorem decimalWidth_eq {n : Nat} (h : 0 < n) : decimalWidth n = (digits n).length := by
  rw [decimalWidth, if_neg h.ne', digits]

theorem decimalWidth_le_iff {n k : Nat} (h : 0 < n) (hk : 0 < k) :
    decimalWidth n ≤ k ↔ n < 10 ^ k := by
  rw [decimalWidth_eq h, length_digits_le_iff hk]

theorem decimalWidth_mul_pow {n : Nat} (h : 0 < n) (k : Nat) :
    decimalWidth (n * 10 ^ k) = decimalWidth n + k := by
  induction k with
  | zero => rw [Nat.pow_zero, Nat.mul_one, Nat.add_zero]
  | succ k ih =>
      have hpos : 0 < n * 10 ^ k := by positivity
      have hdiv : n * 10 ^ k * 10 / 10 = n * 10 ^ k := Nat.mul_div_cancel _ (by decide)
      rw [← Nat.add_assoc, ← ih, Nat.pow_succ, ← Nat.mul_assoc, decimalWidth_eq (by positivity),
        decimalWidth_eq hpos, digits, Nat.toDigits_eq_if (by decide), if_neg (by omega), hdiv,
        List.length_append, List.length_singleton, digits]

/-- Zeros at the end of the digits do not count if the exponent makes up for them. -/
theorem ofDecimal_mul_pow (negative : Bool) (n k : Nat) (e : Int) :
    ofDecimal negative (n * 10 ^ k) (e - k) = ofDecimal negative n e := by
  by_cases hn : n = 0
  · rw [ofDecimal, ofDecimal, hn, Nat.zero_mul, if_pos rfl, if_pos rfl]
  · have hpos : 0 < n := Nat.pos_of_ne_zero hn
    have hreach : e - k + (decimalWidth (n * 10 ^ k) : Int) = e + decimalWidth n := by
      rw [decimalWidth_mul_pow hpos]
      push_cast
      ring
    have hratio : ofRatio negative (n * 10 ^ k * 10 ^ (e - k).toNat) (10 ^ (-(e - k)).toNat) =
        ofRatio negative (n * 10 ^ e.toNat) (10 ^ (-e).toNat) := by
      refine ofRatio_congr (by positivity) (by positivity) ?_ negative
      have hsum : k + (e - k).toNat + (-e).toNat = e.toNat + (-(e - k)).toNat := by omega
      calc n * 10 ^ k * 10 ^ (e - k).toNat * 10 ^ (-e).toNat
          = n * 10 ^ (k + (e - k).toNat + (-e).toNat) := by rw [pow_add, pow_add]; ring
        _ = n * 10 ^ e.toNat * 10 ^ (-(e - k)).toNat := by rw [hsum, pow_add]; ring
    rw [ofDecimal, ofDecimal, if_neg (Nat.mul_ne_zero hn (by positivity)), if_neg hn]
    simp only [Nat.pow_eq, hreach, hratio]

/-- A decimal neither too large nor too small is rounded as the quotient that it is. -/
theorem ofDecimal_eq_ofRatio {n : Nat} {e : Int} (hn : 0 < n)
    (hlow : -400 ≤ e + decimalWidth n) (hhigh : e + decimalWidth n ≤ 400) (negative : Bool) :
    ofDecimal negative n e = ofRatio negative (n * 10 ^ e.toNat) (10 ^ (-e).toNat) := by
  rw [ofDecimal, if_neg hn.ne']
  simp only [Nat.pow_eq]
  rw [if_neg (by omega), if_neg (by omega)]

end Conform.Binary64
