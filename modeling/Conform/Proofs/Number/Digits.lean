import Conform.Number.Digits
import Mathlib.Algebra.Group.Nat.Defs

/-!
# Digits read back

`Digits.ofDigits` is read from the front to the back, so it turns a text put together from two into
a sum (`ofDigits_append`).  The digits of a number are digits, the first of them is zero for zero
alone, and they read back as the number (`ofDigits_toDigits`, in any base up to sixteen).

A number is within the limit exactly if it has no more digits than the limit
(`withinLimit_iff_length`).
-/

namespace Conform.Digits

/-! ## Numbers of digits -/

/-- The number read so far only adds to what follows. -/
theorem foldl_digits (base : Nat) (cs : List Char) : ∀ n : Nat,
    cs.foldl (fun n c => n * base + (digitValue? c).getD 0) n =
      n * base ^ cs.length + ofDigits base cs := by
  induction cs with
  | nil => intro n; simp [ofDigits]
  | cons c cs ih =>
      intro n
      rw [ofDigits, List.foldl_cons, List.foldl_cons, ih, ih, List.length_cons, Nat.pow_succ,
        Nat.add_mul, Nat.zero_mul, Nat.zero_add, Nat.add_assoc, Nat.mul_assoc, Nat.mul_comm base]

theorem ofDigits_append (base : Nat) (xs ys : List Char) :
    ofDigits base (xs ++ ys) = ofDigits base xs * base ^ ys.length + ofDigits base ys := by
  rw [ofDigits, List.foldl_append, foldl_digits]
  rfl

theorem ofDigits_singleton (base : Nat) (c : Char) :
    ofDigits base [c] = (digitValue? c).getD 0 := by
  simp [ofDigits]

theorem ofDigits_replicate_zero (base k : Nat) : ofDigits base (List.replicate k '0') = 0 := by
  induction k with
  | zero => rfl
  | succ k ih =>
      have hzero : ofDigits base ['0'] = 0 := by
        rw [ofDigits_singleton]
        decide
      rw [List.replicate_succ', ofDigits_append, ih, hzero, Nat.zero_mul]

/-- Digits in front of a width of zeros. -/
theorem ofDigits_append_zeros (base : Nat) (ds : List Char) (k : Nat) :
    ofDigits base (ds ++ List.replicate k '0') = ofDigits base ds * base ^ k := by
  rw [ofDigits_append, ofDigits_replicate_zero, List.length_replicate, Nat.add_zero]

theorem ofDigits_zeros_append (base k : Nat) (ds : List Char) :
    ofDigits base (List.replicate k '0' ++ ds) = ofDigits base ds := by
  rw [ofDigits_append, ofDigits_replicate_zero, Nat.zero_mul, Nat.zero_add]

theorem digitValue?_digitChar : ∀ d < 16, digitValue? (Nat.digitChar d) = some d := by decide

theorem ofDigits_toDigits {base : Nat} (h₁ : 1 < base) (h₂ : base ≤ 16) (n : Nat) :
    ofDigits base (Nat.toDigits base n) = n := by
  rw [Nat.toDigits_eq_if h₁]
  split
  · rename_i hn
    rw [ofDigits_singleton, digitValue?_digitChar n (Nat.lt_of_lt_of_le hn h₂), Option.getD_some]
  · rename_i hn
    have hlast : n % base < 16 := Nat.lt_of_lt_of_le (Nat.mod_lt n (by omega)) h₂
    have hless : n / base < n := Nat.div_lt_self (by omega) h₁
    rw [ofDigits_append, ofDigits_toDigits h₁ h₂ (n / base), ofDigits_singleton,
      digitValue?_digitChar _ hlast, Option.getD_some, List.length_singleton, Nat.pow_one,
      Nat.mul_comm]
    exact Nat.div_add_mod n base
termination_by n

theorem ofDigits_digits (n : Nat) : ofDigits 10 (digits n) = n :=
  ofDigits_toDigits (by decide) (by decide) n

theorem ofDigits_padded (width n : Nat) : ofDigits 10 (padded width n) = n := by
  rw [padded, ofDigits_zeros_append, ofDigits_digits]

theorem ofDigits_lt {base : Nat} {cs : List Char}
    (h : ∀ c ∈ cs, (digitValue? c).getD 0 < base) : ofDigits base cs < base ^ cs.length := by
  induction cs with
  | nil => exact Nat.one_pos
  | cons c cs ih =>
      have hc := h c List.mem_cons_self
      have ih := ih fun d hd => h d (List.mem_cons_of_mem c hd)
      have happ := ofDigits_append base [c] cs
      rw [List.singleton_append] at happ
      rw [happ, ofDigits_singleton, List.length_cons, Nat.pow_succ, Nat.mul_comm _ base]
      calc (digitValue? c).getD 0 * base ^ cs.length + ofDigits base cs
          < (digitValue? c).getD 0 * base ^ cs.length + base ^ cs.length := by omega
        _ = ((digitValue? c).getD 0 + 1) * base ^ cs.length := by rw [Nat.add_mul, Nat.one_mul]
        _ ≤ base * base ^ cs.length := Nat.mul_le_mul_right _ hc

theorem digitValue_lt_of_isDigit {c : Char} (h : isDigit c = true) :
    (digitValue? c).getD 0 < 10 := by
  rw [isDigit, Bool.and_eq_true, decide_eq_true_iff, decide_eq_true_iff] at h
  rw [digitValue?, if_pos h, Option.getD_some]
  have h9 : c.toNat ≤ '9'.toNat := h.2
  have : '9'.toNat = 57 ∧ '0'.toNat = 48 := by decide
  omega

theorem digitValue_lt_of_isHexDigit {c : Char} (h : isHexDigit c = true) :
    (digitValue? c).getD 0 < 16 := by
  simp only [isHexDigit, Bool.or_eq_true, Bool.and_eq_true, decide_eq_true_iff] at h
  rcases h with (h | h) | h
  · exact Nat.lt_trans (digitValue_lt_of_isDigit h) (by decide)
  · have hf : c.toNat ≤ 'f'.toNat := h.2
    have hz : c ≤ 'z' := Char.le_trans h.2 (by decide)
    have hdigit : ¬ ('0' ≤ c ∧ c ≤ '9') := fun hd => absurd (Char.le_trans h.1 hd.2) (by decide)
    rw [digitValue?, if_neg hdigit, if_pos ⟨h.1, hz⟩, Option.getD_some]
    have : 'f'.toNat = 102 ∧ 'a'.toNat = 97 := by decide
    omega
  · have hF : c.toNat ≤ 'F'.toNat := h.2
    have hZ : c ≤ 'Z' := Char.le_trans h.2 (by decide)
    have hdigit : ¬ ('0' ≤ c ∧ c ≤ '9') := fun hd => absurd (Char.le_trans h.1 hd.2) (by decide)
    have hlower : ¬ ('a' ≤ c ∧ c ≤ 'z') := fun hl => absurd (Char.le_trans hl.1 h.2) (by decide)
    rw [digitValue?, if_neg hdigit, if_neg hlower, if_pos ⟨h.1, hZ⟩, Option.getD_some]
    have : 'F'.toNat = 70 ∧ 'A'.toNat = 65 := by decide
    omega

/-! ## The digits of a number -/

theorem isDigit_digitChar : ∀ d < 10, isDigit (Nat.digitChar d) = true := by decide

theorem isDigit_of_mem_digits {n : Nat} {c : Char} (h : c ∈ digits n) : isDigit c = true := by
  rw [digits, Nat.toDigits_eq_if (by decide)] at h
  split at h
  · rename_i hn
    rw [List.mem_singleton.mp h]
    exact isDigit_digitChar n hn
  · rename_i hn
    have hless : n / 10 < n := Nat.div_lt_self (by omega) (by decide)
    rcases List.mem_append.mp h with h | h
    · exact isDigit_of_mem_digits (n := n / 10) h
    · rw [List.mem_singleton.mp h]
      exact isDigit_digitChar _ (Nat.mod_lt n (by decide))
termination_by n

theorem digits_ne_nil (n : Nat) : digits n ≠ [] := Nat.toDigits_ne_nil

theorem digits_zero : digits 0 = ['0'] := by decide

theorem exists_digits_eq_cons {n : Nat} (h : 0 < n) : ∃ c cs, digits n = c :: cs ∧ c ≠ '0' := by
  rw [digits, Nat.toDigits_eq_if (by decide)]
  split
  · rename_i hn
    have hc : ∀ d < 10, 0 < d → Nat.digitChar d ≠ '0' := by decide
    exact ⟨_, [], rfl, hc n hn h⟩
  · rename_i hn
    have hless : n / 10 < n := Nat.div_lt_self h (by decide)
    obtain ⟨c, cs, hcs, hc⟩ := exists_digits_eq_cons (n := n / 10) (by omega)
    rw [digits] at hcs
    exact ⟨c, cs ++ [(n % 10).digitChar], by rw [hcs, List.cons_append], hc⟩
termination_by n

theorem isDigit_of_mem_padded {width n : Nat} {c : Char} (h : c ∈ padded width n) :
    isDigit c = true := by
  rcases List.mem_append.mp h with h | h
  · rw [List.eq_of_mem_replicate h]
    decide
  · exact isDigit_of_mem_digits h

theorem padded_ne_nil (width n : Nat) : padded width n ≠ [] := by
  intro h
  exact digits_ne_nil n (List.append_eq_nil_iff.mp h).2

theorem digits_inj {m n : Nat} : digits m = digits n ↔ m = n := by
  refine ⟨fun h => ?_, fun h => h ▸ rfl⟩
  rw [← ofDigits_digits m, h, ofDigits_digits]

theorem isDigit_of_mem_ofInt {n : Int} {c : Char} (h : c ∈ ofInt n) :
    c = '-' ∨ isDigit c = true := by
  cases n with
  | ofNat n => exact Or.inr (isDigit_of_mem_digits h)
  | negSucc n => exact (List.mem_cons.mp h).imp_right isDigit_of_mem_digits

theorem ofInt_inj {m n : Int} : ofInt m = ofInt n ↔ m = n := by
  refine ⟨fun h => ?_, fun h => h ▸ rfl⟩
  -- The text of a number that is not negative starts with a digit, so with no sign.
  have hsign (a b : Nat) : ¬ ofInt (.ofNat a) = ofInt (.negSucc b) := by
    intro h
    have hdigit : isDigit '-' = true := isDigit_of_mem_digits (n := a) (by
      rw [show digits a = _ from h]
      exact List.mem_cons_self)
    exact absurd hdigit (by decide)
  cases m with
  | ofNat a =>
      cases n with
      | ofNat b => exact congrArg Int.ofNat (digits_inj.mp h)
      | negSucc b => exact absurd h (hsign a b)
  | negSucc a =>
      cases n with
      | ofNat b => exact absurd h.symm (hsign b a)
      | negSucc b =>
          have hsucc : a + 1 = b + 1 := digits_inj.mp (List.tail_eq_of_cons_eq h)
          exact congrArg Int.negSucc (Nat.succ.inj hsucc)

theorem length_digits_le_iff {n k : Nat} (hk : 0 < k) : (digits n).length ≤ k ↔ n < 10 ^ k :=
  Nat.length_toDigits_le_iff (by decide) hk

theorem withinLimit_iff_length {n : Int} :
    withinLimit n = true ↔ (digits n.natAbs).length ≤ limit := by
  rw [withinLimit, decide_eq_true_iff, Nat.pow_eq, length_digits_le_iff (by decide)]

end Conform.Digits
