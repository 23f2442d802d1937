/-!
# Binary floating-point numbers of 64 bits, exactly

A number is a sign, a mantissa and a power of two, or an infinity, or "not a number".  Everything
here is integer arithmetic, so a float can be compared, rounded and printed inside a proof.

`Binary64.ofRatio` is the one place where rounding happens: to nearest, a half going to the even
mantissa.  Reading decimal text, adding and multiplying all go through it, so each of them is the
exact result rounded once.
-/

namespace Conform

/-- A mantissa and exponent in the one form that each finite number has: below `2^53`, the exponent
in range, and no smaller exponent possible. -/
def CanonicalFloat (mantissa : Nat) (exponent : Int) : Prop :=
  mantissa < Nat.pow 2 53 ∧ -1074 ≤ exponent ∧ exponent ≤ 971 ∧
    (Nat.pow 2 52 ≤ mantissa ∨ exponent = -1074)

instance (m : Nat) (e : Int) : Decidable (CanonicalFloat m e) := by
  unfold CanonicalFloat; infer_instance

/-- A floating-point number.  Both zeros are finite, with mantissa `0`. -/
inductive Binary64 where
  | nan
  | infinite (negative : Bool)
  | finite (negative : Bool) (mantissa : Nat) (exponent : Int)
      (canonical : CanonicalFloat mantissa exponent)
deriving DecidableEq

namespace Binary64

/-- The number `± mantissa · 2^exponent` when it is in canonical form; anything else is out of
range and becomes an infinity. -/
def pack (negative : Bool) (mantissa : Nat) (exponent : Int) : Binary64 :=
  if h : CanonicalFloat mantissa exponent then .finite negative mantissa exponent h
  else .infinite negative

def zero (negative : Bool) : Binary64 := pack negative 0 (-1074)

/-- The quotient rounded to the nearest natural number, a half going to the even one. -/
def divNearest (num den : Nat) : Nat :=
  let q := num / den
  let twice := 2 * (num % den)
  if twice < den then q
  else if den < twice then q + 1
  else if q % 2 = 0 then q else q + 1

/-- The largest `k` with `2^k ≤ num / den`, for positive arguments. -/
def floorLog2 (num den : Nat) : Int :=
  let k : Int := (Nat.log2 num : Int) - Nat.log2 den
  if den * Nat.pow 2 k.toNat ≤ num * Nat.pow 2 (-k).toNat then k else k - 1

/-- The number nearest to `± num / den`; a half goes to the even mantissa, and what is too large
becomes an infinity. -/
def ofRatio (negative : Bool) (num den : Nat) : Binary64 :=
  if num = 0 ∨ den = 0 then zero negative
  else
    let e := max (floorLog2 num den - 52) (-1074)
    let m := divNearest (num * Nat.pow 2 (-e).toNat) (den * Nat.pow 2 e.toNat)
    if m = Nat.pow 2 53 then pack negative (Nat.pow 2 52) (e + 1) else pack negative m e

/-- The number nearest to an integer. -/
def ofInt (n : Int) : Binary64 := ofRatio (decide (n < 0)) n.natAbs 1

/-- How many decimal digits a natural number has; `0` has none. -/
def decimalWidth (n : Nat) : Nat := if n = 0 then 0 else (Nat.toDigits 10 n).length

/-- The number nearest to `± digits · 10^exponent`.  Exponents far out of range are settled by
the width of the digits alone, so that no huge power is computed. -/
def ofDecimal (negative : Bool) (digits : Nat) (exponent : Int) : Binary64 :=
  if digits = 0 then zero negative
  else
    let reach := exponent + decimalWidth digits
    if 400 < reach then .infinite negative
    else if reach < -400 then zero negative
    else ofRatio negative (digits * Nat.pow 10 exponent.toNat) (Nat.pow 10 (-exponent).toNat)

/-- The size of a finite number as a quotient of natural numbers. -/
def magnitude (mantissa : Nat) (exponent : Int) : Nat × Nat :=
  (mantissa * Nat.pow 2 exponent.toNat, Nat.pow 2 (-exponent).toNat)

def negate : Binary64 → Binary64
  | .nan => .nan
  | .infinite s => .infinite (!s)
  | .finite s m e h => .finite (!s) m e h

/-- The sum, rounded once. -/
def add : Binary64 → Binary64 → Binary64
  | .nan, _ | _, .nan => .nan
  | .infinite s, .infinite t => if s = t then .infinite s else .nan
  | .infinite s, .finite .. => .infinite s
  | .finite .., .infinite t => .infinite t
  | .finite s m e _, .finite t n f _ =>
    let low := min e f
    let a : Int := (m * Nat.pow 2 (e - low).toNat : Nat)
    let b : Int := (n * Nat.pow 2 (f - low).toNat : Nat)
    let sum := (if s then -a else a) + (if t then -b else b)
    if sum = 0 then zero (s && t)
    else
      let (num, den) := magnitude sum.natAbs low
      ofRatio (decide (sum < 0)) num den

/-- The product, rounded once. -/
def mul : Binary64 → Binary64 → Binary64
  | .nan, _ | _, .nan => .nan
  | .infinite s, .infinite t => .infinite (s != t)
  | .infinite s, .finite t n _ _ => if n = 0 then .nan else .infinite (s != t)
  | .finite s m _ _, .infinite t => if m = 0 then .nan else .infinite (s != t)
  | .finite s m e _, .finite t n f _ =>
    let (num, den) := magnitude (m * n) (e + f)
    ofRatio (s != t) num den

/-- Equality of numbers: nothing equals "not a number", and the two zeros are equal. -/
def same : Binary64 → Binary64 → Bool
  | .infinite s, .infinite t => s == t
  | .finite s m e _, .finite t n f _ => m == n && (m == 0 || (e == f && s == t))
  | _, _ => false

/-- Is the number this integer, exactly? -/
def sameInt : Binary64 → Int → Bool
  | .finite s m e _, n =>
    let (num, den) := magnitude m e
    decide ((if s then -(num : Int) else num) = n * den)
  | _, _ => false

end Binary64

end Conform
