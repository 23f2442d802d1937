import Conform.Number.Binary64
import Conform.Number.Digits

/-!
# The shortest decimal of a floating-point number

A finite number is written with the fewest significant digits that read back as the same number,
and among those with the digits nearest to it.  For each count of digits from one to seventeen the
two neighbours of the number on that decimal grid are tried, the nearer first and of two equally
near ones the even one; what is tried is the reading itself (`Binary64.ofDecimal`), so the result
reads back by construction.  Should no grid have a hit, the exact decimal expansion is taken, which
every binary fraction has.

`FloatStyle` holds the choices of a notation: the words for the special numbers.
-/

namespace Conform

/-- A positive decimal `digits · 10^exponent`. -/
structure Decimal where
  digits : Nat
  exponent : Int
deriving DecidableEq

namespace Decimal

/-- The largest `p` with `10^p ≤ num / den`, for positive arguments. -/
def floorLog10 (num den : Nat) : Int :=
  let p : Int := (Binary64.decimalWidth num : Int) - Binary64.decimalWidth den
  if den * Nat.pow 10 p.toNat ≤ num * Nat.pow 10 (-p).toNat then p else p - 1

/-- The two neighbours of `num / den` on the grid `10^p`, the nearer first. -/
def neighbours (num den : Nat) (p : Int) : List Decimal :=
  let a := num * Nat.pow 10 (-p).toNat
  let b := den * Nat.pow 10 p.toNat
  let low : Decimal := ⟨a / b, p⟩
  let high : Decimal := ⟨a / b + 1, p⟩
  let twice := 2 * (a % b)
  if twice < b ∨ (twice = b ∧ (a / b) % 2 = 0) then [low, high] else [high, low]

/-- The decimal without zeros at the end of its digits. -/
def trim : Nat → Decimal → Decimal
  | 0, d => d
  | fuel + 1, d =>
    if d.digits ≠ 0 ∧ d.digits % 10 = 0 then trim fuel ⟨d.digits / 10, d.exponent + 1⟩ else d

/-- The exact decimal expansion of `mantissa · 2^exponent`. -/
def exact (mantissa : Nat) (exponent : Int) : Decimal :=
  ⟨mantissa * Nat.pow 2 exponent.toNat * Nat.pow 5 (-exponent).toNat, min exponent 0⟩

/-- The first neighbour that reads back as `x`, over grids of `count`, `count + 1`, … digits. -/
def search (x : Binary64) (negative : Bool) (num den : Nat) (top : Int) : Nat → Nat → Option Decimal
  | 0, _ => none
  | fuel + 1, count =>
    match (neighbours num den (top - count + 1)).find?
        (fun d => Binary64.ofDecimal negative d.digits d.exponent = x) with
    | some d => some d
    | none => search x negative num den top fuel (count + 1)

/-- The shortest decimal that reads back as a finite number other than zero. -/
def shortest (negative : Bool) (mantissa : Nat) (exponent : Int)
    (h : CanonicalFloat mantissa exponent) : Decimal :=
  let (num, den) := Binary64.magnitude mantissa exponent
  let x := Binary64.finite negative mantissa exponent h
  match search x negative num den (floorLog10 num den) 17 1 with
  | some d => trim 400 d
  | none => exact mantissa exponent

/-- A decimal as text: positional, with at least one digit on each side of the point, while its
leading digit stands between `10^-4` and `10^15`; otherwise with an exponent of at least two
digits. -/
def write (d : Decimal) : List Char :=
  let ds := Digits.digits d.digits
  let lead := d.exponent + ds.length - 1
  if -4 ≤ lead ∧ lead < 16 then
    if d.exponent ≥ 0 then ds ++ List.replicate d.exponent.toNat '0' ++ ['.', '0']
    else if lead < 0 then
      ['0', '.'] ++ List.replicate (-lead - 1).toNat '0' ++ ds
    else
      ds.take (lead + 1).toNat ++ '.' :: ds.drop (lead + 1).toNat
  else
    let sign := if lead < 0 then '-' else '+'
    let fraction := match ds.drop 1 with
      | [] => []
      | rest => '.' :: rest
    ds.take 1 ++ fraction ++ 'e' :: sign :: Digits.padded 2 lead.natAbs

end Decimal

/-- The words a notation has for the numbers that no digits express. -/
structure FloatStyle where
  nan : List Char
  infinity : List Char

def Binary64.write (style : FloatStyle) : Binary64 → List Char
  | .nan => style.nan
  | .infinite negative => (if negative then ['-'] else []) ++ style.infinity
  | .finite negative m e h =>
    (if negative then ['-'] else []) ++
      (if m = 0 then ['0', '.', '0'] else (Decimal.shortest negative m e h).write)

end Conform
