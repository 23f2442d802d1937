/-!
# Digits of numbers

The text of a natural number or an integer in a base, and the number that a run of digits stands
for.  `ofDigits` reads what `digits` writes; `padded` writes a number in a fixed width, as dates and
escapes need it.
-/

namespace Conform.Digits

/-- The digits of a number in base ten, most significant first; `0` is one digit. -/
def digits (n : Nat) : List Char := Nat.toDigits 10 n

/-- The value of a letter or ASCII digit as a digit: `0` to `9`, then `a` to `z` in either case. -/
def digitValue? (c : Char) : Option Nat :=
  if '0' ≤ c ∧ c ≤ '9' then some (c.toNat - '0'.toNat)
  else if 'a' ≤ c ∧ c ≤ 'z' then some (c.toNat - 'a'.toNat + 10)
  else if 'A' ≤ c ∧ c ≤ 'Z' then some (c.toNat - 'A'.toNat + 10)
  else none

def isDigit (c : Char) : Bool := '0' ≤ c && c ≤ '9'

/-- Is the character a digit of base sixteen? -/
def isHexDigit (c : Char) : Bool :=
  isDigit c || ('a' ≤ c && c ≤ 'f') || ('A' ≤ c && c ≤ 'F')

/-- The number that digits of a base stand for; characters that are no digits count as zero. -/
def ofDigits (base : Nat) (cs : List Char) : Nat :=
  cs.foldl (fun n c => n * base + (digitValue? c).getD 0) 0

/-- The number that digits of a base stand for, if there is at least one and all are digits. -/
def ofDigits? (base : Nat) (cs : List Char) : Option Nat :=
  if cs ≠ [] ∧ cs.all (fun c => match digitValue? c with
      | some d => d < base
      | none => false) then some (ofDigits base cs)
  else none

/-- A number with zeros in front up to a width. -/
def padded (width : Nat) (n : Nat) : List Char :=
  let ds := digits n
  List.replicate (width - ds.length) '0' ++ ds

/-- A number in base sixteen, lower case, with zeros in front up to a width. -/
def paddedHex (width : Nat) (n : Nat) : List Char :=
  let ds := Nat.toDigits 16 n
  List.replicate (width - ds.length) '0' ++ ds

def ofInt : Int → List Char
  | .ofNat n => digits n
  | .negSucc n => '-' :: digits (n + 1)

/-- How many decimal digits a number may have to be read or written as text. -/
def limit : Nat := 4300

def withinLimit (n : Int) : Bool := decide (n.natAbs < Nat.pow 10 limit)

/-- Does the integer fit into a signed word of 64 bits? -/
def fitsWord (n : Int) : Bool := -9223372036854775808 ≤ n && n < 9223372036854775808

end Conform.Digits
