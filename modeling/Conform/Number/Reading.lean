import Conform.Number.Binary64
import Conform.Number.Digits
import Conform.Text.Blank

/-!
# Reading numbers written by hand

`readInt?` and `readFloat?` accept a number with white space around it, a sign, decimal digits of
any script, and single underscores between digits.  They are more liberal than any document
notation, and serve where a text is declared to be a number: a tag in a document, or an option on a
command line.
-/

namespace Conform.Number

/-- A decimal digit of any script as its ASCII digit; other characters stay. -/
def toAscii (c : Char) : Char :=
  match Text.decimalValue? c with
  | some d => Char.ofNat ('0'.toNat + d)
  | none => c

/-- The text without the underscores between its digits, if each stands between two digits. -/
def dropUnderscores? (isDigit : Char → Bool) : List Char → Option (List Char)
  | a :: '_' :: b :: rest =>
    if isDigit a && isDigit b then (dropUnderscores? isDigit (b :: rest)).map (a :: ·) else none
  | a :: rest => if a = '_' then none else (dropUnderscores? isDigit rest).map (a :: ·)
  | [] => some []

/-- A sign and what follows it; `true` means minus. -/
def splitSign : List Char → Bool × List Char
  | '-' :: rest => (true, rest)
  | '+' :: rest => (false, rest)
  | cs => (false, cs)

/-- The text without the mark of its base, `0b`, `0o` or `0x`; an underscore may follow it. -/
def dropBaseMark (base : Nat) (cs : List Char) : List Char :=
  let rest? := match base, cs with
    | 2, '0' :: 'b' :: rest | 2, '0' :: 'B' :: rest => some rest
    | 8, '0' :: 'o' :: rest | 8, '0' :: 'O' :: rest => some rest
    | 16, '0' :: 'x' :: rest | 16, '0' :: 'X' :: rest => some rest
    | _, _ => none
  match rest? with
  | some ('_' :: rest) => rest
  | some rest => rest
  | none => cs

/-- An integer in a base.  In base ten its digits may not be too many. -/
def readInt? (base : Nat) (cs : List Char) : Option Int := do
  let (negative, rest) := splitSign ((Text.strip cs).map toAscii)
  let isDigit (c : Char) : Bool := (Digits.ofDigits? base [c]).isSome
  let digits ← dropUnderscores? isDigit (dropBaseMark base rest)
  let n ← Digits.ofDigits? base digits
  if base = 10 ∧ Digits.limit < digits.length then none
  else return if negative then -(n : Int) else n

/-- The exponent of a decimal: nothing, or an `e`, a sign and digits. -/
def readExponent? : List Char → Option Int
  | [] => some 0
  | c :: rest =>
    if c = 'e' ∨ c = 'E' then
      let (negative, digits) := splitSign rest
      (Digits.ofDigits? 10 digits).map fun n => if negative then -(n : Int) else n
    else none

/-- A decimal without a sign: digits with a point somewhere among them or none, and an exponent. -/
def readDecimal? (negative : Bool) (cs : List Char) : Option Binary64 := do
  let whole := cs.takeWhile Digits.isDigit
  let rest := cs.dropWhile Digits.isDigit
  let (fraction, rest) := match rest with
    | '.' :: rest => (rest.takeWhile Digits.isDigit, rest.dropWhile Digits.isDigit)
    | rest => ([], rest)
  let digits ← Digits.ofDigits? 10 (whole ++ fraction)
  let exponent ← readExponent? rest
  return Binary64.ofDecimal negative digits (exponent - fraction.length)

def readFloat? (cs : List Char) : Option Binary64 := do
  let cs ← dropUnderscores? Digits.isDigit ((Text.strip cs).map toAscii)
  let (negative, rest) := splitSign cs
  match String.ofList (rest.map Char.toLower) with
  | "inf" | "infinity" => return .infinite negative
  | "nan" => return .nan
  | _ => readDecimal? negative rest

end Conform.Number
