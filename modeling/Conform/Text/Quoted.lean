import Conform.Text.Printable
import Conform.Number.Digits

/-!
# Quoted text

The quoted form of a text or of a row of bytes in which every character can be seen.  The quote is
the apostrophe, unless the text has one and has no double quote.  The quote itself, the backslash,
line feed, carriage return and tab have short escapes; what has no visible form is written by its
number, in the shortest of three widths.
-/

namespace Conform.Text

def quoteFor (cs : List Char) : Char := if '\'' ∈ cs ∧ '"' ∉ cs then '"' else '\''

def numbered (c : Char) : List Char :=
  let n := c.toNat
  if n < 0x100 then '\\' :: 'x' :: Digits.paddedHex 2 n
  else if n < 0x10000 then '\\' :: 'u' :: Digits.paddedHex 4 n
  else '\\' :: 'U' :: Digits.paddedHex 8 n

/-- A character between quotes, escaped if it has to be. -/
def visible (quote : Char) (shown : Char → Bool) (c : Char) : List Char :=
  match c with
  | '\\' => ['\\', '\\']
  | '\n' => ['\\', 'n']
  | '\r' => ['\\', 'r']
  | '\t' => ['\\', 't']
  | c => if c = quote then ['\\', c] else if shown c then [c] else numbered c

def quoted (cs : List Char) : List Char :=
  let quote := quoteFor cs
  quote :: (cs.flatMap (visible quote isPrintable) ++ [quote])

/-- A row of bytes in quotes, marked by a `b`; only visible ASCII stands for itself. -/
def quotedBytes (octets : List UInt8) : List Char :=
  let cs := octets.map fun b => Char.ofNat b.toNat
  let quote := quoteFor cs
  'b' :: quote ::
    (cs.flatMap (visible quote fun c => 0x20 ≤ c.toNat && c.toNat < 0x7F) ++ [quote])

end Conform.Text
