import Conform.Json.Printer
import Conform.Text.Quoted

/-!
# Values as they appear in messages

`Value.display?` shows a value to a reader: as JSON in ASCII if all of it can be JSON, and else,
the whole of it, in the literal notation, which has a form for every kind of value.  The absent
field is shown as the word `missing`.  A value with an integer too long to be written has no
display.

`Value.keyText` is the plain text of a map key: a text key stands for itself, a date is written in
ISO form, and any other key in the literal notation.
-/

namespace Conform.Value

open Conform.Text

/-- The words of the literal notation for the numbers that no digits express. -/
def literalWords : FloatStyle := ⟨"nan".toList, "inf".toList⟩

def commaSeparated : List (List Char) → List Char
  | [] => []
  | [x] => x
  | x :: xs => x ++ ',' :: ' ' :: commaSeparated xs

def literalDate (d : Date) : List Char :=
  "datetime.date(".toList ++
    commaSeparated ([d.year, d.month, d.day].map Digits.digits) ++ [')']

/-- An offset in the literal notation, as a count of seconds within a day. -/
def literalOffset (o : Offset) : List Char :=
  if o.minutes = 0 then "datetime.timezone.utc".toList
  else
    let size := if o.minutes < 0
      then "days=-1, seconds=".toList ++ Digits.ofInt (86400 + o.minutes * 60)
      else "seconds=".toList ++ Digits.ofInt (o.minutes * 60)
    "datetime.timezone(datetime.timedelta(".toList ++ size ++ "))".toList

/-- A moment in the literal notation; seconds and microseconds are left out from the end while they
are zero. -/
def literalMoment (m : Moment) : List Char :=
  let c := m.clock
  let fine := if c.micro = 0 then (if c.second = 0 then [] else [c.second]) else [c.second, c.micro]
  let numbers := [m.date.year, m.date.month, m.date.day, c.hour, c.minute] ++ fine
  let zone := match m.offset with
    | some o => ["tzinfo=".toList ++ literalOffset o]
    | none => []
  "datetime.datetime(".toList ++ commaSeparated (numbers.map Digits.digits ++ zone) ++ [')']

mutual
def literal : Value → List Char
  | .null => "None".toList
  | .bool b => (if b then "True" else "False").toList
  | .int n => Digits.ofInt n
  | .float x => x.write literalWords
  | .text s => quoted s.toList
  | .list xs => '[' :: (commaSeparated (literals xs) ++ [']'])
  | .tuple [x] => '(' :: (x.literal ++ [',', ')'])
  | .tuple xs => '(' :: (commaSeparated (literals xs) ++ [')'])
  | .map es => '{' :: (commaSeparated (literalEntries es) ++ ['}'])
  | .date d => literalDate d
  | .moment m => literalMoment m
  | .bytes octets => quotedBytes octets
  | .set [] => "set()".toList
  | .set xs => '{' :: (commaSeparated (literals xs) ++ ['}'])
  | .missing => "MISSING".toList

def literals : List Value → List (List Char)
  | [] => []
  | x :: xs => x.literal :: literals xs

def literalEntries : List (Value × Value) → List (List Char)
  | [] => []
  | (k, v) :: es => (k.literal ++ ':' :: ' ' :: v.literal) :: literalEntries es
end

/-- How a value without overlong integers is shown. -/
def displayText (v : Value) : List Char :=
  match v with
  | .missing => "missing".toList
  | v => match Json.write .message 0 v with
    | .ok cs => cs
    | .error _ => v.literal

/-- How a value is shown in a message, if it can be written. -/
def display? (v : Value) : Option String :=
  if v.isWritable then some (String.ofList v.displayText) else none

/-- The plain text of a key without overlong integers. -/
def keyChars : Value → List Char
  | .text s => s.toList
  | .date d => d.iso
  | .moment m => m.isoWith ' '
  | v => v.literal

/-- The plain text of a key, if it can be written. -/
def keyText? (v : Value) : Option String :=
  match v with
  | .text s => some s
  | v => if v.isWritable then some (String.ofList v.keyChars) else none

end Conform.Value
