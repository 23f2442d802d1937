import Conform.Yaml.Token.Basic
import Conform.Text.Pattern
import Conform.Text.Base64
import Conform.Number.Reading
import Conform.Value.Basic
import Conform.Calendar.Iso

/-!
# What scalars of YAML 1.1 stand for

A tag says what a node stands for.  A plain scalar without one gets it from its looks
(`Tag.ofPlain`): a truth value, a number, null, a timestamp, one of two special marks, or text.

`Tag.readScalar` gives the value of a scalar under a tag.  A scalar that was tagged by hand need not
look the part, so reading is more liberal than recognising, and can fail in its own ways.
-/

namespace Conform.Yaml

inductive Tag where
  | null | bool | int | float | binary | timestamp | str
  | seq | map | set | omap | pairs
  /-- The mark of a key whose value is merged into the map. -/
  | merge
  /-- The mark of a key whose value stands for the map. -/
  | value
  | unknown
deriving DecidableEq

namespace Tag

def ofName (name : List Char) : Tag :=
  let known : List (String × Tag) := [
    ("null", .null), ("bool", .bool), ("int", .int), ("float", .float), ("binary", .binary),
    ("timestamp", .timestamp), ("str", .str), ("seq", .seq), ("map", .map), ("set", .set),
    ("omap", .omap), ("pairs", .pairs), ("merge", .merge), ("value", .value)]
  match known.find? fun k => ("tag:yaml.org,2002:" ++ k.1).toList == name with
  | some (_, tag) => tag
  | none => .unknown

/-! ## The looks of plain scalars -/

/-- Digits of a base with underscores among them. -/
def digitsOf (accepts : Char → Bool) : Pattern := .one fun c => accepts c || c == '_'

def digit : Pattern := .one Digits.isDigit

def leadingDigit : Pattern := .one fun c => '1' ≤ c && c ≤ '9'

/-- A digit of base ten or an underscore. -/
def digitOrGap : Pattern := digitsOf Digits.isDigit

def sign : Pattern := .opt (.one fun c => c == '-' || c == '+')

def mark (c : Char) : Pattern := .one (· == c)

/-- A colon and a number below sixty, at least once. -/
def sixties : Pattern :=
  .plus (.all [mark ':', .opt (.one fun c => '0' ≤ c && c ≤ '5'), digit])

def exponent : Pattern :=
  .all [.one (fun c => c == 'e' || c == 'E'), .one (fun c => c == '-' || c == '+'), .plus digit]

def boolLooks : Pattern :=
  .words ["yes", "Yes", "YES", "no", "No", "NO", "true", "True", "TRUE", "false", "False", "FALSE",
    "on", "On", "ON", "off", "Off", "OFF"]

/-- Floating-point numbers: with a point, in base sixty with a point, or a special word. -/
def floatLooks : Pattern :=
  .any [
    .all [sign, digit, .star digitOrGap, mark '.', .star digitOrGap, .opt exponent],
    .all [mark '.', digit, .star digitOrGap, .opt exponent],
    .all [sign, digit, .star digitOrGap, sixties, mark '.', .star digitOrGap],
    .all [sign, .words [".inf", ".Inf", ".INF"]],
    .words [".nan", ".NaN", ".NAN"]]

/-- Integers in base two, eight, ten, sixteen and sixty. -/
def intLooks : Pattern :=
  .any [
    .all [sign, .text "0b", .plus (digitsOf fun c => c == '0' || c == '1')],
    .all [sign, mark '0', .plus (digitsOf fun c => '0' ≤ c && c ≤ '7')],
    .all [sign, mark '0'],
    .all [sign, leadingDigit, .star digitOrGap],
    .all [sign, .text "0x", .plus (digitsOf Digits.isHexDigit)],
    .all [sign, leadingDigit, .star digitOrGap, sixties]]

def shortNumber : Pattern := .seq digit (.opt digit)

def twoDigits : Pattern := .seq digit digit

def blank : Pattern := .one fun c => c == ' ' || c == '\t'

/-- Dates, and dates with a time of day and perhaps an offset. -/
def timestampLooks : Pattern :=
  let year : Pattern := .all [digit, digit, digit, digit]
  .any [
    .all [year, mark '-', twoDigits, mark '-', twoDigits],
    .all [year, mark '-', shortNumber, mark '-', shortNumber,
      .alt (.one fun c => c == 'T' || c == 't') (.plus blank),
      shortNumber, mark ':', twoDigits, mark ':', twoDigits,
      .opt (.seq (mark '.') (.star digit)),
      .opt (.seq (.star blank) (.alt (mark 'Z')
        (.all [.one (fun c => c == '-' || c == '+'), shortNumber,
          .opt (.seq (mark ':') twoDigits)])))]]

/-- The looks of scalars that are no text, in the order in which they are tried.  A line feed at the
end does not count. -/
def looks : List (Pattern × Tag) :=
  [(boolLooks, .bool), (floatLooks, .float), (intLooks, .int), (.text "<<", .merge),
    (.words ["~", "null", "Null", "NULL"], .null), (timestampLooks, .timestamp),
    (.text "=", .value)]

def ofPlain (text : List Char) : Tag :=
  if text.isEmpty then .null
  else match looks.find? fun l => (Pattern.seq l.1 (.opt (mark '\n'))).fits text with
    | some (_, tag) => tag
    | none => .str

/-! ## The values of scalars -/

/-- A truth value by its word in any case. -/
def readBool (text : List Char) : Except Fault Value :=
  match String.ofList (text.map Char.toLower) with
  | "yes" | "true" | "on" => .ok (.bool true)
  | "no" | "false" | "off" => .ok (.bool false)
  | _ => .error .notATruthValue

def splitColons : List Char → List (List Char)
  | [] => [[]]
  | c :: rest =>
    match splitColons rest with
    | part :: parts => if c == ':' then [] :: part :: parts else (c :: part) :: parts
    | [] => [[c]]

/-- An integer in a base, or the fault that there is none. -/
def readDigits (base : Nat) (text : List Char) : Except Fault Int :=
  match Number.readInt? base text with
  | some n => .ok n
  | none => .error .notANumber

def readInt (text : List Char) : Except Fault Value := do
  let text := text.filter (· != '_')
  if text.isEmpty then .error .emptyNumber
  else
    let (negative, digits) := Number.splitSign text
    let n : Int ←
      match digits with
      | [] => .error .emptyNumber
      | ['0'] => pure 0
      | '0' :: 'b' :: rest => readDigits 2 rest
      | '0' :: 'x' :: rest => readDigits 16 rest
      | '0' :: rest => readDigits 8 ('0' :: rest)
      | digits =>
        if digits.contains ':' then do
          let parts ← (splitColons digits).mapM (readDigits 10)
          pure (parts.foldl (fun n part => n * 60 + part) 0)
        else readDigits 10 digits
    return .int (if negative then -n else n)

/-- The sum of numbers times powers of sixty, the last number first. -/
def sumOfSixties : Nat → Binary64 → List Binary64 → Except Fault Binary64
  | _, sum, [] => .ok sum
  | power, sum, part :: parts =>
    match Binary64.ofInt power with
    | .infinite _ => .error .tooLarge
    | weight => sumOfSixties (power * 60) (sum.add (part.mul weight)) parts

/-- A floating-point number, or the fault that there is none. -/
def readDecimal (text : List Char) : Except Fault Binary64 :=
  match Number.readFloat? text with
  | some x => .ok x
  | none => .error .notANumber

def readFloat (text : List Char) : Except Fault Value := do
  let text := (text.filter (· != '_')).map Char.toLower
  if text.isEmpty then .error .emptyNumber
  else
    let (negative, digits) := Number.splitSign text
    if digits == ".inf".toList then return .float (.infinite negative)
    else if digits == ".nan".toList then return .float .nan
    else
      let x ←
        if digits.contains ':' then do
          let parts ← (splitColons digits).mapM readDecimal
          sumOfSixties 1 (.zero false) parts.reverse
        else readDecimal digits
      return .float (if negative then x.negate else x)

/-- Bytes in base sixty-four; other characters among them do not count. -/
def readBinary (text : List Char) : Except Fault Value :=
  if text.any fun c => 0x7F < c.toNat then .error .malformed
  else match Text.Base64.decode? text with
    | some octets => .ok (.bytes octets)
    | none => .error .malformed

def oneOrTwo? (cs : List Char) : Option (Nat × List Char) :=
  let ds := (cs.take 2).takeWhile Digits.isDigit
  if ds.isEmpty then none else some (Digits.ofDigits 10 ds, cs.drop ds.length)

/-- The sign and size in minutes of an offset at the front. -/
def offsetMinutes? (negative : Bool) (cs : List Char) : Option Int := do
  let (hours, rest) ← oneOrTwo? cs
  let minutes := match rest with
    | ':' :: rest => Digits.ofDigits 10 (rest.takeWhile Digits.isDigit)
    | _ => 0
  let size : Int := hours * 60 + minutes
  return if negative then -size else size

/-- The offset at the end of a timestamp, none if there is no mark of one. -/
def readOffset (cs : List Char) : Except Fault (Option Offset) :=
  let make (minutes? : Option Int) : Except Fault (Option Offset) :=
    match minutes?.bind Offset.make? with
    | some offset => .ok (some offset)
    | none => .error .impossibleTimestamp
  match cs.dropWhile fun c => c == ' ' || c == '\t' with
  | 'Z' :: _ => .ok (some .utc)
  | '+' :: rest => make (offsetMinutes? false rest)
  | '-' :: rest => make (offsetMinutes? true rest)
  | _ => .ok none

/-- The numbers of a date at the front: year, month and day. -/
def dateNumbers? (cs : List Char) : Option ((Nat × Nat × Nat) × List Char) := do
  let year := Digits.ofDigits 10 (cs.take 4)
  match cs.drop 4 with
  | '-' :: rest => do
    let (month, rest) ← oneOrTwo? rest
    match rest with
    | '-' :: rest => do
      let (day, rest) ← oneOrTwo? rest
      return ((year, month, day), rest)
    | _ => none
  | _ => none

/-- The numbers of a time of day at the front: hour, minute, second and microseconds. -/
def clockNumbers? (cs : List Char) : Option ((Nat × Nat × Nat × Nat) × List Char) := do
  let (hour, rest) ← oneOrTwo? cs
  let (minute, rest) ← oneOrTwo? (rest.drop 1)
  let (second, rest) ← oneOrTwo? (rest.drop 1)
  match rest with
  | '.' :: rest =>
    let fraction := rest.takeWhile Digits.isDigit
    return ((hour, minute, second, Moment.microsOfFraction fraction), rest.dropWhile Digits.isDigit)
  | rest => return ((hour, minute, second, 0), rest)

/-- A date with one digit or two for month and day, and a time of day only if one follows. -/
def timestampForm : Pattern :=
  let date : Pattern :=
    .all [digit, digit, digit, digit, mark '-', shortNumber, mark '-', shortNumber]
  .all [.alt timestampLooks date, .opt (mark '\n')]

def readTimestamp (text : List Char) : Except Fault Value :=
  if !timestampForm.fits text then .error .notATimestamp
  else
    match dateNumbers? text with
    | none => .error .notATimestamp
    | some ((year, month, day), rest) =>
      match clockNumbers? (rest.dropWhile fun c => "Tt \t".toList.contains c) with
      | none =>
        match Date.make? year month day with
        | some date => .ok (.date date)
        | none => .error .impossibleTimestamp
      | some ((hour, minute, second, micro), rest) => do
        let offset ← readOffset rest
        match Date.make? year month day, Clock.make? hour minute second micro with
        | some date, some clock => return .moment ⟨date, clock, offset⟩
        | _, _ => .error .impossibleTimestamp

/-- The value of a scalar under a tag for scalars; a tag for collections has none. -/
def readScalar (tag : Tag) (text : List Char) : Except Fault Value :=
  match tag with
  | .null => .ok .null
  | .bool => readBool text
  | .int => readInt text
  | .float => readFloat text
  | .binary => readBinary text
  | .timestamp => readTimestamp text
  | .str => .ok (.text (String.ofList text))
  | _ => .error .malformed

end Tag

end Conform.Yaml
