import Conform.Value.Basic
import Conform.Number.Digits

/-!
# Reading JSON

`Json.parse` reads a JSON text as a value.  Besides the standard's grammar it knows the words `NaN`,
`Infinity` and `-Infinity`.  Where a key comes twice the last value counts, in the place of the
first.

A fault remembers what is left of the text where it shows; its position follows from the length.
Half of a surrogate pair stands for no character and is read as the replacement character.
-/

namespace Conform.Json

/-- What is wrong with a JSON text. -/
inductive Problem where
  | expectingValue
  | expectingName
  | expectingColon
  | expectingComma
  | extraData
  | unterminatedString
  | controlCharacter
  | badEscape
  | badUnicodeEscape
  | byteOrderMark
  /-- An integer has more digits than can be read. -/
  | numeral
deriving DecidableEq

/-- A problem, and what is left of the text from there on. -/
structure Fault where
  problem : Problem
  rest : List Char
deriving DecidableEq

/-- A reader takes the front of a text and leaves the rest. -/
abbrev Result (α : Type) := Except Fault (α × List Char)

/-! ## Blanks and strings -/

/-- Is the character white space between JSON tokens? -/
def isBlank (c : Char) : Bool := c == ' ' || c == '\t' || c == '\n' || c == '\r'

/-- The text without white space at its front. -/
def skipBlanks (cs : List Char) : List Char := cs.dropWhile isBlank

/-- The character that a one-letter escape stands for. -/
def escaped? : Char → Option Char
  | '"' => some '"'
  | '\\' => some '\\'
  | '/' => some '/'
  | 'b' => some '\x08'
  | 'f' => some '\x0c'
  | 'n' => some '\n'
  | 'r' => some '\r'
  | 't' => some '\t'
  | _ => none

/-- Is the number the first half of a surrogate pair? -/
def isHighSurrogate (n : Nat) : Bool := 0xD800 ≤ n && n < 0xDC00

/-- Is the number the second half of a surrogate pair? -/
def isLowSurrogate (n : Nat) : Bool := 0xDC00 ≤ n && n < 0xE000

def charOfPair (high low : Nat) : Char :=
  Char.ofNat (0x10000 + (high - 0xD800) * 0x400 + (low - 0xDC00))

/-- The characters read so far, in reverse, when the first half of a pair stays alone. -/
def settle (half : Option Nat) (done : List Char) : List Char :=
  if half.isSome then '\uFFFD' :: done else done

/-- The characters of a string up to its closing quote.  `start` is the text from the opening quote
on, `half` the first half of a surrogate pair if one was just read, `done` the characters before,
in reverse. -/
def readString (start : List Char) (half : Option Nat) (done : List Char) :
    List Char → Result (List Char)
  | [] => .error ⟨.unterminatedString, start⟩
  | '"' :: rest => .ok ((settle half done).reverse, rest)
  | ['\\'] => .error ⟨.unterminatedString, start⟩
  | '\\' :: 'u' :: a :: b :: c :: d :: rest =>
    match Digits.ofDigits? 16 [a, b, c, d] with
    | none => .error ⟨.badUnicodeEscape, 'u' :: a :: b :: c :: d :: rest⟩
    | some unit =>
      if rest.isEmpty then .error ⟨.badUnicodeEscape, ['u', a, b, c, d]⟩
      else match half with
        | some high =>
          if isLowSurrogate unit then readString start none (charOfPair high unit :: done) rest
          else if isHighSurrogate unit then readString start (some unit) (settle half done) rest
          else readString start none (Char.ofNat unit :: settle half done) rest
        | none =>
          if isHighSurrogate unit then readString start (some unit) done rest
          else if isLowSurrogate unit then readString start none ('\uFFFD' :: done) rest
          else readString start none (Char.ofNat unit :: done) rest
  | '\\' :: c :: rest =>
    match escaped? c with
    | some e => readString start none (e :: settle half done) rest
    | none =>
      if c = 'u' then .error ⟨.badUnicodeEscape, c :: rest⟩
      else .error ⟨.badEscape, '\\' :: c :: rest⟩
  | c :: rest =>
    if c.toNat < 0x20 then .error ⟨.controlCharacter, c :: rest⟩
    else readString start none (c :: settle half done) rest
termination_by structural cs => cs

/-! ## Numbers -/

/-- The digits of the whole part: a zero alone, or digits that do not start with one. -/
def wholePart : List Char → List Char
  | '0' :: _ => ['0']
  | cs => cs.takeWhile Digits.isDigit

/-- A point and digits, if at least one digit follows the point. -/
def fractionPart : List Char → List Char
  | '.' :: rest => rest.takeWhile Digits.isDigit
  | _ => []

/-- The sign and digits of an exponent with the number of characters it takes; `0` characters if
there is none. -/
def exponentPart : List Char → Int × Nat
  | e :: rest =>
    if e = 'e' ∨ e = 'E' then
      let (negative, signed, digits) := match rest with
        | '-' :: rest => (true, 1, rest.takeWhile Digits.isDigit)
        | '+' :: rest => (false, 1, rest.takeWhile Digits.isDigit)
        | rest => (false, 0, rest.takeWhile Digits.isDigit)
      if digits = [] then (0, 0)
      else
        let n : Int := Digits.ofDigits 10 digits
        (if negative then -n else n, 1 + signed + digits.length)
    else (0, 0)
  | [] => (0, 0)

/-- A number at the front.  Without point and exponent it is an integer. -/
def readNumber (start : List Char) : Result Value :=
  let (negative, cs) := match start with
    | '-' :: rest => (true, rest)
    | cs => (false, cs)
  let whole := wholePart cs
  if whole = [] then .error ⟨.expectingValue, start⟩
  else
    let rest := cs.drop whole.length
    let fraction := fractionPart rest
    let rest := if fraction = [] then rest else rest.drop (fraction.length + 1)
    let (exponent, width) := exponentPart rest
    if fraction = [] ∧ width = 0 then
      if Digits.limit < whole.length then .error ⟨.numeral, start⟩
      else
        let n : Int := Digits.ofDigits 10 whole
        .ok (.int (if negative then -n else n), rest)
    else
      .ok (.float (Binary64.ofDecimal negative (Digits.ofDigits 10 (whole ++ fraction))
        (exponent - fraction.length)), rest.drop width)

/-! ## Values -/

mutual
/-- A value at the front, in at most so many nested steps. -/
def readValue : Nat → List Char → Result Value
  | 0, cs => .error ⟨.expectingValue, cs⟩
  | steps + 1, cs =>
    match cs with
    | '"' :: rest => (readString cs none [] rest).map fun r => (.text (String.ofList r.1), r.2)
    | '[' :: rest =>
      match skipBlanks rest with
      | ']' :: rest => .ok (.list [], rest)
      | rest => (readItems steps rest).map fun r => (.list r.1, r.2)
    | '{' :: rest =>
      match skipBlanks rest with
      | '}' :: rest => .ok (.map [], rest)
      | rest => (readEntries steps rest).map fun r => (Value.ofEntries r.1, r.2)
    | 'n' :: 'u' :: 'l' :: 'l' :: rest => .ok (.null, rest)
    | 't' :: 'r' :: 'u' :: 'e' :: rest => .ok (.bool true, rest)
    | 'f' :: 'a' :: 'l' :: 's' :: 'e' :: rest => .ok (.bool false, rest)
    | 'N' :: 'a' :: 'N' :: rest => .ok (.float .nan, rest)
    | 'I' :: 'n' :: 'f' :: 'i' :: 'n' :: 'i' :: 't' :: 'y' :: rest =>
      .ok (.float (.infinite false), rest)
    | '-' :: 'I' :: 'n' :: 'f' :: 'i' :: 'n' :: 'i' :: 't' :: 'y' :: rest =>
      .ok (.float (.infinite true), rest)
    | cs => readNumber cs

/-- The items of an array up to its closing bracket. -/
def readItems : Nat → List Char → Result (List Value)
  | 0, cs => .error ⟨.expectingValue, cs⟩
  | steps + 1, cs =>
    match readValue steps cs with
    | .error fault => .error fault
    | .ok (v, rest) =>
      match skipBlanks rest with
      | ']' :: rest => .ok ([v], rest)
      | ',' :: rest => (readItems steps (skipBlanks rest)).map fun r => (v :: r.1, r.2)
      | rest => .error ⟨.expectingComma, rest⟩

/-- The entries of an object up to its closing brace. -/
def readEntries : Nat → List Char → Result (List (Value × Value))
  | 0, cs => .error ⟨.expectingName, cs⟩
  | steps + 1, cs =>
    match cs with
    | '"' :: rest =>
      match readString cs none [] rest with
      | .error fault => .error fault
      | .ok (key, rest) =>
        match skipBlanks rest with
        | ':' :: rest =>
          match readValue steps (skipBlanks rest) with
          | .error fault => .error fault
          | .ok (v, rest) =>
            let entry := (Value.text (String.ofList key), v)
            match skipBlanks rest with
            | '}' :: rest => .ok ([entry], rest)
            | ',' :: rest => (readEntries steps (skipBlanks rest)).map fun r => (entry :: r.1, r.2)
            | rest => .error ⟨.expectingComma, rest⟩
        | rest => .error ⟨.expectingColon, rest⟩
    | cs => .error ⟨.expectingName, cs⟩
end

/-- Reads a whole text.  Of two nested steps one takes a character, so twice the length bounds
them. -/
def parse (cs : List Char) : Except Fault Value :=
  match cs with
  | '\uFEFF' :: _ => .error ⟨.byteOrderMark, cs⟩
  | cs =>
    match readValue (2 * cs.length + 2) (skipBlanks cs) with
    | .error fault => .error fault
    | .ok (v, rest) =>
      match skipBlanks rest with
      | [] => .ok v
      | rest => .error ⟨.extraData, rest⟩

/-! ## Messages -/

def Problem.name : Problem → String
  | .expectingValue => "Expecting value"
  | .expectingName => "Expecting property name enclosed in double quotes"
  | .expectingColon => "Expecting ':' delimiter"
  | .expectingComma => "Expecting ',' delimiter"
  | .extraData => "Extra data"
  | .unterminatedString => "Unterminated string starting at"
  | .controlCharacter => "Invalid control character at"
  | .badEscape => "Invalid \\escape"
  | .badUnicodeEscape => "Invalid \\uXXXX escape"
  | .byteOrderMark => "Unexpected UTF-8 BOM (decode using utf-8-sig)"
  | .numeral => "Too many digits"

/-- A fault in a text in words: line and column count from one, the character from zero. -/
def Fault.message (text : List Char) (f : Fault) : String :=
  let position := text.length - f.rest.length
  let before := text.take position
  let line := before.count '\n' + 1
  let column := (before.reverse.takeWhile (· != '\n')).length + 1
  f.problem.name ++ ": line " ++ toString line ++ " column " ++ toString column ++
    " (char " ++ toString position ++ ")"

end Conform.Json
