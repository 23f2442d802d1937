import Conform.Calendar.Basic
import Conform.Number.Digits

/-!
# The written form of dates and moments

`Date.iso` and `Moment.iso` write `YYYY-MM-DD` and `YYYY-MM-DDTHH:MM:SS`, microseconds only if
there are any, then the offset as `+HH:MM`.

`Moment.ofIso?` reads more than is written: seconds may be left out, the fraction may have any
number of digits (those after the sixth are dropped), four characters may stand between date and
time, and universal time may be a `Z`.  It reads the whole text or nothing; there is no surrounding
blank and no shorter number.
-/

namespace Conform

open Digits

namespace Date

/-- `YYYY-MM-DD`. -/
def iso (d : Date) : List Char :=
  padded 4 d.year ++ '-' :: padded 2 d.month ++ '-' :: padded 2 d.day

end Date

namespace Clock

/-- `HH:MM:SS`, and the microseconds unless they are zero. -/
def iso (c : Clock) : List Char :=
  padded 2 c.hour ++ ':' :: padded 2 c.minute ++ ':' :: padded 2 c.second ++
    if c.micro = 0 then [] else '.' :: padded 6 c.micro

end Clock

namespace Offset

/-- `+HH:MM` or `-HH:MM`. -/
def iso (o : Offset) : List Char :=
  (if o.minutes < 0 then '-' else '+') ::
    (padded 2 (o.minutes.natAbs / 60) ++ ':' :: padded 2 (o.minutes.natAbs % 60))

end Offset

namespace Moment

/-- The written form with a chosen character between date and time. -/
def isoWith (separator : Char) (m : Moment) : List Char :=
  m.date.iso ++ separator :: m.clock.iso ++ (m.offset.map Offset.iso).getD []

def iso (m : Moment) : List Char := m.isoWith 'T'

/-! ## Reading -/

/-- Exactly two digits at the front. -/
def twoDigits? : List Char → Option (Nat × List Char)
  | a :: b :: rest => if isDigit a && isDigit b then some (ofDigits 10 [a, b], rest) else none
  | _ => none

/-- `YYYY-MM-DD` at the front. -/
def date? : List Char → Option (Date × List Char)
  | a :: b :: c :: d :: '-' :: rest =>
    if isDigit a && isDigit b && isDigit c && isDigit d then do
      let (month, rest) ← twoDigits? rest
      match rest with
      | '-' :: rest => do
        let (day, rest) ← twoDigits? rest
        let date ← Date.make? (ofDigits 10 [a, b, c, d]) month day
        return (date, rest)
      | _ => none
    else none
  | _ => none

/-- The first six digits of a fraction, filled up with zeros, as microseconds. -/
def microsOfFraction (ds : List Char) : Nat :=
  ofDigits 10 (ds.take 6 ++ List.replicate (6 - ds.length) '0')

/-- `HH:MM`, `HH:MM:SS` or `HH:MM:SS.f…` at the front; a comma may stand for the point. -/
def clock? (cs : List Char) : Option (Clock × List Char) := do
  let (hour, rest) ← twoDigits? cs
  match rest with
  | ':' :: rest => do
    let (minute, rest) ← twoDigits? rest
    match rest with
    | ':' :: rest => do
      let (second, rest) ← twoDigits? rest
      match rest with
      | '.' :: rest | ',' :: rest =>
        let fraction := rest.takeWhile isDigit
        if fraction = [] then none
        else do
          let clock ← Clock.make? hour minute second (microsOfFraction fraction)
          return (clock, rest.dropWhile isDigit)
      | rest => do
        let clock ← Clock.make? hour minute second 0
        return (clock, rest)
    | rest => do
      let clock ← Clock.make? hour minute 0 0
      return (clock, rest)
  | _ => none

/-- Hours and minutes of an offset, with or without a colon, to the end of the text. -/
def offsetSize? (cs : List Char) : Option Nat := do
  let (hours, rest) ← twoDigits? cs
  let rest := match rest with
    | ':' :: rest => rest
    | rest => rest
  let (minutes, rest) ← twoDigits? rest
  if rest = [] ∧ hours ≤ 23 ∧ minutes ≤ 59 then some (hours * 60 + minutes) else none

/-- Nothing, a `Z`, or a sign and an offset, to the end of the text.  The sign may be a hyphen or
the minus sign U+2212. -/
def offset? : List Char → Option (Option Offset)
  | [] => some none
  | ['Z'] | ['z'] => some (some .utc)
  | '+' :: rest => do
    let size ← offsetSize? rest
    let offset ← Offset.make? size
    return some offset
  | '-' :: rest | '\u2212' :: rest => do
    let size ← offsetSize? rest
    let offset ← Offset.make? (-(size : Int))
    return some offset
  | _ => none

/-- Reads a date, or a date and a time with an optional offset. -/
def ofIso? (cs : List Char) : Option Moment := do
  let (date, rest) ← date? cs
  match rest with
  | [] => return .ofDate date
  | separator :: rest =>
    if separator ∈ ['T', 't', ' ', '_'] then do
      let (clock, rest) ← clock? rest
      let offset ← offset? rest
      return ⟨date, clock, offset⟩
    else none

end Moment

end Conform
