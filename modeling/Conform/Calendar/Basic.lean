/-!
# Dates, times of day and moments

The proleptic Gregorian calendar of the years 1 to 9999.  Each type carries its own validity, so a
`Moment` is always one that exists: a real day, a time of day to the microsecond, and either no
offset from universal time or one of whole minutes below a day.

`Moment.instant?` places a moment with an offset on one line, which is how two of them compare.
-/

namespace Conform

/-- Leap years: every fourth, except the centuries that four hundred does not divide. -/
def isLeapYear (year : Nat) : Bool := year % 4 == 0 && (year % 100 != 0 || year % 400 == 0)

/-- The number of days of a month, `0` for what is no month. -/
def daysInMonth (year month : Nat) : Nat :=
  match month with
  | 2 => if isLeapYear year then 29 else 28
  | 4 | 6 | 9 | 11 => 30
  | 1 | 3 | 5 | 7 | 8 | 10 | 12 => 31
  | _ => 0

structure Date where
  year : Nat
  month : Nat
  day : Nat
  year_pos : 1 ≤ year
  year_le : year ≤ 9999
  day_pos : 1 ≤ day
  day_le : day ≤ daysInMonth year month
deriving DecidableEq

/-- A time of day, without leap seconds. -/
structure Clock where
  hour : Nat
  minute : Nat
  second : Nat
  micro : Nat
  hour_lt : hour < 24
  minute_lt : minute < 60
  second_lt : second < 60
  micro_lt : micro < 1000000
deriving DecidableEq

/-- A distance from universal time in minutes, east positive, less than a day. -/
structure Offset where
  minutes : Int
  small : minutes.natAbs < 1440
deriving DecidableEq

/-- A day and a time of day, with or without a distance from universal time. -/
structure Moment where
  date : Date
  clock : Clock
  offset : Option Offset
deriving DecidableEq

namespace Date

/-- The day with these numbers, if the calendar has it. -/
def make? (year month day : Nat) : Option Date :=
  if h : 1 ≤ year ∧ year ≤ 9999 ∧ 1 ≤ day ∧ day ≤ daysInMonth year month then
    some ⟨year, month, day, h.1, h.2.1, h.2.2.1, h.2.2.2⟩
  else none

/-- The number of days in the months before one of a year. -/
def daysBeforeMonth (year : Nat) : Nat → Nat
  | 0 => 0
  | month + 1 => daysBeforeMonth year month + daysInMonth year month

/-- Days counted from the first of January of year 1, which is day 1. -/
def ordinal (d : Date) : Nat :=
  let y := d.year - 1
  y * 365 + y / 4 - y / 100 + y / 400 + daysBeforeMonth d.year d.month + d.day

end Date

namespace Clock

/-- The time of day with these numbers, if they are in range. -/
def make? (hour minute second micro : Nat) : Option Clock :=
  if h : hour < 24 ∧ minute < 60 ∧ second < 60 ∧ micro < 1000000 then
    some ⟨hour, minute, second, micro, h.1, h.2.1, h.2.2.1, h.2.2.2⟩
  else none

def midnight : Clock := ⟨0, 0, 0, 0, by decide, by decide, by decide, by decide⟩

/-- Microseconds since midnight. -/
def micros (c : Clock) : Nat := ((c.hour * 60 + c.minute) * 60 + c.second) * 1000000 + c.micro

end Clock

namespace Offset

/-- The offset of so many minutes, if it is less than a day. -/
def make? (minutes : Int) : Option Offset :=
  if h : minutes.natAbs < 1440 then some ⟨minutes, h⟩ else none

def utc : Offset := ⟨0, by decide⟩

end Offset

namespace Moment

/-- The start of a day, without an offset. -/
def ofDate (d : Date) : Moment := ⟨d, .midnight, none⟩

/-- Microseconds from the start of the calendar in local time. -/
def wall (m : Moment) : Int := (m.date.ordinal * 86400000000 + m.clock.micros : Nat)

/-- Microseconds from the start of the calendar in universal time, if the offset is known. -/
def instant? (m : Moment) : Option Int := m.offset.map fun o => m.wall - o.minutes * 60000000

/-- Two moments are the same if both lack an offset and read the same, or both have one and are
the same instant. -/
def same (a b : Moment) : Bool :=
  match a.instant?, b.instant? with
  | some x, some y => x == y
  | none, none => a.wall == b.wall
  | _, _ => false

end Moment

end Conform
