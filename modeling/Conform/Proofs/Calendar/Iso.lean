import Conform.Calendar.Iso
import Conform.Proofs.Number.Digits
import Conform.Proofs.Text.Run

/-!
# Dates and moments read back

The written form of a moment reads as the moment (`ofIso?_iso`), and the written form of a day as
its first instant (`ofIso?_date_iso`).  Each part is read at the front of a longer text, so the
lemmas follow the parts of the text: numbers of fixed width, the day, the time of day, the offset.

The time of day may end with its seconds or with its microseconds; which of the two was written
shows in what follows, so `clock?_iso` asks that what follows is nothing or a sign.
-/

namespace Conform

open Digits

/-! ## Numbers of fixed width -/

namespace Digits

theorem length_padded {width n : Nat} (hwidth : 0 < width) (h : n < 10 ^ width) :
    (padded width n).length = width := by
  have hlength := (length_digits_le_iff hwidth).mpr h
  rw [padded, List.length_append, List.length_replicate]
  omega

theorem exists_padded_two {n : Nat} (h : n < 100) : ∃ a b, padded 2 n = [a, b] := by
  have hlength : (padded 2 n).length = 2 := length_padded (by decide) h
  match padded 2 n, hlength with
  | [a, b], _ => exact ⟨a, b, rfl⟩

theorem exists_padded_four {n : Nat} (h : n < 10000) : ∃ a b c d, padded 4 n = [a, b, c, d] := by
  have hlength : (padded 4 n).length = 4 := length_padded (by decide) h
  match padded 4 n, hlength with
  | [a, b, c, d], _ => exact ⟨a, b, c, d, rfl⟩

end Digits

/-! ## Days -/

namespace Date

variable (d : Date)

theorem month_lt : d.month < 100 := by
  have hpos : 1 ≤ daysInMonth d.year d.month := Nat.le_trans d.day_pos d.day_le
  unfold daysInMonth at hpos
  split at hpos <;> omega

theorem day_lt : d.day < 100 := by
  have hle : daysInMonth d.year d.month ≤ 31 := by
    unfold daysInMonth
    split
    · split <;> decide
    all_goals decide
  exact Nat.lt_of_le_of_lt (Nat.le_trans d.day_le hle) (by decide)

theorem make?_self : make? d.year d.month d.day = some d := by
  rw [make?, dif_pos ⟨d.year_pos, d.year_le, d.day_pos, d.day_le⟩]

end Date

theorem Clock.make?_self (c : Clock) : make? c.hour c.minute c.second c.micro = some c := by
  rw [make?, dif_pos ⟨c.hour_lt, c.minute_lt, c.second_lt, c.micro_lt⟩]

theorem Offset.make?_self (o : Offset) : make? o.minutes = some o := by
  rw [make?, dif_pos o.small]

namespace Moment

/-! ## Parts of the written form -/

theorem twoDigits?_padded {n : Nat} (h : n < 100) (rest : List Char) :
    twoDigits? (padded 2 n ++ rest) = some (n, rest) := by
  obtain ⟨a, b, hab⟩ := exists_padded_two h
  have hdigit : ∀ c ∈ [a, b], isDigit c = true := fun c hc => isDigit_of_mem_padded (hab ▸ hc)
  have hvalue : ofDigits 10 [a, b] = n := hab ▸ ofDigits_padded 2 n
  simp [hab, twoDigits?, hdigit, hvalue]

theorem date?_iso (d : Date) (rest : List Char) : date? (d.iso ++ rest) = some (d, rest) := by
  obtain ⟨a, b, c, e, hy⟩ := exists_padded_four (Nat.lt_succ_of_le d.year_le)
  have hdigit : ∀ x ∈ [a, b, c, e], isDigit x = true := fun x hx => isDigit_of_mem_padded (hy ▸ hx)
  have hyear : ofDigits 10 [a, b, c, e] = d.year := hy ▸ ofDigits_padded 4 d.year
  simp [Date.iso, hy, date?, hdigit, hyear, twoDigits?_padded d.month_lt,
    twoDigits?_padded d.day_lt, d.make?_self]

theorem microsOfFraction_padded {n : Nat} (h : n < 1000000) :
    microsOfFraction (padded 6 n) = n := by
  have hlength : (padded 6 n).length = 6 := length_padded (by decide) h
  rw [microsOfFraction, List.take_of_length_le (Nat.le_of_eq hlength), hlength]
  simp [ofDigits_padded]

/-- What may follow a time of day: nothing, or the sign of an offset. -/
def BehindClock (rest : List Char) : Prop := ∀ c, rest.head? = some c → c = '+' ∨ c = '-'

theorem BehindClock.stops {rest : List Char} (h : BehindClock rest) : Text.Stops isDigit rest := by
  intro c hc
  rcases h c hc with rfl | rfl <;> decide

theorem clock?_iso (c : Clock) {rest : List Char} (hrest : BehindClock rest) :
    clock? (c.iso ++ rest) = some (c, rest) := by
  have hhour : c.hour < 100 := Nat.lt_trans c.hour_lt (by decide)
  have hminute : c.minute < 100 := Nat.lt_trans c.minute_lt (by decide)
  have hsecond : c.second < 100 := Nat.lt_trans c.second_lt (by decide)
  by_cases hmicro : c.micro = 0
  · have hclock : Clock.make? c.hour c.minute c.second 0 = some c := hmicro ▸ c.make?_self
    -- Without a fraction the text ends with the seconds, and a sign is no point.
    cases rest with
    | nil =>
        have hend := twoDigits?_padded hsecond []
        rw [List.append_nil] at hend
        simp [Clock.iso, hmicro, clock?, twoDigits?_padded hhour, twoDigits?_padded hminute, hend,
          hclock]
    | cons s rest =>
        rcases hrest s rfl with rfl | rfl <;>
          simp [Clock.iso, hmicro, clock?, twoDigits?_padded hhour, twoDigits?_padded hminute,
            twoDigits?_padded hsecond, hclock]
  · have hdigits : ∀ x ∈ padded 6 c.micro, isDigit x = true := fun _ => isDigit_of_mem_padded
    have hne : padded 6 c.micro ≠ [] := by simp [padded_ne_nil]
    simp only [Clock.iso, hmicro, if_false, clock?, List.append_assoc, List.cons_append,
      Option.bind_eq_bind, Option.bind_some, twoDigits?_padded hhour, twoDigits?_padded hminute,
      twoDigits?_padded hsecond, Text.takeWhile_run hdigits hrest.stops, hne, microsOfFraction_padded c.micro_lt,
      c.make?_self, Text.dropWhile_run hdigits hrest.stops]
    rfl

theorem offsetSize?_iso {minutes : Nat} (h : minutes < 1440) :
    offsetSize? (padded 2 (minutes / 60) ++ ':' :: padded 2 (minutes % 60)) = some minutes := by
  have hhours : minutes / 60 < 24 := by omega
  have hrest : minutes % 60 < 60 := Nat.mod_lt _ (by decide)
  have hend := twoDigits?_padded (Nat.lt_trans hrest (by decide)) []
  rw [List.append_nil] at hend
  have hbound : minutes / 60 ≤ 23 ∧ minutes % 60 ≤ 59 := by omega
  have hsum : minutes / 60 * 60 + minutes % 60 = minutes := by omega
  simp [offsetSize?, twoDigits?_padded (Nat.lt_trans hhours (by decide)), hend, hbound, hsum]

theorem offset?_iso (o : Offset) : offset? o.iso = some (some o) := by
  have hsize := offsetSize?_iso o.small
  rw [Offset.iso]
  split
  · have hminutes : -(o.minutes.natAbs : Int) = o.minutes := by omega
    simp only [offset?, hsize, Option.bind_eq_bind, Option.bind_some, hminutes, o.make?_self]
    rfl
  · have hminutes : (o.minutes.natAbs : Int) = o.minutes := by omega
    simp only [offset?, hsize, Option.bind_eq_bind, Option.bind_some, hminutes, o.make?_self]
    rfl

theorem behindClock_iso (o : Option Offset) : BehindClock ((o.map Offset.iso).getD []) := by
  cases o with
  | none => exact nofun
  | some o =>
      intro c hc
      rw [Option.map_some, Option.getD_some, Offset.iso, List.head?_cons, Option.some.injEq] at hc
      rw [← hc]
      split
      · exact .inr rfl
      · exact .inl rfl

/-! ## The whole -/

theorem ofIso?_iso (m : Moment) : ofIso? m.iso = some m := by
  have hoffset : offset? ((m.offset.map Offset.iso).getD []) = some m.offset := by
    cases m.offset with
    | none => rfl
    | some o => exact offset?_iso o
  simp only [iso, isoWith, ofIso?, List.append_assoc, List.cons_append, date?_iso,
    Option.bind_eq_bind, Option.bind_some, clock?_iso m.clock (behindClock_iso m.offset), hoffset]
  rfl

/-- What is written for a day reads as the start of the day. -/
theorem ofIso?_date_iso (d : Date) : ofIso? d.iso = some (.ofDate d) := by
  have hdate := date?_iso d []
  rw [List.append_nil] at hdate
  simp [ofIso?, hdate]

end Moment

end Conform
