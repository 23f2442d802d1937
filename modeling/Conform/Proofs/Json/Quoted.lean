import Conform.Json.Parser
import Conform.Json.Printer

/-!
# Quoted texts of JSON

A character inside quotes is read back, whether it stands for itself or is escaped
(`readString_escape`), and so is a text in quotes, whatever follows it (`readString_quote`).  Only
quotes, backslashes and control characters are escaped here; the escape of a control character is
one of thirty-two.
-/

namespace Conform.Json

open Digits

/-- A control character is escaped by four digits, which stand for its number. -/
theorem paddedHex_control : ∀ n < 0x20, ∃ a b c d, paddedHex 4 n = [a, b, c, d] ∧
    ofDigits? 16 [a, b, c, d] = some n := by
  have h : ∀ n < 0x20, paddedHex 4 n = ['0', '0', Nat.digitChar (n / 16), Nat.digitChar (n % 16)] ∧
      ofDigits? 16 ['0', '0', Nat.digitChar (n / 16), Nat.digitChar (n % 16)] = some n := by
    decide
  exact fun n hn => ⟨_, _, _, _, h n hn⟩

/-- A character inside quotes is read back, if the quotes are still to be closed. -/
theorem readString_escape (start done : List Char) (c : Char) {tail : List Char}
    (htail : tail ≠ []) :
    readString start none done (escape false c ++ tail) =
      readString start none (c :: done) tail := by
  by_cases hspecial : c ∈ ['"', '\\', '\n', '\r', '\t', '\x0c', '\x08']
  · simp only [List.mem_cons, List.not_mem_nil, or_false] at hspecial
    rcases hspecial with rfl | rfl | rfl | rfl | rfl | rfl | rfl <;> rfl
  · simp only [List.mem_cons, List.not_mem_nil, or_false, not_or] at hspecial
    have hescape : escape false c = if c.toNat < 0x20 then unicodeEscape c else [c] := by
      rw [escape] <;> simp_all
    rw [hescape]
    split
    · rename_i hcontrol
      obtain ⟨d₁, d₂, d₃, d₄, hdigits, hvalue⟩ := paddedHex_control c.toNat hcontrol
      have hunicode : unicodeEscape c = ['\\', 'u', d₁, d₂, d₃, d₄] := by
        rw [unicodeEscape, if_pos (by omega), hdigits]
      have hhigh : isHighSurrogate c.toNat = false := by simp [isHighSurrogate]; omega
      have hlow : isLowSurrogate c.toNat = false := by simp [isLowSurrogate]; omega
      have hempty : tail.isEmpty = false := by simpa using htail
      rw [hunicode]
      simp only [List.cons_append, List.nil_append, readString, hvalue, hempty, hhigh, hlow,
        Bool.false_eq_true, if_false, Char.ofNat_toNat]
    · rename_i hcontrol
      rw [List.singleton_append, readString, if_neg hcontrol]
      · rfl
      all_goals simp_all

theorem readString_quote (start : List Char) (cs rest : List Char) :
    readString start none [] (cs.flatMap (escape false) ++ '"' :: rest) = .ok (cs, rest) := by
  have key : ∀ cs done : List Char,
      readString start none done (cs.flatMap (escape false) ++ '"' :: rest) =
        .ok (done.reverse ++ cs, rest) := by
    intro cs
    induction cs with
    | nil => intro done; simp [readString, settle]
    | cons c cs ih =>
        intro done
        rw [List.flatMap_cons, List.append_assoc, readString_escape start done c (by simp), ih,
          List.reverse_cons, List.append_assoc, List.singleton_append]
  exact key cs []

end Conform.Json
