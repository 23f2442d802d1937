import Conform.Proofs.Number.Digits
import Conform.Proofs.Outcome
import Conform.Yaml.Token.Scalar
import Mathlib.Data.List.Infix

/-!
# What scanning a scalar comes to

A cursor only ever moves forward, so what is left of a text is an end of it (`Cursor.Within`).

A well-written scalar is refused for one reason only: an escape of eight digits between double
quotes whose number is beyond the last character (`EscapesBeyond`).  All else that ends the scanning
of a scalar is a notation that is not followed.
-/

namespace Conform.Yaml

/-! ## Cursors -/

/-- What is left is an end of the text. -/
def Cursor.Within (text : List Char) (c : Cursor) : Prop := c.rest <:+ text

namespace Cursor

variable {text : List Char} {c : Cursor}

theorem rest_next (c : Cursor) : c.next.rest = c.rest.tail := by
  unfold next
  split
  · rename_i h
    simp [h]
  · rename_i h
    simp only [h]
    split <;> rfl

theorem rest_eq_cons {x : Char} (h : c.peek = x) (hx : x ≠ '\x00') :
    c.rest = x :: c.next.rest := by
  rw [rest_next]
  unfold peek at h
  cases hrest : c.rest with
  | nil => simp [hrest] at h; exact absurd h.symm hx
  | cons y rest => simp_all

namespace Within

theorem next (h : c.Within text) : c.next.Within text := by
  rw [Within, rest_next]
  exact (List.tail_suffix _).trans h

theorem skip : ∀ (n : Nat) {c : Cursor}, c.Within text → (c.skip n).Within text
  | 0, _, h => h
  | n + 1, _, h => skip n h.next

theorem skipWhile (p : Char → Bool) (h : c.Within text) : (c.skipWhile p).Within text := h.skip _

theorem skipSpaces (h : c.Within text) : c.skipSpaces.Within text := h.skipWhile _

theorem skipComment (h : c.Within text) : c.skipComment.Within text := by
  unfold Cursor.skipComment
  split
  · exact h.skipWhile _
  · exact h

theorem lineBreak (h : c.Within text) : c.lineBreak.2.Within text := by
  simp only [Cursor.lineBreak]
  split
  · exact h.skip 2
  · split
    · exact h.next
    · split
      · exact h.next
      · exact h

end Within

end Cursor

open Cursor

variable {text : List Char} {c : Cursor}

/-! ## What can be wrong with tokens -/

/-- An escape in the text gives a number that is beyond the last character. -/
def EscapesBeyond (text : List Char) (code : Nat) : Prop :=
  ∃ digits, '\\' :: 'U' :: digits <:+: text ∧ digits.length = 8 ∧
    digits.all Digits.isHexDigit = true ∧ Digits.ofDigits 16 digits = code ∧ 0x10FFFF < code

/-- Why a part of a text is no token although the notation is followed. -/
inductive Token.Obstacle (text : List Char) : Fault → Prop where
  /-- An escape gives no character. -/
  | escape {code : Nat} (h : EscapesBeyond text code) : Obstacle text (.noCharacter code)
  /-- The number of a version has too many digits. -/
  | version {digits : List Char} (hname : "YAML".toList <:+: text) (h : digits <:+: text)
      (hdigits : digits.all Digits.isDigit = true) (hlong : Digits.limit < digits.length) :
      Obstacle text .notANumber

/-- Why a part of a text is no token. -/
def Untold (text : List Char) (fault : Fault) : Prop :=
  fault = .malformed ∨ Token.Obstacle text fault

theorem Untold.malformed : Untold text .malformed := .inl rfl

/-- What is scanned is something and a cursor behind it, or not told. -/
abbrev Scans {α : Type} (text : List Char) (r : Except Fault (α × Cursor)) : Prop :=
  EndsIn r (fun p => p.2.Within text) (Untold text)

/-! ## Plain scalars -/

theorem within_emptyLines : ∀ (fuel : Nat) (breaks : List Char) {c : Cursor}, c.Within text →
    (emptyLines fuel breaks c).2.Within text
  | 0, _, _, h => h
  | fuel + 1, breaks, c, h => by
      simp only [emptyLines]
      split
      · exact within_emptyLines fuel _ h.next
      · split
        · split
          · exact h.lineBreak
          · exact within_emptyLines fuel _ h.lineBreak
        · exact h

theorem within_plainSpaces (h : c.Within text) : (plainSpaces c).2.2.Within text := by
  simp only [plainSpaces]
  split
  · split
    · exact h.skipSpaces.lineBreak
    · have hlines := within_emptyLines (c.skipSpaces.lineBreak.2.rest.length + 1) []
        h.skipSpaces.lineBreak
      split
      · rename_i heq
        rwa [heq] at hlines
      · rename_i heq
        rwa [heq] at hlines
  · exact h.skipSpaces

theorem within_plainRuns (flow : Bool) (indent : Int) :
    ∀ (fuel : Nat) (done spaces : List Char) (crossed : Bool) {c : Cursor}, c.Within text →
      (plainRuns flow indent fuel done spaces crossed c).2.2.Within text
  | 0, _, _, _, _, h => h
  | fuel + 1, _, _, _, c, h => by
      have hspaces := within_plainSpaces (h.skip (plainRun flow c.rest).length)
      simp only [plainRuns]
      split
      · exact h
      · split
        · exact hspaces
        · exact within_plainRuns flow indent fuel _ _ _ hspaces

theorem within_readPlain (flow : Bool) (indent : Int) (h : c.Within text) :
    (readPlain flow indent c).2.2.Within text :=
  within_plainRuns flow indent _ _ _ _ h

/-! ## Scalars between quotes -/

theorem scans_quotedBreaks : ∀ (fuel : Nat) (breaks : List Char) {c : Cursor}, c.Within text →
    Scans text (quotedBreaks fuel breaks c)
  | 0, _, _, h => h
  | fuel + 1, breaks, c, h => by
      simp only [quotedBreaks]
      split
      · exact .malformed
      · split
        · exact scans_quotedBreaks fuel _ (h.skipWhile _).lineBreak
        · exact h.skipWhile _

/-- Only an escape of eight digits can be beyond the last character. -/
theorem escapeWidth?_eq_eight {x : Char} {width : Nat} (h : escapeWidth? x = some width)
    (hbeyond : 0x10FFFF < 16 ^ width) : x = 'U' ∧ width = 8 := by
  unfold escapeWidth? at h
  split at h
  · obtain rfl := Option.some.inj h
    exact absurd hbeyond (by decide)
  · obtain rfl := Option.some.inj h
    exact absurd hbeyond (by decide)
  · exact ⟨rfl, (Option.some.inj h).symm⟩
  · cases h

theorem ends_characterOf {code : Nat} (h : 0x10FFFF < code → EscapesBeyond text code) :
    EndsIn (characterOf code) (fun _ => True) (Untold text) := by
  unfold characterOf
  split
  · rename_i hcode
    exact .inr (.escape (h hcode))
  · split
    · exact trivial
    · exact trivial

/-- The digits of an escape behind its backslash, where their number is too large. -/
theorem escapesBeyond_of_escapeWidth? (h : '\\' :: c.rest <:+ text) {width : Nat}
    (hwidth : escapeWidth? c.peek = some width) {digits : List Char}
    (htake : c.next.rest.take width = digits) (hlength : digits.length = width)
    (hdigits : digits.all Digits.isHexDigit = true)
    (hcode : 0x10FFFF < Digits.ofDigits 16 digits) :
    EscapesBeyond text (Digits.ofDigits 16 digits) := by
  have hlt : Digits.ofDigits 16 digits < 16 ^ width := by
    rw [← hlength]
    exact Digits.ofDigits_lt fun x hx =>
      Digits.digitValue_lt_of_isHexDigit (List.all_eq_true.mp hdigits x hx)
  -- The shorter escapes have too few digits to get beyond the last character.
  obtain ⟨hpeek, rfl⟩ := escapeWidth?_eq_eight hwidth (Nat.lt_trans hcode hlt)
  refine ⟨digits, ?_, hlength, hdigits, rfl, hcode⟩
  rw [rest_eq_cons hpeek (by decide)] at h
  have hfront : '\\' :: 'U' :: digits <+: '\\' :: 'U' :: c.next.rest := by
    simpa [← htake] using List.take_prefix 8 c.next.rest
  exact hfront.isInfix.trans h.isInfix

theorem scans_quotedEscape (h : '\\' :: c.rest <:+ text) : Scans text (quotedEscape c) := by
  have hc : c.Within text := (List.suffix_cons _ _).trans h
  unfold quotedEscape
  split
  · exact hc.next
  · split
    · rename_i width hwidth
      dsimp only
      split
      · rename_i hdigits
        simp only [Bool.and_eq_true, beq_iff_eq] at hdigits
        have hbeyond := escapesBeyond_of_escapeWidth? h hwidth rfl hdigits.1 hdigits.2
        exact (ends_characterOf hbeyond).bind fun _ _ => hc.next.skip width
      · exact .malformed
    · split
      · exact scans_quotedBreaks _ _ hc.lineBreak
      · exact .malformed

theorem scans_quotedText (double : Bool) : ∀ (fuel : Nat) (done : List Char) {c : Cursor},
    c.Within text → Scans text (quotedText double fuel done c)
  | 0, _, _, _ => .malformed
  | fuel + 1, done, c, h => by
      -- Named, the quote is no case distinction of the rule any more.
      obtain ⟨quote, hquote⟩ : ∃ x, (if double then '"' else '\'') = x := ⟨_, rfl⟩
      simp only [quotedText, hquote]
      split
      · exact .malformed
      · split
        · have hspaces := h.skip (c.front fun x => x == ' ' || x == '\t').length
          generalize c.skip (c.front fun x => x == ' ' || x == '\t').length = c' at hspaces ⊢
          split
          · exact .malformed
          · split
            · have hbreaks :=
                scans_quotedBreaks (c'.lineBreak.2.rest.length + 1) [] hspaces.lineBreak
              split
              · rename_i heq
                exact hbreaks.of_error heq
              · rename_i heq
                exact scans_quotedText double fuel _ (hbreaks.of_ok heq)
            · exact scans_quotedText double fuel _ hspaces
        · split
          · split
            · exact scans_quotedText double fuel _ (h.skip 2)
            · exact h.next
          · split
            · rename_i hx
              have hbackslash : '\\' :: c.next.rest <:+ text := by
                rwa [Within, rest_eq_cons (by simp_all : c.peek = '\\') (by decide)] at h
              have hescape := scans_quotedEscape hbackslash
              split
              · rename_i heq
                exact hescape.of_error heq
              · rename_i heq
                exact scans_quotedText double fuel _ (hescape.of_ok heq)
            · exact scans_quotedText double fuel _ (h.skip _)

theorem scans_readQuoted (double : Bool) (h : c.Within text) : Scans text (readQuoted double c) :=
  scans_quotedText double _ _ h.next

/-! ## Block scalars -/

theorem scans_blockHead (h : c.Within text) : Scans text (blockHead c) := by
  have hwidth : ∀ x : Char, EndsIn
      (if x == '0' then .error .malformed else .ok (Digits.ofDigits 10 [x]) : Except Fault Nat)
      (fun _ => True) (Untold text) := by
    intro x
    split
    · exact .malformed
    · exact trivial
  have hend : ∀ p : Chomping × Option Nat × Cursor, p.2.2.Within text → Scans text
      (if isSpaceOrEnd p.2.2.peek then pure ((p.1, p.2.1), p.2.2) else .error .malformed) := by
    intro p hp
    split
    · exact hp
    · exact .malformed
  unfold blockHead
  dsimp only
  split
  · split
    · exact (hwidth _).bind fun n _ => hend (_, some n, _) h.next.next
    · exact hend (_, none, _) h.next
  · split
    · refine (hwidth _).bind fun n _ => ?_
      split
      · exact hend (_, some n, _) h.next.next
      · exact hend (_, some n, _) h.next
    · exact hend (_, none, _) h

theorem ends_restOfLine (h : c.Within text) :
    EndsIn (restOfLine c) (Cursor.Within text) (Untold text) := by
  unfold restOfLine
  dsimp only
  split
  · exact h.skipSpaces.skipComment.lineBreak
  · exact .malformed

theorem within_blockIndent : ∀ (fuel : Nat) (breaks : List Char) (widest : Nat) {c : Cursor},
    c.Within text → (blockIndent fuel breaks widest c).2.2.Within text
  | 0, _, _, _, h => h
  | fuel + 1, breaks, widest, c, h => by
      simp only [blockIndent]
      split
      · exact within_blockIndent fuel _ _ h.next
      · split
        · exact within_blockIndent fuel _ _ h.lineBreak
        · exact h

theorem within_skipIndent (indent : Nat) : ∀ (fuel : Nat) {c : Cursor}, c.Within text →
    (skipIndent indent fuel c).Within text
  | 0, _, h => h
  | fuel + 1, c, h => by
      rw [skipIndent]
      split
      · exact within_skipIndent indent fuel h.next
      · exact h

theorem within_blockBreaks (indent : Nat) : ∀ (fuel : Nat) (breaks : List Char) {c : Cursor},
    c.Within text → (blockBreaks indent fuel breaks c).2.Within text
  | 0, _, _, h => h
  | fuel + 1, breaks, c, h => by
      have hindent := within_skipIndent indent c.rest.length h
      simp only [blockBreaks]
      split
      · exact within_blockBreaks indent fuel _ hindent.lineBreak
      · exact hindent

theorem within_blockLines (folded : Bool) (indent : Nat) :
    ∀ (fuel : Nat) (done lineBreak breaks : List Char) {c : Cursor}, c.Within text →
      (blockLines folded indent fuel done lineBreak breaks c).2.Within text
  | 0, _, _, _, _, h => h
  | fuel + 1, _, _, _, c, h => by
      simp only [blockLines]
      split
      · have hbreaks := within_blockBreaks indent
          ((c.skip (c.front fun x => !isBreakOrEnd x).length).lineBreak.2.rest.length + 1) []
          (h.skip (c.front fun x => !isBreakOrEnd x).length).lineBreak
        split
        · exact within_blockLines folded indent fuel _ _ _ hbreaks
        · exact hbreaks
      · exact h

theorem scans_readBlock (folded : Bool) (outer : Int) (h : c.Within text) :
    Scans text (readBlock folded outer c) := by
  refine (scans_blockHead h.next).bind fun p hp => ?_
  refine (ends_restOfLine hp).bind fun c' hc' => ?_
  dsimp only
  split
  · exact within_blockLines folded _ _ _ _ _ (within_blockBreaks _ _ _ hc')
  · exact within_blockLines folded _ _ _ _ _ (within_blockIndent _ _ _ hc')

end Conform.Yaml
