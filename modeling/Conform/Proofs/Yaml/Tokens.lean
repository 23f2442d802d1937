import Conform.Proofs.Yaml.Scanned
import Conform.Yaml.Token.Lexer

/-!
# What the tokens of a text break off with

Each rule of the lexer moves the cursor forward and appends tokens, of which none is broken
(`Lexer.Sound`).  So the one broken token that a list may end in stands for the fault of the rule
that came last, and that is `Untold` of the text.
-/

namespace Conform.Yaml

open Cursor

variable {text : List Char} {c : Cursor}

/-! ## Names, tags and directives -/

theorem scans_readName (h : c.Within text) : Scans text (readName c) := by
  simp only [readName]
  split
  · exact .malformed
  · split
    · exact h.next.skip _
    · exact .malformed

theorem scans_percentOctets : ∀ (fuel : Nat) (done : List UInt8) {c : Cursor}, c.Within text →
    Scans text (percentOctets fuel done c)
  | 0, _, _, h => h
  | fuel + 1, done, c, h => by
      simp only [percentOctets]
      split
      · split
        · exact scans_percentOctets fuel _ (h.skip 3)
        · exact .malformed
      · exact h

theorem scans_tagChars : ∀ (fuel : Nat) (done : List Char) {c : Cursor}, c.Within text →
    Scans text (tagChars fuel done c)
  | 0, _, _, h => h
  | fuel + 1, done, c, h => by
      simp only [tagChars]
      split
      · have hoctets := scans_percentOctets (c.rest.length + 1) [] h
        split
        · rename_i heq
          exact hoctets.of_error heq
        · rename_i heq
          split
          · exact scans_tagChars fuel _ (hoctets.of_ok heq)
          · exact .malformed
      · split
        · exact scans_tagChars fuel _ h.next
        · exact h

theorem scans_readTagChars (h : c.Within text) : Scans text (readTagChars c) := by
  have hchars := scans_tagChars (c.rest.length + 1) [] h
  rw [readTagChars]
  split
  · rename_i heq
    exact hchars.of_error heq
  · rename_i heq
    split
    · exact .malformed
    · exact hchars.of_ok heq

theorem scans_readHandle (h : c.Within text) : Scans text (readHandle c) := by
  simp only [readHandle]
  split
  · exact .malformed
  · split
    · exact h.next
    · split
      · exact (h.next.skip _).next
      · exact .malformed

theorem scans_readTag (h : c.Within text) : Scans text (readTag c) := by
  have hend : ∀ p : TagToken × Cursor, p.2.Within text → Scans text
      (if isSpaceOrEnd p.2.peek then pure (p.1, p.2) else .error .malformed) := by
    intro p hp
    split
    · exact hp
    · exact .malformed
  unfold readTag
  split
  · refine (scans_readTagChars (h.skip 2)).bind fun p hp => ?_
    dsimp only
    split
    · exact hend (_, _) hp.next
    · exact .malformed
  · split
    · exact hend (_, _) h.next
    · split
      · refine (scans_readHandle h).bind fun p hp => (scans_readTagChars hp).bind fun q hq => ?_
        exact hend (_, _) hq
      · exact (scans_readTagChars h.next).bind fun p hp => hend (_, _) hp

theorem scans_readVersionNumber (hname : "YAML".toList <:+: text) (h : c.Within text) :
    Scans text (readVersionNumber c) := by
  simp only [readVersionNumber]
  split
  · exact .malformed
  · split
    · rename_i hlong
      refine .inr (.version hname ?_ List.all_takeWhile hlong)
      exact (List.takeWhile_prefix _).isInfix.trans h.isInfix
    · exact h.skip _

theorem scans_readDirective (h : c.Within text) : Scans text (readDirective c) := by
  have hend : ∀ p : Directive × Cursor, p.2.Within text →
      Scans text (do
        let p ← pure p
        return (p.1, ← restOfLine p.2)) :=
    fun p hp => (ends_restOfLine hp).bind fun _ hc => hc
  have hfront : c.next.front isNameChar <:+: text :=
    (List.takeWhile_prefix _).isInfix.trans h.next.isInfix
  have hbehind : (c.next.skip (c.next.front isNameChar).length).Within text := h.next.skip _
  unfold readDirective
  dsimp only
  split
  · exact .malformed
  · split
    · rename_i hname
      rw [beq_iff_eq.mp hname] at hfront
      refine (scans_readVersionNumber hfront hbehind.skipSpaces).bind fun major hmajor => ?_
      split
      · exact .malformed
      · refine (scans_readVersionNumber hfront hmajor.next).bind fun minor hminor => ?_
        split
        · exact hend (.version major.1 minor.1, minor.2) hminor
        · exact .malformed
    · split
      · refine (scans_readHandle hbehind.skipSpaces).bind fun handle hhandle => ?_
        split
        · exact .malformed
        · refine (scans_readTagChars hhandle.skipSpaces).bind fun leading hleading => ?_
          split
          · exact hend (.tag handle.1 leading.1, leading.2) hleading
          · exact .malformed
      · have hrest := hbehind.skipWhile fun x => !isBreakOrEnd x
        exact hend (.other, Cursor.skipWhile _ fun x => !isBreakOrEnd x) hrest

/-! ## Rules -/

namespace Lexer

/-- The cursor stands in the text, and no token so far is broken. -/
structure Sound (text : List Char) (l : Lexer) : Prop where
  within : l.cursor.Within text
  whole : ∀ fault, .broken fault ∉ l.tokens

/-- A rule makes a sound lexer of a sound one, or is not told. -/
abbrev Lexes (text : List Char) (r : Except Fault Lexer) : Prop :=
  EndsIn r (Sound text) (Untold text)

variable {l : Lexer}

namespace Sound

theorem read {m : Lexer} (h : l.Sound text) (t : Token) (ht : ∀ fault, t ≠ .broken fault)
    (hcursor : m.cursor.Within text) (htokens : m.tokens = t :: l.tokens) : m.Sound text := by
  refine ⟨hcursor, fun fault hmem => ?_⟩
  rw [htokens] at hmem
  rcases List.mem_cons.mp hmem with hmem | hmem
  · exact ht fault hmem.symm
  · exact h.whole fault hmem

theorem closeBlocks (h : l.Sound text) (column : Int) : (l.closeBlocks column).Sound text := by
  unfold Lexer.closeBlocks
  split
  · refine ⟨h.within, fun fault hmem => ?_⟩
    rcases List.mem_append.mp hmem with hmem | hmem
    · cases List.eq_of_mem_replicate hmem
    · exact h.whole fault hmem
  · exact h

theorem indentTo (h : l.Sound text) (column : Int) : (l.indentTo column).2.Sound text := by
  unfold Lexer.indentTo
  split
  · exact ⟨h.within, h.whole⟩
  · exact h

theorem skipToToken : ∀ (fuel : Nat) {l : Lexer}, l.Sound text → (l.skipToToken fuel).Sound text
  | 0, _, h => h
  | fuel + 1, l, h => by
      have hc := h.within.skipSpaces.skipComment
      simp only [Lexer.skipToToken]
      split
      · exact skipToToken fuel ⟨hc.lineBreak, h.whole⟩
      · exact ⟨hc, h.whole⟩

end Sound

theorem lexes_expireKeys (h : l.Sound text) : Lexes text l.expireKeys := by
  simp only [expireKeys]
  split
  · exact .malformed
  · exact ⟨h.within, h.whole⟩

theorem lexes_forgetKey (h : l.Sound text) : Lexes text l.forgetKey := by
  simp only [forgetKey]
  split
  · exact .malformed
  · exact ⟨h.within, h.whole⟩

theorem lexes_noteKey (h : l.Sound text) : Lexes text l.noteKey := by
  simp only [noteKey]
  split
  · exact (lexes_forgetKey h).bind fun _ hl => ⟨hl.within, hl.whole⟩
  · exact h

theorem lexes_openBlock (h : l.Sound text) (t : Token) (ht : ∀ fault, t ≠ .broken fault) :
    Lexes text (l.openBlock t) := by
  have hindent := h.indentTo l.cursor.column
  simp only [openBlock]
  split
  · split
    · show Sound text (if _ then _ else _)
      split
      · exact hindent.read t ht hindent.within rfl
      · exact hindent
    · exact .malformed
  · exact h

theorem lexes_lexEnd (h : l.Sound text) : Lexes text l.lexEnd :=
  (lexes_forgetKey (h.closeBlocks _)).bind fun _ hl => hl.read .streamEnd nofun hl.within rfl

theorem lexes_lexDirective (h : l.Sound text) : Lexes text l.lexDirective :=
  (lexes_forgetKey (h.closeBlocks _)).bind fun _ hl =>
    (scans_readDirective hl.within).bind fun p hp => hl.read (.directive p.1) nofun hp rfl

theorem lexes_lexMarker (h : l.Sound text) (t : Token) (ht : ∀ fault, t ≠ .broken fault) :
    Lexes text (l.lexMarker t) :=
  (lexes_forgetKey (h.closeBlocks _)).bind fun _ hl => hl.read t ht (hl.within.skip 3) rfl

theorem lexes_lexOpening (h : l.Sound text) (t : Token) (ht : ∀ fault, t ≠ .broken fault) :
    Lexes text (l.lexOpening t) :=
  (lexes_noteKey h).bind fun _ hl => hl.read t ht (hl.within.skip 1) rfl

theorem lexes_lexClosing (h : l.Sound text) (t : Token) (ht : ∀ fault, t ≠ .broken fault) :
    Lexes text (l.lexClosing t) :=
  (lexes_forgetKey h).bind fun _ hl => hl.read t ht (hl.within.skip 1) rfl

theorem lexes_lexComma (h : l.Sound text) : Lexes text l.lexComma :=
  (lexes_forgetKey h).bind fun _ hl => hl.read .flowEntry nofun (hl.within.skip 1) rfl

theorem lexes_lexHyphen (h : l.Sound text) : Lexes text l.lexHyphen :=
  (lexes_openBlock h .blockSequenceStart nofun).bind fun _ hl =>
    (lexes_forgetKey hl).bind fun _ hl => hl.read .blockEntry nofun (hl.within.skip 1) rfl

theorem lexes_lexQuestion (h : l.Sound text) : Lexes text l.lexQuestion :=
  (lexes_openBlock h .blockMappingStart nofun).bind fun _ hl =>
    (lexes_forgetKey hl).bind fun _ hl => hl.read .key nofun (hl.within.skip 1) rfl

theorem lexes_lexColon (h : l.Sound text) : Lexes text l.lexColon := by
  unfold lexColon
  split
  · rename_i key _
    have hl : Sound text { l with keys := l.keys.filter fun k => k.1 != l.flow } :=
      ⟨h.within, h.whole⟩
    have hindent := hl.indentTo key.column
    dsimp only
    split
    · exact hindent.read .value nofun (hindent.within.skip 1) rfl
    · exact hl.read .value nofun (hl.within.skip 1) rfl
  · exact (lexes_openBlock h .blockMappingStart nofun).bind fun _ hl =>
      hl.read .value nofun (hl.within.skip 1) rfl

theorem lexes_lexName (h : l.Sound text) (make : List Char → Token)
    (hmake : ∀ name fault, make name ≠ .broken fault) : Lexes text (l.lexName make) :=
  (lexes_noteKey h).bind fun _ hl => (scans_readName hl.within).bind fun p hp =>
    hl.read (make p.1) (hmake p.1) hp rfl

theorem lexes_lexTag (h : l.Sound text) : Lexes text l.lexTag :=
  (lexes_noteKey h).bind fun _ hl => (scans_readTag hl.within).bind fun p hp =>
    hl.read (.tag p.1) nofun hp rfl

theorem lexes_lexBlock (h : l.Sound text) (folded : Bool) : Lexes text (l.lexBlock folded) :=
  (lexes_forgetKey h).bind fun _ hl => (scans_readBlock folded _ hl.within).bind fun p hp =>
    hl.read (.scalar false p.1) nofun hp rfl

theorem lexes_lexQuoted (h : l.Sound text) (double : Bool) : Lexes text (l.lexQuoted double) :=
  (lexes_noteKey h).bind fun _ hl => (scans_readQuoted double hl.within).bind fun p hp =>
    hl.read (.scalar false p.1) nofun hp rfl

theorem lexes_lexPlain (h : l.Sound text) : Lexes text l.lexPlain :=
  (lexes_noteKey h).bind fun l hl =>
    hl.read (.scalar true (readPlain (!l.inBlock) (l.indent + 1) l.cursor).1) nofun
      (within_readPlain _ _ hl.within) rfl

theorem lexes_lexToken (h : l.Sound text) : Lexes text l.lexToken := by
  have hmark : Sound text (if l.cursor.index == 0 && l.cursor.peek == '\uFEFF' then
      { l with cursor := l.cursor.next } else l) := by
    split
    · exact ⟨h.within.next, h.whole⟩
    · exact h
  refine (lexes_expireKeys (hmark.skipToToken _)).bind fun l hl => ?_
  have h := hl.closeBlocks l.cursor.column
  exact .ite (lexes_lexEnd h) <| .ite (lexes_lexDirective h) <|
    .ite (lexes_lexMarker h .documentStart nofun) <|
    .ite (lexes_lexMarker h .documentEnd nofun) <|
    .ite (lexes_lexOpening h .flowSequenceStart nofun) <|
    .ite (lexes_lexOpening h .flowMappingStart nofun) <|
    .ite (lexes_lexClosing h .flowSequenceEnd nofun) <|
    .ite (lexes_lexClosing h .flowMappingEnd nofun) <|
    .ite (lexes_lexComma h) <| .ite (lexes_lexHyphen h) <| .ite (lexes_lexQuestion h) <|
    .ite (lexes_lexColon h) <| .ite (lexes_lexName h .alias nofun) <|
    .ite (lexes_lexName h .anchor nofun) <| .ite (lexes_lexTag h) <|
    .ite (lexes_lexBlock h false) <| .ite (lexes_lexBlock h true) <|
    .ite (lexes_lexQuoted h false) <| .ite (lexes_lexQuoted h true) <|
    .ite (lexes_lexPlain h) .malformed

/-! ## Runs -/

theorem mem_splice {marks : List (Nat × Bool)} {t : Token} : ∀ {n : Nat} {ts : List Token},
    t ∈ splice marks n ts → t ∈ ts ∨ t = .blockMappingStart ∨ t = .key
  | n, u :: ts, h => by
      rw [splice] at h
      rcases List.mem_append.mp h with h | h
      · right
        split at h <;> simp_all
      · rcases List.mem_cons.mp h with rfl | h
        · exact .inl List.mem_cons_self
        · exact (mem_splice h).imp_left (List.mem_cons_of_mem u)

theorem Sound.broken_not_mem_splice (h : l.Sound text) {n : Nat} {ts : List Token}
    (hts : ts ⊆ l.tokens) (fault : Fault) : .broken fault ∉ splice l.marks n ts := by
  intro hmem
  rcases mem_splice hmem with hmem | hmem | hmem
  · exact h.whole fault (hts hmem)
  · cases hmem
  · cases hmem

theorem Sound.of_mem_breakAt (h : l.Sound text) {n : Nat} {fault fault' : Fault}
    (hmem : .broken fault ∈ l.breakAt n fault') : fault = fault' := by
  rcases List.mem_append.mp hmem with hmem | hmem
  · refine absurd hmem (h.broken_not_mem_splice ?_ fault)
    exact fun t ht => List.mem_reverse.mp (List.mem_of_mem_take ht)
  · exact Token.broken.inj (List.mem_singleton.mp hmem)

theorem run_zero (l : Lexer) : run 0 l = l.breakAt l.count .malformed := rfl

-- Comparing the two sides would otherwise look into the rules.
seal expireKeys lexToken in
theorem run_succ (fuel : Nat) (l : Lexer) :
    run (fuel + 1) l =
      if l.finished then splice l.marks 0 l.tokens.reverse
      else match l.expireKeys with
        | .error fault => l.breakAt l.count fault
        | .ok l =>
          match l.lexToken with
          | .error fault => l.breakAt l.wanted fault
          | .ok next => run fuel next := by
  rfl

theorem Sound.untold_of_mem_run : ∀ (fuel : Nat) {l : Lexer} {fault : Fault}, l.Sound text →
    .broken fault ∈ run fuel l → Untold text fault
  | 0, l, fault, h, hmem => by
      rw [run_zero] at hmem
      rw [h.of_mem_breakAt hmem]
      exact .malformed
  | fuel + 1, l, fault, h, hmem => by
      have hkeys := lexes_expireKeys h
      -- A run that has come to its end breaks off nothing.  Else it breaks off where keys expire or
      -- no token can be made, with the fault of that step, or goes on with a sound lexer.
      rw [run_succ] at hmem
      split at hmem
      · exact absurd hmem
          (h.broken_not_mem_splice (fun t ht => List.mem_reverse.mp ht) fault)
      · split at hmem
        · rename_i heq
          rw [h.of_mem_breakAt hmem]
          exact hkeys.of_error heq
        · rename_i l heq
          have hl : l.Sound text := hkeys.of_ok heq
          have hstep := lexes_lexToken hl
          split at hmem
          · rename_i heq
            rw [hl.of_mem_breakAt hmem]
            exact hstep.of_error heq
          · rename_i heq
            exact untold_of_mem_run fuel (hstep.of_ok heq) hmem

end Lexer

theorem Token.untold_of_mem_ofText {fault : Fault} (h : .broken fault ∈ Token.ofText text) :
    Untold text fault := by
  unfold Token.ofText at h
  split at h
  · have hstart : (Lexer.start text).Sound text := ⟨List.suffix_refl text, fun _ => nofun⟩
    exact hstart.untold_of_mem_run _ h
  · rw [Token.broken.inj (List.mem_singleton.mp h)]
    exact .malformed

end Conform.Yaml
