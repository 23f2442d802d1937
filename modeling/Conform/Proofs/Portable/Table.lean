import Conform.Codec
import Conform.Proofs.Portable.Values
import Conform.Table.Document

/-!
# Tables in JSON

The text of a table is read as YAML, of which JSON is meant to be a part.  It is one for texts that
are made of what both notations share: from a portable text one gets the same table, or the same
problems, as from the tree that JSON makes of it (`Table.ofText_eq_ofTree`).  Other texts may mean
something in JSON and nothing, or something else, in YAML, if only because they are indented by tabs
(`Table.ofText_ne_ofTree`).
-/

namespace Conform

namespace Json

variable {body cs : List Char} {c : Char} {width : Nat}

theorem quoted_of_isRaw : ∀ {body : List Char}, body.all isRaw = true → Quoted body body
  | [], _ => .nil
  | _ :: _, h =>
      let ⟨hc, hbody⟩ := Bool.and_eq_true_iff.mp h
      .raw hc (quoted_of_isRaw hbody)

theorem keyFits_colon (h : width ≤ 1024) (cs : List Char) : KeyFits width (':' :: cs) := by
  rintro gap rest heq hgap
  cases gap with
  | nil => exact ⟨List.forall_mem_nil _, h⟩
  | cons x gap =>
      have hx := hgap x List.mem_cons_self
      rw [← (List.cons.inj heq).1] at hx
      exact absurd hx (by decide)

/-- What no colon follows may be as long as it likes. -/
theorem keyFits_of_ne (hgap : isGap c = false) (hc : c ≠ ':') (cs : List Char) :
    KeyFits width (c :: cs) := by
  rintro gap rest heq hall
  cases gap with
  | nil => exact absurd (List.cons.inj heq).1 hc
  | cons x gap =>
      have hx := hall x List.mem_cons_self
      rw [← (List.cons.inj heq).1, hgap] at hx
      exact nomatch hx

namespace Portable

/-- A key without escapes. -/
theorem key (hbody : body.all isRaw = true) (hlength : body.length ≤ 1022)
    (rest : Portable cs) : Portable ('"' :: (body ++ '"' :: ':' :: cs)) :=
  .text (quoted_of_isRaw hbody) (keyFits_colon (by omega) cs) (.mark (by decide) rest)

/-- A text without escapes, and the mark behind it. -/
theorem member (hbody : body.all isRaw = true) (hc : isMark c = true) (hne : c ≠ ':')
    (rest : Portable cs) : Portable ('"' :: (body ++ '"' :: c :: cs)) := by
  refine .text (quoted_of_isRaw hbody) (keyFits_of_ne ?_ hne cs) (.mark hc rest)
  simp only [isMark, Bool.or_eq_true, beq_iff_eq] at hc
  rcases hc with ((((rfl | rfl) | rfl) | rfl) | rfl) | rfl <;> rfl

end Portable

end Json

namespace Table

/-- From a portable text in JSON one gets what one gets from its tree. -/
theorem ofText_eq_ofTree {text : String} {v : Value} (hread : Codec.parseText .json text = .ok v)
    (hportable : Json.Portable text.toList) : ofText text = ofTree v := by
  have hparse : Json.parse text.toList = .ok v := by
    unfold Codec.parseText Document.read at hread
    dsimp only at hread
    split at hread
    · rename_i heq
      exact Except.ok.inj hread ▸ heq
    · exact nomatch hread
  rw [ofText, Yaml.parse_eq_ok hportable hparse]

/-- A table of one name, on one line. -/
def line : List Char :=
  '\x7b' :: '"' :: ("types".toList ++ '"' :: ':' :: '\x7b' :: '"' :: ("Name".toList ++ '"' :: ':' ::
    '\x7b' :: '"' :: ("kind".toList ++ '"' :: ':' :: '"' :: ("any".toList ++ '"' ::
      '\x7d' :: ['\x7d', '\x7d']))))

theorem portable_line : Json.Portable line := by
  have hend : Json.Portable ['\x7d', '\x7d'] := .mark (by decide) (.mark (by decide) .nil)
  exact .mark (by decide) <| .key (by decide) (by decide) <|
    .mark (by decide) <| .key (by decide) (by decide) <|
      .mark (by decide) <| .key (by decide) (by decide) <|
        .member (by decide) (by decide) (by decide) hend

/-- The table in JSON as JSON reads it, if the text is one. -/
def ofJson? (text : String) : Option Table :=
  (Codec.parseText .json text).toOption.bind fun v => (ofTree v).toOption

theorem eq_ok_of_toOption {ε α : Type} {r : Except ε α} {a : α} (h : r.toOption = some a) :
    r = .ok a := by
  cases r with
  | error fault => exact nomatch h
  | ok b => exact congrArg _ (Option.some.inj h)

theorem exists_of_ofJson? {text : String} (h : (ofJson? text).isSome = true) :
    ∃ v t, Codec.parseText .json text = .ok v ∧ ofTree v = .ok t := by
  obtain ⟨t, ht⟩ := Option.isSome_iff_exists.mp h
  obtain ⟨v, hv, ht⟩ := Option.bind_eq_some_iff.mp ht
  exact ⟨v, t, eq_ok_of_toOption hv, eq_ok_of_toOption ht⟩

/-- The table of one line is read as JSON reads it. -/
theorem ofText_eq_ofTree_line :
    ∃ v t, Codec.parseText .json (String.ofList line) = .ok v ∧ ofTree v = .ok t ∧
      Json.Portable (String.ofList line).toList ∧ ofText (String.ofList line) = ofTree v := by
  have hread : (ofJson? (String.ofList line)).isSome = true := by decide +kernel
  obtain ⟨v, t, hv, ht⟩ := exists_of_ofJson? hread
  have hportable : Json.Portable (String.ofList line).toList := by
    rw [String.toList_ofList]
    exact portable_line
  exact ⟨v, t, hv, ht, hportable, ofText_eq_ofTree hv hportable⟩

/-- A table of one name, with lines indented by tabs. -/
def tabbed : String :=
  "\x7b\n\t\"types\": \x7b\n\t\t\"Name\": \x7b\"kind\": \"any\"\x7d\n\t\x7d\n\x7d"

/-- Indented by tabs, a table in JSON is no document any more. -/
theorem ofText_ne_ofTree :
    ¬ ∀ text v, Codec.parseText .json text = .ok v → ofText text = ofTree v := by
  intro h
  have hread : (ofJson? tabbed).isSome = true := by decide +kernel
  have htext : (ofText tabbed).toOption.isSome = false := by decide +kernel
  obtain ⟨v, t, hv, ht⟩ := exists_of_ofJson? hread
  rw [h tabbed v hv, ht] at htext
  exact nomatch htext

end Table

end Conform
