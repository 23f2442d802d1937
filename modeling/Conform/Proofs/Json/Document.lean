import Conform.Json.Parser
import Conform.Proofs.Number.Digits
import Conform.Proofs.Outcome
import Conform.Proofs.Value.Nesting
import Conform.Proofs.Value.Tree
import Mathlib.Data.List.TakeWhile

/-!
# Documents of JSON

`IsDocument` describes the values that have a JSON text of their own: null, truth values, integers
short enough to be written, floats, texts, lists, and maps whose keys are distinct texts, nested in
any way.  Whatever JSON text is read stands for such a value, and if an integer has too many digits
to be read, then such an integer stands somewhere in the text (`parse_cases`).
-/

namespace Conform.Json

open Value Digits

/-- A value that a JSON text stands for. -/
inductive IsDocument : Value → Prop
  | null : IsDocument .null
  | bool (b : Bool) : IsDocument (.bool b)
  | int {n : Int} (short : withinLimit n = true) : IsDocument (.int n)
  | float (x : Binary64) : IsDocument (.float x)
  | text (s : String) : IsDocument (.text s)
  | list {xs : List Value} (items : ∀ x ∈ xs, IsDocument x) : IsDocument (.list xs)
  | map {es : Entries} (distinct : KeysDistinct es) (named : ∀ e ∈ es, ∃ s, e.1 = .text s)
      (values : ∀ e ∈ es, IsDocument e.2) : IsDocument (.map es)

theorem IsDocument.isTree {v : Value} (h : IsDocument v) : v.IsTree := by
  induction h with
  | list _ ih => exact .list ih
  | map distinct _ _ ih => exact .map distinct ih
  | _ => exact .scalar rfl

theorem IsDocument.items {xs : List Value} (h : IsDocument (.list xs)) :
    ∀ x ∈ xs, IsDocument x := by
  cases h with
  | list items => exact items

theorem IsDocument.entries {es : Entries} (h : IsDocument (.map es)) :
    ∀ e ∈ es, (∃ s, e.1 = .text s) ∧ IsDocument e.2 := by
  cases h with
  | map _ named values => exact fun e he => ⟨named e he, values e he⟩

mutual
def isDocument : Value → Bool
  | .null | .bool _ | .float _ | .text _ => true
  | .int n => withinLimit n
  | .list xs => areDocuments xs
  | .map es => decide (KeysDistinct es) && areEntries es
  | _ => false

def areDocuments : List Value → Bool
  | [] => true
  | x :: xs => isDocument x && areDocuments xs

def areEntries : List (Value × Value) → Bool
  | [] => true
  | (.text _, v) :: es => isDocument v && areEntries es
  | _ => false
end

theorem areDocuments_iff : ∀ {xs : List Value},
    areDocuments xs = true ↔ ∀ x ∈ xs, isDocument x = true
  | [] => by simp [areDocuments]
  | x :: xs => by simp [areDocuments, areDocuments_iff]

theorem areEntries_iff : ∀ {es : Entries},
    areEntries es = true ↔ ∀ e ∈ es, (∃ s, e.1 = .text s) ∧ isDocument e.2 = true
  | [] => by simp [areEntries]
  | (k, v) :: es => by cases k <;> simp [areEntries, areEntries_iff]

theorem isDocument_iff {v : Value} : isDocument v = true ↔ IsDocument v := by
  induction v using byComponents with
  | step v ih =>
      constructor
      · intro h
        cases v with
        | null => exact .null
        | bool b => exact .bool b
        | int n => exact .int h
        | float x => exact .float x
        | text s => exact .text s
        | list xs =>
            rw [isDocument, areDocuments_iff] at h
            exact .list fun x hx => (ih x hx).mp (h x hx)
        | map es =>
            rw [isDocument, Bool.and_eq_true, decide_eq_true_iff, areEntries_iff] at h
            exact .map h.1 (fun e he => (h.2 e he).1) fun e he =>
              (ih e.2 (value_mem_components he)).mp (h.2 e he).2
        | _ => cases h
      · intro h
        cases h with
        | int short => exact short
        | list items =>
            rw [isDocument, areDocuments_iff]
            exact fun x hx => (ih x hx).mpr (items x hx)
        | map distinct named values =>
            rw [isDocument, Bool.and_eq_true, decide_eq_true_iff, areEntries_iff]
            exact ⟨distinct, fun e he =>
              ⟨named e he, (ih e.2 (value_mem_components he)).mpr (values e he)⟩⟩
        | _ => rfl

instance : DecidablePred IsDocument := fun _ => decidable_of_iff _ isDocument_iff

theorem isDocument_ofEntries {es : Entries}
    (h : ∀ e ∈ es, (∃ s, e.1 = .text s) ∧ IsDocument e.2) : IsDocument (ofEntries es) := by
  have hmem := forall_foldl_put (K := fun k => ∃ s, k = .text s) h
  exact .map (keysDistinct_foldl_put es .nil) (fun e he => (hmem e he).1) fun e he => (hmem e he).2

/-! ## What is read is a document -/

theorem isDigit_of_mem_wholePart {cs : List Char} {c : Char} (h : c ∈ wholePart cs) :
    isDigit c = true := by
  rw [wholePart.eq_def] at h
  split at h
  · rw [List.mem_singleton.mp h]
    decide
  · exact List.mem_takeWhile_imp h

/-- What stands behind the sign of a number. -/
def unsigned : List Char → List Char
  | '-' :: cs => cs
  | cs => cs

theorem withinLimit_wholePart {cs : List Char} (hne : wholePart cs ≠ [])
    (h : (wholePart cs).length ≤ limit) (negative : Bool) :
    withinLimit (if negative then -(ofDigits 10 (wholePart cs) : Int)
      else ofDigits 10 (wholePart cs)) = true := by
  have hlt : ofDigits 10 (wholePart cs) < 10 ^ (wholePart cs).length :=
    ofDigits_lt fun _ h => digitValue_lt_of_isDigit (isDigit_of_mem_wholePart h)
  have habs : (if negative then -(ofDigits 10 (wholePart cs) : Int)
      else ofDigits 10 (wholePart cs)).natAbs = ofDigits 10 (wholePart cs) := by
    cases negative <;> simp
  rw [withinLimit_iff_length, habs]
  exact Nat.le_trans ((length_digits_le_iff (List.length_pos_of_ne_nil hne)).mpr hlt) h

/-- Reading a number misses a digit, finds too many of them, or gives an integer that can be written
or a float, and leaves an end of the text. -/
theorem readNumber_cases (start : List Char) :
    readNumber start = .error ⟨.expectingValue, start⟩ ∨
      (limit < (wholePart (unsigned start)).length ∧
        readNumber start = .error ⟨.numeral, start⟩) ∨
      ∃ rest, rest <:+ start ∧
        ((∃ n, withinLimit n = true ∧ readNumber start = .ok (.int n, rest)) ∨
          ∃ x, readNumber start = .ok (.float x, rest)) := by
  generalize hr : readNumber start = r
  unfold readNumber at hr
  split at hr
  rename_i negative cs hsign
  have hcs : unsigned start = cs ∧ cs <:+ start := by
    split at hsign
    · obtain ⟨-, rfl⟩ := Prod.mk.inj hsign
      exact ⟨rfl, List.suffix_cons _ _⟩
    · rename_i hplain
      obtain ⟨-, rfl⟩ := Prod.mk.inj hsign
      exact ⟨by rw [unsigned]; exact hplain, List.suffix_refl _⟩
  extract_lets whole rest fraction rest' at hr
  have hrest : rest' <:+ start := by
    refine List.IsSuffix.trans ?_ ((List.drop_suffix whole.length cs).trans hcs.2)
    by_cases hf : fraction = []
    · have heq : rest' = rest := if_pos hf
      exact heq ▸ List.suffix_refl _
    · rw [show rest' = rest.drop (fraction.length + 1) from if_neg hf]
      exact List.drop_suffix _ _
  by_cases hne : whole = []
  · rw [if_pos hne] at hr
    exact Or.inl hr.symm
  · rw [if_neg hne] at hr
    dsimp only at hr
    split at hr
    · split at hr
      · rename_i hlimit
        rw [hcs.1]
        exact Or.inr (Or.inl ⟨hlimit, hr.symm⟩)
      · rename_i hlimit
        have hwithin := withinLimit_wholePart hne (Nat.not_lt.mp hlimit) negative
        exact Or.inr (Or.inr ⟨rest', hrest, Or.inl ⟨_, hwithin, hr.symm⟩⟩)
    · exact Or.inr (Or.inr ⟨_, (List.drop_suffix _ _).trans hrest, Or.inr ⟨_, hr.symm⟩⟩)

/-- An integer of too many digits stands at the front. -/
def Overlong (cs : List Char) : Prop := limit < (wholePart (unsigned cs)).length

/-- Reading from the front of the text gives what satisfies the condition and leaves an end of the
text, or fails; it fails for a numeral only where an overlong one stands. -/
def Reads {α : Type} (P : α → Prop) (cs : List Char) (r : Result α) : Prop :=
  EndsIn r (fun p => P p.1 ∧ p.2 <:+ cs)
    fun fault => fault.problem = .numeral → Overlong fault.rest ∧ fault.rest <:+ cs

section

variable {α β : Type} {P : α → Prop} {cs ds : List Char} {r : Result α}

theorem Reads.suffix (h : Reads P cs r) (hds : cs <:+ ds) : Reads P ds r :=
  (EndsIn.imp h fun _ hp => ⟨hp.1, hp.2.trans hds⟩).fault fun _ hfault hf =>
    (hfault hf).imp_right (·.trans hds)

theorem Reads.map {R : β → Prop} {f : α → β} (h : Reads P cs r) (hf : ∀ a, P a → R (f a)) :
    Reads R cs (r.map fun p => (f p.1, p.2)) := by
  cases r with
  | ok p => exact ⟨hf _ h.1, h.2⟩
  | error fault => exact h

theorem reads_error {problem : Problem} (h : problem ≠ .numeral) (rest : List Char) :
    Reads P cs (.error ⟨problem, rest⟩) :=
  fun hf => absurd hf h

end

theorem skipBlanks_suffix (cs : List Char) : skipBlanks cs <:+ cs := List.dropWhile_suffix _

theorem reads_readString (start : List Char) (half : Option Nat) (done cs : List Char) :
    Reads (fun _ => True) cs (readString start half done cs) := by
  fun_induction readString start half done cs
  case case6 ih | case7 ih | case8 ih | case9 ih | case10 ih | case11 ih =>
    exact ih.suffix ⟨['\\', 'u', _, _, _, _], rfl⟩
  case case12 ih => exact ih.suffix ⟨['\\', _], rfl⟩
  case case16 ih => exact ih.suffix (List.suffix_cons _ _)
  case case2 => exact ⟨trivial, List.suffix_cons _ _⟩
  all_goals exact reads_error (by decide) _

theorem reads_readNumber (start : List Char) : Reads IsDocument start (readNumber start) := by
  rcases readNumber_cases start with hr | ⟨hlimit, hr⟩ | ⟨rest, hrest, ⟨n, hn, hr⟩ | ⟨x, hr⟩⟩ <;>
    rw [hr]
  · exact reads_error (by decide) _
  · exact fun _ => ⟨hlimit, List.suffix_refl _⟩
  · exact ⟨.int hn, hrest⟩
  · exact ⟨.float x, hrest⟩

def IsEntry (e : Value × Value) : Prop := (∃ s, e.1 = .text s) ∧ IsDocument e.2

theorem suffix_of_skipBlanks {c : Char} {rest rest' cs : List Char}
    (h : skipBlanks rest = c :: rest') (hrest : rest <:+ cs) : rest' <:+ cs :=
  ((List.suffix_cons c rest').trans (h ▸ skipBlanks_suffix rest)).trans hrest

section

variable {steps : Nat} (hvalue : ∀ cs, Reads IsDocument cs (readValue steps cs))
  (hitems : ∀ cs, Reads (fun xs => ∀ x ∈ xs, IsDocument x) cs (readItems steps cs))
  (hentries : ∀ cs, Reads (fun es => ∀ e ∈ es, IsEntry e) cs (readEntries steps cs))

include hitems hentries in
theorem reads_readValue_succ (cs : List Char) :
    Reads IsDocument cs (readValue (steps + 1) cs) := by
  rw [readValue.eq_def]
  dsimp only
  split
  · rename_i tail
    have hstring := reads_readString ('"' :: tail) none [] tail
    exact (hstring.suffix (List.suffix_cons '"' tail)).map (f := fun r => text (String.ofList r))
      fun r _ => IsDocument.text _
  · split
    · rename_i heq
      exact ⟨.list nofun, suffix_of_skipBlanks heq (List.suffix_cons _ _)⟩
    · exact ((hitems _).suffix ((skipBlanks_suffix _).trans (List.suffix_cons _ _))).map
        fun _ => .list
  · split
    · rename_i heq
      exact ⟨.map .nil nofun nofun, suffix_of_skipBlanks heq (List.suffix_cons _ _)⟩
    · exact ((hentries _).suffix ((skipBlanks_suffix _).trans (List.suffix_cons _ _))).map
        fun _ => isDocument_ofEntries
  · exact ⟨.null, ['n', 'u', 'l', 'l'], rfl⟩
  · exact ⟨.bool true, ['t', 'r', 'u', 'e'], rfl⟩
  · exact ⟨.bool false, ['f', 'a', 'l', 's', 'e'], rfl⟩
  · exact ⟨.float _, ['N', 'a', 'N'], rfl⟩
  · exact ⟨.float _, ['I', 'n', 'f', 'i', 'n', 'i', 't', 'y'], rfl⟩
  · exact ⟨.float _, ['-', 'I', 'n', 'f', 'i', 'n', 'i', 't', 'y'], rfl⟩
  · exact reads_readNumber _

include hvalue hitems in
theorem reads_readItems_succ (cs : List Char) :
    Reads (fun xs => ∀ x ∈ xs, IsDocument x) cs (readItems (steps + 1) cs) := by
  have hfirst := hvalue cs
  rw [readItems]
  cases hv : readValue steps cs with
  | error fault =>
      rw [hv] at hfirst
      exact hfirst
  | ok p =>
      rw [hv] at hfirst
      obtain ⟨v, rest⟩ := p
      obtain ⟨hdoc, hrest⟩ := hfirst
      dsimp only
      split
      · rename_i heq
        exact ⟨by simpa using hdoc, suffix_of_skipBlanks heq hrest⟩
      · rename_i heq
        have hmore := (hitems (skipBlanks _)).suffix
          ((skipBlanks_suffix _).trans (suffix_of_skipBlanks heq hrest))
        exact hmore.map fun xs hxs => List.forall_mem_cons.mpr ⟨hdoc, hxs⟩
      · exact reads_error (by decide) _

include hvalue hentries in
theorem reads_readEntries_succ (cs : List Char) :
    Reads (fun es => ∀ e ∈ es, IsEntry e) cs (readEntries (steps + 1) cs) := by
  rw [readEntries.eq_def]
  dsimp only
  split
  · rename_i tail
    have hkey := (reads_readString ('"' :: tail) none [] tail).suffix (List.suffix_cons '"' tail)
    cases hs : readString ('"' :: tail) none [] tail with
    | error fault =>
        rw [hs] at hkey
        exact hkey
    | ok p =>
        rw [hs] at hkey
        obtain ⟨key, rest⟩ := p
        dsimp only
        split
        · rename_i rest heq
          have hrest := suffix_of_skipBlanks heq hkey.2
          have hfirst := (hvalue (skipBlanks rest)).suffix ((skipBlanks_suffix rest).trans hrest)
          cases hv : readValue steps (skipBlanks rest) with
          | error fault =>
              rw [hv] at hfirst
              exact hfirst
          | ok p =>
              rw [hv] at hfirst
              obtain ⟨v, rest⟩ := p
              obtain ⟨hdoc, hrest⟩ := hfirst
              have hentry : IsEntry (.text (String.ofList key), v) := ⟨⟨_, rfl⟩, hdoc⟩
              dsimp only
              split
              · rename_i heq
                exact ⟨by simpa using hentry, suffix_of_skipBlanks heq hrest⟩
              · rename_i heq
                have hmore := (hentries (skipBlanks _)).suffix
                  ((skipBlanks_suffix _).trans (suffix_of_skipBlanks heq hrest))
                exact hmore.map fun es hes => List.forall_mem_cons.mpr ⟨hentry, hes⟩
              · exact reads_error (by decide) _
        · exact reads_error (by decide) _
  · exact reads_error (by decide) _

end

/-- What is read from the front of a text, as a value or as items or entries, is a document or made
of documents. -/
theorem reads_document : ∀ steps : Nat,
    (∀ cs, Reads IsDocument cs (readValue steps cs)) ∧
      (∀ cs, Reads (fun xs => ∀ x ∈ xs, IsDocument x) cs (readItems steps cs)) ∧
      ∀ cs, Reads (fun es => ∀ e ∈ es, IsEntry e) cs (readEntries steps cs)
  | 0 => ⟨fun _ => reads_error (by decide) _, fun _ => reads_error (by decide) _,
      fun _ => reads_error (by decide) _⟩
  | steps + 1 => by
      obtain ⟨hvalue, hitems, hentries⟩ := reads_document steps
      exact ⟨reads_readValue_succ hitems hentries, reads_readItems_succ hvalue hitems,
        reads_readEntries_succ hvalue hentries⟩

/-- A text that is parsed stands for a document, and one that is not parsed for too many digits has
an overlong integer in it. -/
theorem parse_cases (cs : List Char) :
    (∀ v, parse cs = .ok v → IsDocument v) ∧
      ∀ fault, parse cs = .error fault → fault.problem = .numeral →
        Overlong fault.rest ∧ fault.rest <:+ cs := by
  have hread := ((reads_document (2 * cs.length + 2)).1 (skipBlanks cs)).suffix
    (skipBlanks_suffix cs)
  rw [parse.eq_def]
  split
  · refine ⟨nofun, fun fault hfault hnumeral => ?_⟩
    rw [← Except.error.inj hfault] at hnumeral
    cases hnumeral
  · cases hv : readValue (2 * cs.length + 2) (skipBlanks cs) with
    | error fault =>
        rw [hv] at hread
        refine ⟨nofun, fun fault' hfault hnumeral => ?_⟩
        rw [← Except.error.inj hfault] at hnumeral ⊢
        exact hread hnumeral
    | ok p =>
        rw [hv] at hread
        obtain ⟨v, rest⟩ := p
        dsimp only
        split
        · refine ⟨fun w hw => ?_, nofun⟩
          rw [← Except.ok.inj hw]
          exact hread.1
        · refine ⟨nofun, fun fault hfault hnumeral => ?_⟩
          rw [← Except.error.inj hfault] at hnumeral
          cases hnumeral

end Conform.Json
