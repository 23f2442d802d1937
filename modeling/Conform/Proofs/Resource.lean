import Conform.Proofs.Conversion.Resolution
import Conform.Proofs.Conversion.RoundTrip
import Conform.Proofs.Json.RoundTrip
import Conform.Resource
import Conform.Table.Dump

/-!
# Resource documents are kept

Of every shape in the table of resource schemas nothing gets lost: each union is an optional field,
no object lets other keys through, and the names of the fields of each object are distinct, also
those that are derived (`reversible_table`).  A document of JSON is converted to documents of JSON
by shapes without points in time (`isDocument_of_verdict`), and those are written and read back.

So a text that is decoded as a resource schema can be written as the decoded value, read, encoded,
written and read again, and what comes out is the tree of the text but for the order of keys
(`keeps_document`).
-/

namespace Conform

namespace Conversion

open Value Json

variable {table : Table} {d : Direction}

/-! ## Documents are converted to documents -/

theorem inherited_isDocument : Inherited IsDocument fun k => ∃ s, k = .text s where
  element he hv := by
    rcases elements?_eq_some he with rfl | rfl
    · exact hv.items
    · cases hv
  entry hv := hv.entries
  name s := ⟨s, rfl⟩
  list := .list
  ofEntries := isDocument_ofEntries

/-- Without points in time, a document is converted to a document. -/
theorem isDocument_of_verdict (ht : table.Everywhere (· ≠ .date)) {n : Nat} {v y : Value}
    {s : Shape} (hs : s.Everywhere (· ≠ .date)) (h : verdict table d n v s = .ok y)
    (hv : IsDocument v) : IsDocument y := by
  refine inherited_isDocument.of_verdict ht (fun {v s y} hs h hv => ?_) hs h hv
  obtain rfl : y = v := (leaf?_eq_some h).resolve_right fun hd => hs hd.1
  exact hv

end Conversion

namespace Shape

/-! ## The table -/

instance (ps : List (Property Shape)) (a : Shape) : Decidable (NamesAgree ps a) :=
  decidable_of_iff (a = .never ∨
      ps.map (nameIn .typed) ⊆ ps.map (nameIn .serialized) ∧
        ps.map (nameIn .serialized) ⊆ ps.map (nameIn .typed)) <|
    or_congr Iff.rfl ⟨fun h _ => ⟨fun hn => h.1 hn, fun hn => h.2 hn⟩,
      fun h => ⟨fun _ => (h _).mp, fun _ => (h _).mpr⟩⟩

theorem optional_iff {members : List Shape} :
    (members.head? = some .absent ∧ members.length = 2) ↔ ∃ s, members = [.absent, s] := by
  constructor
  · rintro ⟨hhead, hlength⟩
    obtain ⟨first, s, rfl⟩ := List.length_eq_two.mp hlength
    exact ⟨s, by rw [Option.some.inj hhead]⟩
  · rintro ⟨s, rfl⟩
    exact ⟨rfl, rfl⟩

instance : DecidablePred IsReversible
  | .union _ => decidable_of_iff _ optional_iff
  | .object _ ps a => inferInstanceAs (Decidable (repeatedName? ps = none ∧ NamesAgree ps a))
  | .date => .isFalse id
  | .primitive _ | .literals _ | .array _ | .ref _ | .any | .null | .absent | .never =>
      .isTrue trivial

end Shape

namespace Resource

open Conversion Value Json Codec
open Shape (record)

instance (P : Shape → Prop) [DecidablePred P] (t : Table) : Decidable (t.Everywhere P) :=
  inferInstanceAs (Decidable (∀ e ∈ t.entries, ∀ p ∈ e.2.parts, P p))

theorem reversible_table : table.Everywhere Shape.IsReversible := by decide +kernel

theorem dateless_table : table.Everywhere (· ≠ .date) := by
  intro e he p hp
  rintro rfl
  exact reversible_table e he _ hp

theorem rootType_mem : rootType ∈ table.names := by decide +kernel

/-- The tree of a text that is decoded as a resource schema comes back, up to the order of keys,
when the decoded value is written, read, encoded, written and read again. -/
theorem keeps_document {text : String} {s v : Value} {c : Cache} (hc : c.Faithful)
    (hparse : parseText .json text = .ok s)
    (hdecode : (convertAs table .decode rootType s c).1 = .ok v) {indent : Option Int}
    (hindent : IsIndent indent) :
    ∃ t, renderText indent v = .ok t ∧ parseText .json t = .ok v ∧
      ∀ c' : Cache, c'.Faithful → ∃ s', (convertAs table .encode rootType v c').1 = .ok s' ∧
        ∃ t', renderText indent s' = .ok t' ∧ parseText .json t' = .ok s' ∧ Reordered s s' := by
  have hroot : (Shape.ref rootType).Everywhere Shape.IsReversible := by
    simp [Shape.Everywhere, Shape.parts, Shape.IsReversible]
  have hdateless : (Shape.ref rootType).Everywhere (· ≠ .date) := by
    simp [Shape.Everywhere, Shape.parts]
  have hs : IsDocument s := isDocument_of_parseText hparse
  rw [convertAs_eq_run rootType_mem s hc] at hdecode
  have hv := run_eq_ok.mp hdecode
  have hvdoc : IsDocument v := isDocument_of_verdict dateless_table hdateless hv hs
  obtain ⟨s', hencode, hre, -⟩ :=
    returns_of_everywhere reversible_table _ hroot (Or.inr hs.isTree) hv
  have hs' : IsDocument s' := isDocument_of_verdict dateless_table hdateless hencode hvdoc
  obtain ⟨t, hrender, hread⟩ := exists_renderText hindent hvdoc
  obtain ⟨t', hrender', hread'⟩ := exists_renderText hindent hs'
  refine ⟨t, hrender, hread, fun c' hc' => ⟨s', ?_, t', hrender', hread', hre⟩⟩
  rw [convertAs_eq_run rootType_mem v hc']
  exact run_of_verdict hencode

/-! ### A small resource schema -/

def constant : Value :=
  record [("const", .text "v1"), ("type", .text "string"), ("description", .text "")]

def prompt : Value :=
  record [("type", .text "string"), ("minLength", .int 1), ("maxLength", .float .nan),
    ("description", .text "")]

/-- A description of an object with these properties. -/
def nested (properties : Value) (others : List (String × Value)) : Value :=
  record (others ++ [("description", .text ""), ("type", .text "object"),
    ("additionalProperties", .bool false), ("properties", properties)])

def spec : Value :=
  nested (record [("type", constant), ("trigger", record [("$ref", .text ""),
    ("description", .text "")]), ("data", record [("$ref", .text ""), ("description", .text "")])])
    [("required", .list [])]

/-- A whole document, its keys in another order than that of the table. -/
def sample : Value :=
  record [("type", .text "object"), ("title", .text ""), ("$id", .text ""), ("$schema", .text ""),
    ("description", .text ""), ("required", .list [.text "spec"]),
    ("additionalProperties", .bool false),
    ("properties", record [("kind", constant), ("apiVersion", constant),
      ("metadata", nested (record [("name", prompt), ("displayName", prompt),
        ("description", prompt)]) [("required", .list [])]),
      ("spec", record [("description", .text ""),
        ("oneOf", .list [record [("$ref", .text "")]])])]),
    ("$defs", record [
      ("trigger", nested (record [
          ("mode", record [("type", .text "string"), ("enum", .list []),
            ("description", .text "")]),
          ("schedule", record [("description", .text ""), ("oneOf", .list [])])])
        [("required", .list []), ("allOf", .list [])]),
      ("LLMSpec", spec), ("FunnelSpec", spec),
      ("dataSpec", nested (record [
          ("minEvents", record [("type", .text "integer"), ("minimum", .int 0),
            ("description", .text "")]),
          ("maxEvents", record [("type", .text "integer"), ("minimum", .int 0),
            ("description", .text "")]),
          ("events", record [("description", .text ""), ("oneOf", .list [])])]) [])])]

theorem exists_decoded_sample :
    ∃ v, (convertAs table .decode rootType sample Cache.empty).1 = .ok v := by
  have h : (convertAs table .decode rootType sample Cache.empty).1.toOption.isSome = true := by
    decide +kernel
  cases hv : (convertAs table .decode rootType sample Cache.empty).1 with
  | ok v => exact ⟨v, rfl⟩
  | error stop =>
      rw [hv] at h
      cases h

/-- A text of the small resource schema is decoded and comes back, up to the order of its keys. -/
theorem keeps_document_sample : ∃ text v, parseText .json text = .ok sample ∧
    (convertAs table .decode rootType sample Cache.empty).1 = .ok v ∧
    ∃ t, renderText (some 2) v = .ok t ∧ parseText .json t = .ok v ∧
      ∀ c' : Cache, c'.Faithful → ∃ s', (convertAs table .encode rootType v c').1 = .ok s' ∧
        ∃ t', renderText (some 2) s' = .ok t' ∧ parseText .json t' = .ok s' ∧
          Reordered sample s' := by
  have hindent : IsIndent (some 2) := isIndent_some.mpr rfl
  have hsample : IsDocument sample := by decide +kernel
  obtain ⟨text, -, hparse⟩ := exists_renderText hindent hsample
  obtain ⟨v, hv⟩ := exists_decoded_sample
  exact ⟨text, v, hparse, hv, keeps_document Cache.faithful_empty hparse hv hindent⟩

end Resource

end Conform
