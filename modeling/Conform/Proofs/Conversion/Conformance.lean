import Conform.Proofs.Conversion.Converted
import Conform.Proofs.Conversion.Object

/-!
# Conformance

A value conforms to a shape if the shape describes it: this is said by recursion on the shape, with
references followed, and knows no order of fields, entries or members.  A shape without parts
describes a value as a whole (`Fits`).  What a conversion accepts conforms (`conforms_of_run`).
-/

namespace Conform

/-- If the shape is an object, then its names are distinct. -/
def Shape.NamesDistinct : Shape → Prop
  | .object _ ps _ => repeatedName? ps = none
  | _ => True

namespace Conversion

open Value Traversal
open Shape (nameIn)

variable {table : Table} {d : Direction}

/-- The value is what a shape without parts describes. -/
def Fits (v : Value) : Shape → Prop
  | .any => True
  | .primitive .string => ∃ s, v = .text s
  | .primitive .number => (∃ n, v = .int n) ∨ ∃ x, v = .float x
  | .primitive .boolean => ∃ b, v = .bool b
  | .literals values => ∃ s ∈ values, v = .text s
  | .null => v = .null
  | .absent => v = .missing
  | .date => v = .null ∨ ∃ m, momentOf? v = some m
  | _ => False

/-- The shape, with the references in it followed, describes the value. -/
inductive Conforms (table : Table) (d : Direction) : Value → Shape → Prop
  | leaf {v : Value} {s : Shape} (h : Fits v s) : Conforms table d v s
  | ref {v : Value} {name : String} {s : Shape} (hg : table.get? name = some s)
      (h : Conforms table d v s) : Conforms table d v (.ref name)
  | array {v : Value} {xs : List Value} {items : Shape} (hv : elements? v = some xs)
      (h : ∀ x ∈ xs, Conforms table d x items) : Conforms table d v (.array items)
  | union {v : Value} {members : List Shape} {s : Shape} (hs : s ∈ members)
      (h : Conforms table d v s) : Conforms table d v (.union members)
  | object {m : Entries} {l : Nat} {ps : List (Property Shape)} {a : Shape}
      (hown : ∀ p ∈ ps, Conforms table d (fieldOf m (nameIn d.source p)) p.shape)
      (hother : ∀ e ∈ remaining d ps m, Conforms table d e.2 a) :
      Conforms table d (.map m) (.object l ps a)

theorem conforms_iff_fits {v : Value} {s : Shape} (hs : isLeaf s = true) :
    Conforms table d v s ↔ Fits v s := by
  constructor
  · intro h
    cases h with
    | leaf h => exact h
    | ref | array | union | object => cases hs
  · exact .leaf

theorem fits_of_isPrimitive {v : Value} {kind : Primitive} (h : isPrimitive kind v = true) :
    Fits v (.primitive kind) := by
  cases kind <;> cases v <;> simp_all [isPrimitive, Fits]

theorem fits_of_leaf? {v y : Value} {s : Shape} (h : leaf? d v s = some y) : Fits v s := by
  cases s with
  | any => trivial
  | primitive kind =>
      simp only [leaf?] at h
      split at h
      · exact fits_of_isPrimitive ‹_›
      · cases h
  | literals values =>
      simp only [leaf?] at h
      split at h
      · split at h
        · exact ⟨_, ‹_›, rfl⟩
        · cases h
      · cases h
  | null | absent =>
      simp only [leaf?] at h
      split at h
      · rfl
      · cases h
  | date =>
      simp only [leaf?] at h
      split at h
      · exact Or.inl rfl
      · obtain ⟨m, hm, -⟩ := Option.map_eq_some_iff.mp h
        exact Or.inr ⟨m, hm⟩
  | _ => cases h

theorem conforms_of_verdict (htable : table.Everywhere Shape.NamesDistinct) : ∀ (n : Nat)
    {v y : Value} {s : Shape}, s.Everywhere Shape.NamesDistinct → verdict table d n v s = .ok y →
      Conforms table d v s
  | 0, _, _, _, _, h => by cases h
  | n + 1, v, y, s, hs, h => by
      have ih {c : Shape} (hc : c ∈ s.children) {w x : Value} (h : verdict table d n w c = .ok x) :
          Conforms table d w c := conforms_of_verdict htable n (hs.child hc) h
      have hhere := hs.here
      rw [verdict] at h
      cases s with
      | ref name =>
          obtain ⟨target, hg, h⟩ := judge_ref_eq_ok_iff.mp h
          exact .ref hg (conforms_of_verdict htable n (htable.of_get? hg) h)
      | array items =>
          obtain ⟨xs, f, he, hf, -⟩ := exists_of_judge_array h
          exact .array he fun x hx => ih List.mem_cons_self (hf x hx)
      | union members =>
          obtain ⟨s, hs', h⟩ := exists_of_judgeFirst_eq_ok h
          exact .union hs' (ih hs' h)
      | object l ps a =>
          cases v with
          | map m =>
              obtain ⟨own, other, hown, hother, -⟩ := exists_of_judge_object hhere h
              refine .object (fun p hp => ?_) fun e he => ?_
              · exact ih (List.mem_append_left _ (List.mem_map_of_mem hp)) (hown p hp)
              · exact ih (List.mem_append_right _ List.mem_cons_self) (hother e he).2
          | _ => cases h
      | any | primitive | literals | null | absent | never | date =>
          have hleaf := (judge_leaf_eq_ok_iff rfl).mp h
          exact (conforms_iff_fits rfl).mpr (fits_of_leaf? hleaf)

theorem conforms_of_run (htable : table.Everywhere Shape.NamesDistinct) {v y : Value} {s : Shape}
    (hs : s.Everywhere Shape.NamesDistinct) (h : run table d v s = .ok y) : Conforms table d v s :=
  conforms_of_verdict htable _ hs (run_eq_ok.mp h)

end Conversion

end Conform
