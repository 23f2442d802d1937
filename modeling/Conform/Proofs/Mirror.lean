import Conform.Proofs.FieldMap
import Conform.Proofs.Table.Related
import Conform.Shape.Describe

/-!
# Mirrored shapes and tables

The mirror of a shape has the serialized and the typed name of every field exchanged, at any depth.
What a shape is called, which names of types it refers to and how large it is do not depend on the
names of its fields (`describe_mirror`, `references_mirror`, `size_mirror`), and an object whose
fields have distinct names in both roles keeps them in the exchanged roles.  So the mirror of a
table is a table (`Table.mirror`).
-/

namespace Conform

def Direction.opposite : Direction → Direction
  | .decode => .encode
  | .encode => .decode

namespace Shape

mutual
/-- The shape with the two names of every field exchanged. -/
def mirror : Shape → Shape
  | .array s => .array s.mirror
  | .union ss => .union (mirrorList ss)
  | .object l ps a => .object l (mirrorProperties ps) a.mirror
  | s => s

def mirrorList : List Shape → List Shape
  | [] => []
  | s :: ss => s.mirror :: mirrorList ss

def mirrorProperties : List (Property Shape) → List (Property Shape)
  | [] => []
  | ⟨x, y, s, d⟩ :: ps => ⟨y, x, s.mirror, d⟩ :: mirrorProperties ps
end

/-- A field with its names exchanged, there and in its shape. -/
def mirrorField (p : Property Shape) : Property Shape :=
  ⟨p.typed, p.serialized, p.shape.mirror, p.description⟩

theorem mirrorList_eq (ss : List Shape) : mirrorList ss = ss.map mirror := by
  induction ss with
  | nil => rfl
  | cons s ss ih => rw [mirrorList, ih, List.map_cons]

theorem mirrorProperties_eq (ps : List (Property Shape)) :
    mirrorProperties ps = ps.map mirrorField := by
  induction ps with
  | nil => rfl
  | cons p ps ih => rw [mirrorProperties, ih, List.map_cons, mirrorField]

@[simp] theorem mirror_union (ss : List Shape) : (union ss).mirror = .union (ss.map mirror) := by
  rw [mirror, mirrorList_eq]

@[simp] theorem mirror_object (l : Nat) (ps : List (Property Shape)) (a : Shape) :
    (object l ps a).mirror = .object l (ps.map mirrorField) a.mirror := by
  rw [mirror, mirrorProperties_eq]

/-! ## Parts of a mirrored shape -/

theorem children_mirror (s : Shape) : s.mirror.children = s.children.map mirror := by
  cases s with
  | union ss => rw [mirror_union, children, children]
  | object l ps a =>
      rw [mirror_object, children, children, List.map_append, List.map_map, List.map_map]
      rfl
  | _ => rfl

theorem parts_mirror (s : Shape) : s.mirror.parts = s.parts.map mirror := by
  induction s using byChildren with
  | step s ih =>
      rw [parts_eq, parts_eq s, children_mirror, List.map_cons, List.flatMap_map, List.map_flatMap,
        List.flatMap_congr ih]

theorem mirror_mirror (s : Shape) : s.mirror.mirror = s := by
  induction s using byChildren with
  | step s ih =>
      cases s with
      | array s => exact congrArg array (ih s List.mem_cons_self)
      | union ss =>
          have hmembers : ∀ s ∈ ss, (mirror ∘ mirror) s = s := ih
          rw [mirror_union, mirror_union, List.map_map, List.map_congr_left hmembers, List.map_id']
      | object l ps a =>
          have hfields : ∀ p ∈ ps, (mirrorField ∘ mirrorField) p = p := fun p hp => by
            have hshape : p.shape ∈ (object l ps a).children :=
              List.mem_append_left _ (List.mem_map_of_mem hp)
            simp only [Function.comp_apply, mirrorField, ih p.shape hshape]
          have hother : a ∈ (object l ps a).children :=
            List.mem_append_right _ List.mem_cons_self
          rw [mirror_object, mirror_object, List.map_map, List.map_congr_left hfields, List.map_id',
            ih a hother]
      | _ => rfl

theorem eq_ref_of_mirror_eq {s : Shape} {name : String} (h : .ref name = s.mirror) :
    s = .ref name := by
  rw [← mirror_mirror s, ← h]
  rfl

/-! ## What the names of fields do not matter for -/

theorem references_mirror (s : Shape) : s.mirror.references = s.references := by
  induction s using byChildren with
  | step s ih =>
      have hchildren : s.mirror.children.flatMap references = s.children.flatMap references := by
        rw [children_mirror, List.flatMap_map, List.flatMap_congr ih]
      rw [references_eq, references_eq s]
      cases s with
      | array | union | object => exact hchildren
      | _ => rfl

theorem references_subset_of_eq_mirror {s t : Shape} (h : t = s.mirror) :
    t.references ⊆ s.references := by
  rw [h, references_mirror]
  exact List.Subset.refl _

theorem size_mirror (s : Shape) : s.mirror.size = s.size := by
  rw [← length_parts, parts_mirror, List.length_map, length_parts]

theorem describeAll_eq (ss : List Shape) : describeAll ss = ss.map describe := by
  induction ss with
  | nil => rfl
  | cons s ss ih => rw [describeAll, ih, List.map_cons]

theorem eq_absent_of_mirror_eq {s : Shape} (h : s.mirror = .absent) : s = .absent := by
  rw [← mirror_mirror s, h]
  rfl

theorem describe_mirror (s : Shape) : s.mirror.describe = s.describe := by
  induction s using byChildren with
  | step s ih =>
      cases s with
      | union ss =>
          rw [mirror_union]
          by_cases hoptional : ∃ s, ss = [.absent, s]
          · obtain ⟨s, rfl⟩ := hoptional
            have hs : s ∈ (union [.absent, s]).children := by simp [children]
            exact congrArg ("an optional " ++ ·) (ih s hs)
          · have hss : ∀ s, ss = [.absent, s] → False := fun s h => hoptional ⟨s, h⟩
            have hmirror : ∀ t, ss.map mirror = [.absent, t] → False := by
              intro t h
              obtain ⟨q, rest, rfl, hq, hrest⟩ := List.map_eq_cons_iff.mp h
              obtain ⟨s, _, rfl, -, hnil⟩ := List.map_eq_cons_iff.mp hrest
              rw [List.map_eq_nil_iff.mp hnil, eq_absent_of_mirror_eq hq] at hss
              exact hss s rfl
            rw [describe, describe, describeAll_eq, describeAll_eq, List.map_map]
            have hmembers : ∀ s ∈ ss, (describe ∘ mirror) s = s.describe := ih
            rw [List.map_congr_left hmembers]
            all_goals assumption
      | _ => rfl

/-! ## Names of fields -/

theorem repeatedName?_mirrorField {ps : List (Property Shape)} (h : repeatedName? ps = none) :
    repeatedName? (ps.map mirrorField) = none := by
  rw [repeatedName?_eq_none_iff] at h ⊢
  intro role
  rw [List.map_map]
  cases role with
  | serialized => exact h .typed
  | typed => exact h .serialized

end Shape

namespace FieldMap

open Shape (mirrorField)

/-- A field map with the shapes of the fields mirrored. -/
def mirror (fields : FieldMap) : FieldMap :=
  fields.map fun e => (e.1, ⟨e.2.name, e.2.shape.mirror⟩)

theorem entry_mirrorField (d : Direction) (p : Property Shape) :
    entry d.opposite (mirrorField p) =
      ((entry d p).1, ⟨(entry d p).2.name, (entry d p).2.shape.mirror⟩) := by
  cases d <;> rfl

theorem mirror_put (fields : FieldMap) (name : String) (target : FieldTarget) :
    mirror (put fields name target) = put (mirror fields) name ⟨target.name, target.shape.mirror⟩ := by
  induction fields with
  | nil => rfl
  | cons e fields ih =>
      simp only [put, mirror, List.map_cons]
      split
      · rfl
      · exact congrArg (List.cons _) ih

/-- What the mirror of an object reads and writes in the other direction is what the object reads
and writes. -/
theorem ofObject_mirror (l : Nat) (ps : List (Property Shape)) (a : Shape) (d : Direction) :
    ofObject ⟨l, ps.map mirrorField, a.mirror⟩ d.opposite = mirror (ofObject ⟨l, ps, a⟩ d) := by
  have key : ∀ (ps : List (Property Shape)) (fields : FieldMap),
      (ps.map mirrorField).foldl
          (fun fields p => put fields (entry d.opposite p).1 (entry d.opposite p).2) (mirror fields) =
        mirror (ps.foldl (fun fields p => put fields (entry d p).1 (entry d p).2) fields) := by
    intro ps
    induction ps with
    | nil => intro fields; rfl
    | cons p ps ih =>
        intro fields
        rw [List.map_cons, List.foldl_cons, List.foldl_cons, ← ih, mirror_put, entry_mirrorField]
  exact key ps []

theorem declares_mirror (fields : FieldMap) (key : Value) :
    (mirror fields).declares key = fields.declares key := by
  cases key with
  | text s => rw [declares, declares, mirror, List.any_map]; rfl
  | _ => rfl

end FieldMap

/-! ## Tables -/

namespace NamedShapes

def mirror (es : NamedShapes) : NamedShapes := es.map fun e => (e.1, e.2.mirror)

theorem related_mirror (es : NamedShapes) : Related (fun s t => t = s.mirror) es es.mirror := by
  rw [Related, mirror, List.forall₂_map_right_iff, List.forall₂_same]
  exact fun _ _ => ⟨rfl, rfl⟩

theorem get?_mirror (es : NamedShapes) (name : String) :
    es.mirror.get? name = (es.get? name).map Shape.mirror := by
  rw [get?, get?, mirror, List.find?_map, Option.map_map, Option.map_map]
  rfl

end NamedShapes

namespace Table

def mirror (t : Table) : Table where
  entries := t.entries.mirror
  distinct := t.entries.related_mirror.names_eq ▸ t.distinct
  closed := t.entries.related_mirror.closed (fun _ _ => Shape.references_subset_of_eq_mirror) t.closed
  grounded := t.entries.related_mirror.grounded (fun _ _ => Shape.eq_ref_of_mirror_eq) t.grounded

variable (t : Table)

theorem get?_mirror (name : String) : t.mirror.get? name = (t.get? name).map Shape.mirror :=
  t.entries.get?_mirror name

theorem size_mirror : t.mirror.size = t.size := by
  have hentries : t.mirror.entries = t.entries.map fun e => (e.1, e.2.mirror) := rfl
  rw [size, size, hentries, List.foldl_map]
  simp only [Shape.size_mirror]

end Table

end Conform
