import Conform.Proofs.Shape.Parts
import Mathlib.Data.List.Basic

/-!
# Shapes without their labels

Shapes are equal up to the labels of their objects if they are equal once all objects have the same
label (`Shape.unlabelled`).  Labelling the objects anew changes nothing else (`unlabelled_label`),
and what is read off the parts of a shape, such as the names it refers to, does not depend on the
labels (`everywhere_unlabelled`, `references_unlabelled`).
-/

namespace Conform.Shape

mutual
/-- The shape with one label for all objects in it. -/
def unlabelled : Shape → Shape
  | .array s => .array s.unlabelled
  | .union ss => .union (unlabelledList ss)
  | .object _ ps a => .object 0 (unlabelledProperties ps) a.unlabelled
  | s => s

def unlabelledList : List Shape → List Shape
  | [] => []
  | s :: ss => s.unlabelled :: unlabelledList ss

def unlabelledProperties : List (Property Shape) → List (Property Shape)
  | [] => []
  | ⟨x, y, s, d⟩ :: ps => ⟨x, y, s.unlabelled, d⟩ :: unlabelledProperties ps
end

def unlabelledField (p : Property Shape) : Property Shape :=
  ⟨p.serialized, p.typed, p.shape.unlabelled, p.description⟩

theorem unlabelledList_eq (ss : List Shape) : unlabelledList ss = ss.map unlabelled := by
  induction ss with
  | nil => rfl
  | cons s ss ih => rw [unlabelledList, ih, List.map_cons]

theorem unlabelledProperties_eq (ps : List (Property Shape)) :
    unlabelledProperties ps = ps.map unlabelledField := by
  induction ps with
  | nil => rfl
  | cons p ps ih => rw [unlabelledProperties, ih, List.map_cons, unlabelledField]

@[simp] theorem unlabelled_union (ss : List Shape) :
    (union ss).unlabelled = .union (ss.map unlabelled) := by
  rw [unlabelled, unlabelledList_eq]

@[simp] theorem unlabelled_object (l : Nat) (ps : List (Property Shape)) (a : Shape) :
    (object l ps a).unlabelled = .object 0 (ps.map unlabelledField) a.unlabelled := by
  rw [unlabelled, unlabelledProperties_eq]

theorem map_nameIn_unlabelledField (role : NameRole) (ps : List (Property Shape)) :
    (ps.map unlabelledField).map (nameIn role) = ps.map (nameIn role) := by
  rw [List.map_map]
  refine List.map_congr_left fun p _ => ?_
  cases role <;> rfl

theorem repeatedName?_unlabelledField (ps : List (Property Shape)) :
    repeatedName? (ps.map unlabelledField) = repeatedName? ps := by
  rw [repeatedName?, repeatedName?, map_nameIn_unlabelledField, map_nameIn_unlabelledField]

/-! ## Labels do not matter -/

mutual
/-- Labelling the objects of a shape anew changes nothing but the labels. -/
theorem unlabelled_label (n : Nat) : ∀ s : Shape, (s.label n).1.unlabelled = s.unlabelled
  | .array s => by rw [label, unlabelled, unlabelled, unlabelled_label n s]
  | .union ss => by rw [label, unlabelled, unlabelled, unlabelledList_labelList n ss]
  | .object _ ps a => by
      rw [label, unlabelled, unlabelled, unlabelledProperties_labelProperties,
        unlabelled_label _ a]
  | .primitive _ | .literals _ | .ref _ | .date | .any | .null | .absent | .never => rfl

theorem unlabelledList_labelList (n : Nat) : ∀ ss : List Shape,
    unlabelledList (labelList n ss).1 = unlabelledList ss
  | [] => rfl
  | s :: ss => by
      rw [labelList, unlabelledList, unlabelledList, unlabelled_label n s,
        unlabelledList_labelList _ ss]

theorem unlabelledProperties_labelProperties (n : Nat) : ∀ ps : List (Property Shape),
    unlabelledProperties (labelProperties n ps).1 = unlabelledProperties ps
  | [] => rfl
  | ⟨x, y, s, d⟩ :: ps => by
      rw [labelProperties, unlabelledProperties, unlabelledProperties, unlabelled_label n s,
        unlabelledProperties_labelProperties _ ps]
end

theorem unlabelled_unlabelled (s : Shape) : s.unlabelled.unlabelled = s.unlabelled := by
  induction s using byChildren with
  | step s ih =>
      cases s with
      | array s => exact congrArg array (ih s List.mem_cons_self)
      | union ss =>
          have hmembers : ∀ s ∈ ss, (unlabelled ∘ unlabelled) s = s.unlabelled := ih
          rw [unlabelled_union, unlabelled_union, List.map_map, List.map_congr_left hmembers]
      | object l ps a =>
          have hfields : ∀ p ∈ ps, (unlabelledField ∘ unlabelledField) p = unlabelledField p := by
            intro p hp
            have hshape : p.shape ∈ (object l ps a).children :=
              List.mem_append_left _ (List.mem_map_of_mem hp)
            simp only [Function.comp_apply, unlabelledField, ih p.shape hshape]
          have hother : a ∈ (object l ps a).children := List.mem_append_right _ List.mem_cons_self
          rw [unlabelled_object, unlabelled_object, List.map_map, List.map_congr_left hfields,
            ih a hother]
      | _ => rfl

/-! ## Parts -/

theorem children_unlabelled (s : Shape) : s.unlabelled.children = s.children.map unlabelled := by
  cases s with
  | union ss => rw [unlabelled_union, children, children]
  | object l ps a =>
      rw [unlabelled_object, children, children, List.map_append, List.map_map, List.map_map]
      rfl
  | _ => rfl

theorem parts_unlabelled (s : Shape) : s.unlabelled.parts = s.parts.map unlabelled := by
  induction s using byChildren with
  | step s ih =>
      rw [parts_eq, parts_eq s, children_unlabelled, List.map_cons, List.flatMap_map,
        List.map_flatMap, List.flatMap_congr ih]

theorem everywhere_unlabelled {P : Shape → Prop} (hP : ∀ p : Shape, P p.unlabelled ↔ P p)
    (s : Shape) : s.unlabelled.Everywhere P ↔ s.Everywhere P := by
  rw [Everywhere, Everywhere, parts_unlabelled]
  simp only [List.mem_map, forall_exists_index, and_imp, forall_apply_eq_imp_iff₂, hP]

theorem references_unlabelled (s : Shape) : s.unlabelled.references = s.references := by
  induction s using byChildren with
  | step s ih =>
      have hchildren : s.unlabelled.children.flatMap references =
          s.children.flatMap references := by
        rw [children_unlabelled, List.flatMap_map, List.flatMap_congr ih]
      rw [references_eq, references_eq s]
      cases s with
      | array | union | object => exact hchildren
      | _ => rfl

/-! ## Shapes that differ in labels only -/

/-- The shapes are equal but for the labels of the objects in them. -/
def SameUpToLabels (s t : Shape) : Prop := s.unlabelled = t.unlabelled

variable {s t : Shape}

theorem sameUpToLabels_unlabelled (s : Shape) : s.SameUpToLabels s.unlabelled :=
  (unlabelled_unlabelled s).symm

theorem sameUpToLabels_label (s : Shape) (n : Nat) : s.SameUpToLabels (s.label n).1 :=
  (unlabelled_label n s).symm

theorem SameUpToLabels.references_eq (h : s.SameUpToLabels t) : s.references = t.references := by
  rw [← references_unlabelled, h, references_unlabelled]

theorem SameUpToLabels.eq_ref {name : String} (h : s.SameUpToLabels (ref name)) :
    s = .ref name := by
  cases s with
  | ref n => exact h
  | array | union | object => simp [SameUpToLabels, unlabelled] at h
  | _ => cases h

/-- What does not depend on labels holds everywhere in both shapes. -/
theorem SameUpToLabels.everywhere {P : Shape → Prop} (hP : ∀ p : Shape, P p.unlabelled ↔ P p)
    (h : s.SameUpToLabels t) (hs : s.Everywhere P) : t.Everywhere P := by
  rw [← everywhere_unlabelled hP, ← h, everywhere_unlabelled hP]
  exact hs

end Conform.Shape
