import Conform.Shape.Basic

/-!
# Parts of shapes

`Shape.children` are the shapes that a shape is directly made of; references are not followed.
What is computed over a whole shape is computed from its children (`parts_eq`, `references_eq`), and
children are smaller than the shape, so facts about all shapes are proved from children to parents
(`Shape.byChildren`).

`Shape.parts` lists a shape and all shapes nested in it.  What a shape refers to, which objects it
has and how large it is are read off this list (`mem_references_iff`, `mem_objects_iff`,
`length_parts`), and `Shape.Everywhere` says that something holds of all parts.
-/

namespace Conform

def ObjectShape.shape (o : ObjectShape) : Shape := .object o.label o.properties o.additional

namespace Shape

/-- The shapes that a shape is directly made of. -/
def children : Shape → List Shape
  | .array s => [s]
  | .union ss => ss
  | .object _ ps a => ps.map (·.shape) ++ [a]
  | _ => []

/-! ## Induction from children to parents -/

theorem size_le_of_mem {c : Shape} : ∀ {ss : List Shape}, c ∈ ss → c.size ≤ sizeOfList ss
  | s :: ss, h => by
      rw [sizeOfList]
      rcases List.mem_cons.mp h with rfl | h
      · exact Nat.le_add_right _ _
      · exact Nat.le_trans (size_le_of_mem h) (Nat.le_add_left _ _)

theorem size_le_of_mem_properties {p : Property Shape} : ∀ {ps : List (Property Shape)},
    p ∈ ps → p.shape.size ≤ sizeOfProperties ps
  | q :: ps, h => by
      rw [sizeOfProperties]
      rcases List.mem_cons.mp h with rfl | h
      · exact Nat.le_add_right _ _
      · exact Nat.le_trans (size_le_of_mem_properties h) (Nat.le_add_left _ _)

theorem size_lt_of_mem_children {c s : Shape} (h : c ∈ s.children) : c.size < s.size := by
  cases s with
  | array s =>
      rw [List.mem_singleton.mp h, size]
      omega
  | union ss =>
      have : c.size ≤ sizeOfList ss := size_le_of_mem h
      rw [size]
      omega
  | object l ps a =>
      rw [size]
      rcases List.mem_append.mp h with h | h
      · obtain ⟨p, hp, rfl⟩ := List.mem_map.mp h
        have := size_le_of_mem_properties hp
        omega
      · rw [List.mem_singleton.mp h]
        omega
  | _ => cases h

/-- What holds of a shape if it holds of its children holds of all shapes. -/
@[elab_as_elim]
theorem byChildren {P : Shape → Prop} (step : ∀ s, (∀ c ∈ s.children, P c) → P s) (s : Shape) :
    P s :=
  step s fun c h => have := size_lt_of_mem_children h; byChildren step c
termination_by s.size

/-! ## Parts -/

mutual
/-- The shape and the shapes nested in it, outer before inner. -/
def parts : Shape → List Shape
  | .array s => .array s :: s.parts
  | .union ss => .union ss :: partsOfList ss
  | .object l ps a => .object l ps a :: (partsOfProperties ps ++ a.parts)
  | s => [s]

def partsOfList : List Shape → List Shape
  | [] => []
  | s :: ss => s.parts ++ partsOfList ss

def partsOfProperties : List (Property Shape) → List Shape
  | [] => []
  | ⟨_, _, s, _⟩ :: ps => s.parts ++ partsOfProperties ps
end

theorem partsOfList_eq : ∀ ss : List Shape, partsOfList ss = ss.flatMap parts
  | [] => rfl
  | s :: ss => by rw [partsOfList, partsOfList_eq ss, List.flatMap_cons]

theorem partsOfProperties_eq : ∀ ps : List (Property Shape),
    partsOfProperties ps = (ps.map (·.shape)).flatMap parts
  | [] => rfl
  | p :: ps => by
      rw [partsOfProperties, partsOfProperties_eq ps, List.map_cons, List.flatMap_cons]

theorem parts_eq (s : Shape) : s.parts = s :: s.children.flatMap parts := by
  cases s with
  | array s => simp [parts, children]
  | union ss => rw [parts, partsOfList_eq]; rfl
  | object l ps a =>
      rw [parts, partsOfProperties_eq, children, List.flatMap_append, List.flatMap_singleton]
  | _ => rfl

theorem mem_parts_iff {p s : Shape} : p ∈ s.parts ↔ p = s ∨ ∃ c ∈ s.children, p ∈ c.parts := by
  rw [parts_eq, List.mem_cons, List.mem_flatMap]

theorem self_mem_parts (s : Shape) : s ∈ s.parts := mem_parts_iff.mpr (Or.inl rfl)

theorem child_mem_parts {c s : Shape} (h : c ∈ s.children) : c ∈ s.parts :=
  mem_parts_iff.mpr (Or.inr ⟨c, h, self_mem_parts c⟩)

theorem mem_parts_trans {p q s : Shape} (hq : q ∈ p.parts) (hp : p ∈ s.parts) : q ∈ s.parts := by
  induction s using byChildren with
  | step s ih =>
      rcases mem_parts_iff.mp hp with rfl | ⟨c, hc, hp⟩
      · exact hq
      · exact mem_parts_iff.mpr (Or.inr ⟨c, hc, ih c hc hp⟩)

mutual
theorem length_parts : ∀ s : Shape, s.parts.length = s.size
  | .array s => by rw [parts, size, List.length_cons, length_parts s, Nat.add_comm]
  | .union ss => by rw [parts, size, List.length_cons, length_partsOfList ss, Nat.add_comm]
  | .object _ ps a => by
      rw [parts, size, List.length_cons, List.length_append, length_partsOfProperties ps,
        length_parts a, Nat.add_comm, Nat.add_assoc]
  | .primitive _ | .literals _ | .ref _ | .date | .any | .null | .absent | .never => rfl

theorem length_partsOfList : ∀ ss : List Shape, (partsOfList ss).length = sizeOfList ss
  | [] => rfl
  | s :: ss => by
      rw [partsOfList, sizeOfList, List.length_append, length_parts s, length_partsOfList ss]

theorem length_partsOfProperties : ∀ ps : List (Property Shape),
    (partsOfProperties ps).length = sizeOfProperties ps
  | [] => rfl
  | ⟨_, _, s, _⟩ :: ps => by
      rw [partsOfProperties, sizeOfProperties, List.length_append, length_parts s,
        length_partsOfProperties ps]
end

/-! ## References -/

theorem referencesOfList_eq : ∀ ss : List Shape, referencesOfList ss = ss.flatMap references
  | [] => rfl
  | s :: ss => by rw [referencesOfList, referencesOfList_eq ss, List.flatMap_cons]

theorem referencesOfProperties_eq : ∀ ps : List (Property Shape),
    referencesOfProperties ps = (ps.map (·.shape)).flatMap references
  | [] => rfl
  | p :: ps => by
      rw [referencesOfProperties, referencesOfProperties_eq ps, List.map_cons, List.flatMap_cons]

theorem references_eq (s : Shape) :
    s.references = match s with
      | .ref name => [name]
      | s => s.children.flatMap references := by
  cases s with
  | array s => simp [references, children]
  | union ss => rw [references, referencesOfList_eq]; rfl
  | object l ps a =>
      rw [references, referencesOfProperties_eq]
      simp [children]
  | _ => rfl

theorem mem_references_iff {name : String} {s : Shape} :
    name ∈ s.references ↔ .ref name ∈ s.parts := by
  induction s using byChildren with
  | step s ih =>
      rw [references_eq, mem_parts_iff]
      cases s with
      | ref n => simp [children]
      | _ =>
          simp only [List.mem_flatMap, reduceCtorEq, false_or]
          exact exists_congr fun c => and_congr_right (ih c)

theorem references_of_child {c s : Shape} (h : c ∈ s.children) : c.references ⊆ s.references :=
  fun _ hn => mem_references_iff.mpr
    (mem_parts_trans (mem_references_iff.mp hn) (child_mem_parts h))

/-! ## Objects -/

theorem objectsOfList_eq : ∀ ss : List Shape, objectsOfList ss = ss.flatMap objects
  | [] => rfl
  | s :: ss => by rw [objectsOfList, objectsOfList_eq ss, List.flatMap_cons]

theorem objectsOfProperties_eq : ∀ ps : List (Property Shape),
    objectsOfProperties ps = (ps.map (·.shape)).flatMap objects
  | [] => rfl
  | p :: ps => by
      rw [objectsOfProperties, objectsOfProperties_eq ps, List.map_cons, List.flatMap_cons]

theorem objects_eq (s : Shape) :
    s.objects = match s with
      | .object l ps a => ⟨l, ps, a⟩ :: (object l ps a).children.flatMap objects
      | s => s.children.flatMap objects := by
  cases s with
  | array s => simp [objects, children]
  | union ss => rw [objects, objectsOfList_eq]; rfl
  | object l ps a =>
      rw [objects, objectsOfProperties_eq]
      simp [children]
  | _ => rfl

theorem mem_objects_iff {o : ObjectShape} {s : Shape} : o ∈ s.objects ↔ o.shape ∈ s.parts := by
  induction s using byChildren with
  | step s ih =>
      have hchildren : o ∈ s.children.flatMap objects ↔ ∃ c ∈ s.children, o.shape ∈ c.parts := by
        rw [List.mem_flatMap]
        exact exists_congr fun c => and_congr_right (ih c)
      rw [objects_eq, mem_parts_iff]
      cases s with
      | object l ps a =>
          rw [List.mem_cons, hchildren]
          refine or_congr_left ⟨fun h => by rw [h]; rfl, fun h => ?_⟩
          obtain ⟨rfl, rfl, rfl⟩ := Shape.object.inj h
          rfl
      | _ =>
          rw [hchildren]
          simp [ObjectShape.shape]

/-! ## What holds everywhere -/

/-- All parts of the shape are such. -/
def Everywhere (P : Shape → Prop) (s : Shape) : Prop := ∀ p ∈ s.parts, P p

variable {P : Shape → Prop}

theorem Everywhere.here {s : Shape} (h : s.Everywhere P) : P s := h s (self_mem_parts s)

theorem everywhere_of_children {s : Shape} (hs : P s) (h : ∀ c ∈ s.children, c.Everywhere P) :
    s.Everywhere P := by
  intro p hp
  rcases mem_parts_iff.mp hp with rfl | ⟨c, hc, hp⟩
  · exact hs
  · exact h c hc p hp

theorem Everywhere.child {c s : Shape} (h : s.Everywhere P) (hc : c ∈ s.children) :
    c.Everywhere P :=
  fun _ hp => h _ (mem_parts_trans hp (child_mem_parts hc))

theorem Everywhere.property {l : Nat} {ps : List (Property Shape)} {a : Shape}
    (h : (object l ps a).Everywhere P) {p : Property Shape} (hp : p ∈ ps) :
    p.shape.Everywhere P :=
  h.child (List.mem_append_left _ (List.mem_map_of_mem hp))

theorem Everywhere.additional {l : Nat} {ps : List (Property Shape)} {a : Shape}
    (h : (object l ps a).Everywhere P) : a.Everywhere P :=
  h.child (List.mem_append_right _ List.mem_cons_self)

end Shape

end Conform
