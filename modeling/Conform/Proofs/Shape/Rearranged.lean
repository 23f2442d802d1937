import Conform.Proofs.FieldMap
import Conform.Proofs.Shape.Parts
import Conform.Proofs.UpToOrder

/-!
# Rearranged shapes

Two shapes are `Rearranged` if they differ in nothing but the order of the members of unions and of
the fields of objects, at any depth.  They have the same kinds of parts: each child of the one has a
counterpart among the children of the other, and so has each part, at whatever depth it stands
(`exists_part`).  What is read off the parts of a shape, such as the names it refers to, is
therefore the same for both.

The labels of objects are not compared, for the object with the other order is another one.
-/

namespace Conform.Shape

mutual
/-- Equal up to the order of the members of unions and of the fields of objects, at any depth. -/
inductive Rearranged : Shape → Shape → Prop where
  | refl (s : Shape) : Rearranged s s
  | array {s t : Shape} (items : Rearranged s t) : Rearranged (.array s) (.array t)
  /-- The members are put into another order, and then each is rearranged. -/
  | union {ss mid ts : List Shape} (order : ss.Perm mid)
      (members : List.Forall₂ Rearranged mid ts) : Rearranged (.union ss) (.union ts)
  /-- The fields are put into another order, and then the shape of each is rearranged. -/
  | object {l k : Nat} {ps mid qs : List (Property Shape)} {a b : Shape} (order : ps.Perm mid)
      (fields : List.Forall₂ RearrangedField mid qs) (additional : Rearranged a b) :
      Rearranged (.object l ps a) (.object k qs b)

/-- Fields with the same names and remark, whose shapes are rearranged. -/
inductive RearrangedField : Property Shape → Property Shape → Prop where
  | mk (serialized typed : String) (description : Option String) {s t : Shape}
      (shape : Rearranged s t) :
      RearrangedField ⟨serialized, typed, s, description⟩ ⟨serialized, typed, t, description⟩
end

theorem RearrangedField.refl (p : Property Shape) : RearrangedField p p :=
  .mk p.serialized p.typed p.description (.refl p.shape)

theorem RearrangedField.shape {p q : Property Shape} (h : RearrangedField p q) :
    Rearranged p.shape q.shape := by
  cases h with
  | mk _ _ _ h => exact h

theorem RearrangedField.nameIn_eq {p q : Property Shape} (h : RearrangedField p q)
    (role : NameRole) : nameIn role p = nameIn role q := by
  cases h with
  | mk => cases role <;> rfl

mutual
theorem Rearranged.symm {s t : Shape} : Rearranged s t → Rearranged t s
  | .refl s => .refl s
  | .array h => .array h.symm
  | .union order members =>
      have ⟨_, order, members⟩ := UpToOrder.of_forall₂_perm (symm_members members) order.symm
      .union order members
  | .object order fields additional =>
      have ⟨_, order, fields⟩ := UpToOrder.of_forall₂_perm (symm_fields fields) order.symm
      .object order fields additional.symm

theorem RearrangedField.symm {p q : Property Shape} : RearrangedField p q → RearrangedField q p
  | .mk x y d h => .mk x y d h.symm

theorem symm_members {ss ts : List Shape} :
    List.Forall₂ Rearranged ss ts → List.Forall₂ Rearranged ts ss
  | .nil => .nil
  | .cons h hs => .cons h.symm (symm_members hs)

theorem symm_fields {ps qs : List (Property Shape)} :
    List.Forall₂ RearrangedField ps qs → List.Forall₂ RearrangedField qs ps
  | .nil => .nil
  | .cons h hs => .cons h.symm (symm_fields hs)
end

/-! ## What a rearranged shape looks like -/

variable {s t : Shape}

theorem Rearranged.eq_of_ref {name : String} (h : Rearranged (.ref name) t) : t = .ref name := by
  cases h with
  | refl => rfl

theorem Rearranged.exists_of_array {items : Shape} (h : Rearranged (.array items) t) :
    ∃ items', t = .array items' ∧ Rearranged items items' := by
  cases h with
  | refl => exact ⟨items, rfl, .refl items⟩
  | array h => exact ⟨_, rfl, h⟩

theorem Rearranged.exists_of_union {ss : List Shape} (h : Rearranged (.union ss) t) :
    ∃ ts, t = .union ts ∧ UpToOrder Rearranged ss ts := by
  cases h with
  | refl => exact ⟨ss, rfl, .refl .refl ss⟩
  | union order members => exact ⟨_, rfl, _, order, members⟩

theorem Rearranged.exists_of_object {l : Nat} {ps : List (Property Shape)} {a : Shape}
    (h : Rearranged (.object l ps a) t) :
    ∃ k qs b, t = .object k qs b ∧ UpToOrder RearrangedField ps qs ∧ Rearranged a b := by
  cases h with
  | refl => exact ⟨l, ps, a, rfl, .refl .refl ps, .refl a⟩
  | object order fields additional => exact ⟨_, _, _, rfl, ⟨_, order, fields⟩, additional⟩

theorem Rearranged.exists_child (h : Rearranged s t) {c : Shape} (hc : c ∈ t.children) :
    ∃ b ∈ s.children, Rearranged b c := by
  cases h with
  | refl => exact ⟨c, hc, .refl c⟩
  | array h =>
      rw [List.mem_singleton.mp hc]
      exact ⟨_, List.mem_cons_self, h⟩
  | union order members => exact UpToOrder.exists_of_mem_right ⟨_, order, members⟩ hc
  | object order fields additional =>
      rcases List.mem_append.mp hc with hc | hc
      · obtain ⟨q, hq, rfl⟩ := List.mem_map.mp hc
        obtain ⟨p, hp, hpq⟩ := UpToOrder.exists_of_mem_right ⟨_, order, fields⟩ hq
        exact ⟨p.shape, List.mem_append_left _ (List.mem_map_of_mem hp), hpq.shape⟩
      · rw [List.mem_singleton.mp hc]
        exact ⟨_, List.mem_append_right _ List.mem_cons_self, additional⟩

theorem Rearranged.exists_part (h : Rearranged s t) {q : Shape} (hq : q ∈ t.parts) :
    ∃ p ∈ s.parts, Rearranged p q := by
  induction t using byChildren generalizing s with
  | step t ih =>
      rcases mem_parts_iff.mp hq with rfl | ⟨c, hc, hq⟩
      · exact ⟨s, s.self_mem_parts, h⟩
      · obtain ⟨b, hb, hbc⟩ := h.exists_child hc
        obtain ⟨p, hp, hpq⟩ := ih c hc hbc hq
        exact ⟨p, mem_parts_trans hp (child_mem_parts hb), hpq⟩

theorem Rearranged.references_subset (h : Rearranged s t) : t.references ⊆ s.references := by
  intro name hname
  obtain ⟨p, hp, hr⟩ := h.exists_part (mem_references_iff.mp hname)
  rw [hr.symm.eq_of_ref] at hp
  exact mem_references_iff.mpr hp

/-- What holds of a shape whenever it holds of a rearranged one holds everywhere in both. -/
theorem Rearranged.everywhere {P : Shape → Prop} (hP : ∀ p q, Rearranged p q → P p → P q)
    (h : Rearranged s t) (hs : s.Everywhere P) : t.Everywhere P := by
  intro q hq
  obtain ⟨p, hp, hpq⟩ := h.exists_part hq
  exact hP p q hpq (hs p hp)

/-! ## Names of fields -/

variable {ps qs : List (Property Shape)}

theorem names_perm (h : UpToOrder RearrangedField ps qs) (role : NameRole) :
    (ps.map (nameIn role)).Perm (qs.map (nameIn role)) :=
  h.perm_map fun _ _ hpq => hpq.nameIn_eq role

theorem repeatedName?_eq_none_of_rearranged (h : UpToOrder RearrangedField ps qs)
    (hps : repeatedName? ps = none) : repeatedName? qs = none := by
  rw [repeatedName?_eq_none_iff] at hps ⊢
  intro role
  exact (names_perm h role).nodup_iff.mp (hps role)

end Conform.Shape
