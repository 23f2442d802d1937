import Conform.FieldMap
import Conform.Proofs.Shape.Parts
import Mathlib.Data.List.Nodup

/-!
# Field maps

An object whose fields have distinct names in both roles, which `Shape.object?` checks, has in each
direction the field map that its list of fields shows: one entry for each field, in the order of
declaration (`ofObject_eq_map`).
-/

namespace Conform

namespace Shape

/-! ## Distinct names -/

theorem firstRepeated?_eq_none_iff : ∀ {names seen : List String},
    firstRepeated? seen names = none ↔ names.Nodup ∧ ∀ name ∈ names, name ∉ seen
  | [], seen => by simp [firstRepeated?]
  | name :: names, seen => by
      rw [firstRepeated?]
      by_cases h : name ∈ seen
      · rw [if_pos h]
        constructor
        · intro h
          cases h
        · rintro ⟨-, h'⟩
          exact absurd h (h' name List.mem_cons_self)
      · rw [if_neg h, firstRepeated?_eq_none_iff, List.nodup_cons]
        constructor
        · rintro ⟨hn, hs⟩
          refine ⟨⟨fun hm => hs name hm List.mem_cons_self, hn⟩, fun m hm => ?_⟩
          rcases List.mem_cons.mp hm with rfl | hm
          · exact h
          · exact fun hs' => hs m hm (List.mem_cons_of_mem _ hs')
        · rintro ⟨⟨hm, hn⟩, hs⟩
          refine ⟨hn, fun m hm' hc => ?_⟩
          rcases List.mem_cons.mp hc with rfl | hc
          · exact hm hm'
          · exact hs m (List.mem_cons_of_mem _ hm') hc

theorem repeatedName?_eq_none_iff {ps : List (Property Shape)} :
    repeatedName? ps = none ↔ ∀ role, (ps.map (nameIn role)).Nodup := by
  have hnone (role : NameRole) : firstRepeated? [] (ps.map (nameIn role)) = none ↔
      (ps.map (nameIn role)).Nodup := by
    simp [firstRepeated?_eq_none_iff]
  rw [repeatedName?]
  constructor
  · intro h role
    cases hs : firstRepeated? [] (ps.map (nameIn .serialized)) with
    | some name => rw [hs] at h; cases h
    | none =>
        rw [hs] at h
        cases role with
        | serialized => exact (hnone _).mp hs
        | typed => exact (hnone _).mp (Option.map_eq_none_iff.mp h)
  · intro h
    rw [(hnone _).mpr (h .serialized), (hnone _).mpr (h .typed)]
    rfl

end Shape

/-! ## The two names of a field in a direction -/

namespace Direction

/-- The role of the names that a conversion reads. -/
def source : Direction → Shape.NameRole
  | .decode => .serialized
  | .encode => .typed

/-- The role of the names that a conversion writes. -/
def target : Direction → Shape.NameRole
  | .decode => .typed
  | .encode => .serialized

end Direction

namespace FieldMap

theorem entry_eq (d : Direction) (p : Property Shape) :
    entry d p = (Shape.nameIn d.source p, ⟨Shape.nameIn d.target p, p.shape⟩) := by
  cases d <;> rfl

def names (fields : FieldMap) : List String := fields.map (·.1)

def targets (fields : FieldMap) : List String := fields.map (·.2.name)

theorem declares_iff {fields : FieldMap} {key : Value} :
    fields.declares key = true ↔ ∃ name ∈ fields.names, key = .text name := by
  cases key with
  | text s => simp [declares, names]
  | _ => simp [declares]

/-! ## The field map of an object -/

theorem mem_put {fields : FieldMap} {name : String} {target : FieldTarget}
    {e : String × FieldTarget} (h : e ∈ put fields name target) :
    e ∈ fields ∨ e = (name, target) := by
  induction fields with
  | nil => exact Or.inr (List.mem_singleton.mp h)
  | cons f fields ih =>
      rw [put] at h
      by_cases hf : f.1 = name
      · rw [if_pos (beq_iff_eq.mpr hf)] at h
        rcases List.mem_cons.mp h with rfl | h
        · exact Or.inr (by rw [hf])
        · exact Or.inl (List.mem_cons_of_mem f h)
      · rw [if_neg (mt beq_iff_eq.mp hf)] at h
        rcases List.mem_cons.mp h with rfl | h
        · exact Or.inl List.mem_cons_self
        · exact (ih h).imp_left (List.mem_cons_of_mem f)

theorem put_of_fresh {fields : FieldMap} {name : String} (h : name ∉ fields.names)
    (target : FieldTarget) : put fields name target = fields ++ [(name, target)] := by
  induction fields with
  | nil => rfl
  | cons f fields ih =>
      have hne : ¬ f.1 = name := fun heq => h (heq ▸ List.mem_cons_self)
      rw [put, if_neg (mt beq_iff_eq.mp hne), ih fun hm => h (List.mem_cons_of_mem _ hm),
        List.cons_append]

theorem mem_ofObject {object : ObjectShape} {d : Direction} {e : String × FieldTarget}
    (h : e ∈ ofObject object d) : ∃ p ∈ object.properties, e = entry d p := by
  have key : ∀ (ps : List (Property Shape)) (fields : FieldMap),
      e ∈ ps.foldl (fun fields p => put fields (entry d p).1 (entry d p).2) fields →
        e ∈ fields ∨ ∃ p ∈ ps, e = entry d p := by
    intro ps
    induction ps with
    | nil => exact fun _ => Or.inl
    | cons p ps ih =>
        intro fields h
        rcases ih _ h with h | ⟨q, hq, he⟩
        · rcases mem_put h with h | h
          · exact Or.inl h
          · exact Or.inr ⟨p, List.mem_cons_self, h⟩
        · exact Or.inr ⟨q, List.mem_cons_of_mem p hq, he⟩
  exact (key _ _ h).resolve_left (by simp)

theorem shape_mem_children {l : Nat} {ps : List (Property Shape)} {a : Shape} {d : Direction}
    {name : String} {target : FieldTarget} (h : (name, target) ∈ ofObject ⟨l, ps, a⟩ d) :
    target.shape ∈ (Shape.object l ps a).children := by
  obtain ⟨p, hp, he⟩ := mem_ofObject h
  rw [entry_eq] at he
  obtain ⟨-, rfl⟩ := Prod.mk.inj he
  exact List.mem_append_left _ (List.mem_map_of_mem hp)

/-- With distinct names, the field map is the list of fields, read in the direction. -/
theorem ofObject_eq_map {object : ObjectShape}
    (h : Shape.repeatedName? object.properties = none) (d : Direction) :
    ofObject object d = object.properties.map (entry d) := by
  have key : ∀ (ps : List (Property Shape)) (fields : FieldMap),
      (fields.names ++ ps.map (Shape.nameIn d.source)).Nodup →
        ps.foldl (fun fields p => put fields (entry d p).1 (entry d p).2) fields =
          fields ++ ps.map (entry d) := by
    intro ps
    induction ps with
    | nil => intro fields _; simp
    | cons p ps ih =>
        intro fields hn
        rw [List.map_cons] at hn
        have hfresh : (entry d p).1 ∉ fields.names := by
          rw [entry_eq]
          exact fun hm => (List.nodup_append.mp hn).2.2 _ hm _ List.mem_cons_self rfl
        rw [List.foldl_cons, put_of_fresh hfresh, ih, List.map_cons, List.append_assoc]
        · rfl
        · rw [names, List.map_append, List.append_assoc]
          rw [entry_eq]
          exact hn
  exact key _ [] (Shape.repeatedName?_eq_none_iff.mp h _)

theorem names_ofObject {object : ObjectShape}
    (h : Shape.repeatedName? object.properties = none) (d : Direction) :
    (ofObject object d).names = object.properties.map (Shape.nameIn d.source) := by
  rw [names, ofObject_eq_map h, List.map_map]
  exact List.map_congr_left fun p _ => by rw [Function.comp_apply, entry_eq]

theorem targets_ofObject {object : ObjectShape}
    (h : Shape.repeatedName? object.properties = none) (d : Direction) :
    (ofObject object d).targets = object.properties.map (Shape.nameIn d.target) := by
  rw [targets, ofObject_eq_map h, List.map_map]
  exact List.map_congr_left fun p _ => by rw [Function.comp_apply, entry_eq]

end FieldMap

end Conform
