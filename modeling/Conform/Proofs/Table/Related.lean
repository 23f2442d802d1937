import Conform.Proofs.Table.Build
import Conform.Proofs.Table.Productive
import Conform.Proofs.UpToOrder

/-!
# Tables with related shapes

Named shapes are `Related` if they have the same names in the same order and their shapes are
related.  Being a table is passed on: if a related shape refers to no other names, and is a bare
reference only if the first one is that reference, then each of the two checks passes, for it passes
at the corresponding entries (`Related.closed`, `Related.grounded`).
-/

namespace Conform

namespace NamedShapes

/-- The same names in the same order, with related shapes. -/
def Related (R : Shape → Shape → Prop) (es fs : NamedShapes) : Prop :=
  List.Forall₂ (fun e f => e.1 = f.1 ∧ R e.2 f.2) es fs

variable {R : Shape → Shape → Prop} {es fs : NamedShapes}

theorem Related.names_eq (h : Related R es fs) : es.names = fs.names := by
  rw [names, names, ← List.forall₂_eq_eq_eq, List.forall₂_map_left_iff, List.forall₂_map_right_iff]
  exact h.imp fun _ _ hef => hef.1

theorem Related.exists_left (h : Related R es fs) {f : String × Shape} (hf : f ∈ fs) :
    ∃ e ∈ es, e.1 = f.1 ∧ R e.2 f.2 :=
  UpToOrder.exists_of_forall₂_right h hf

theorem Related.get? (h : Related R es fs) (name : String) :
    Option.Rel R (es.get? name) (fs.get? name) := by
  induction h with
  | nil => exact .none
  | @cons e f es fs hef _ ih =>
      rw [NamedShapes.get?, NamedShapes.get?, List.find?_cons, List.find?_cons, ← hef.1]
      cases e.1 == name with
      | true => exact .some hef.2
      | false => exact ih

theorem Related.exists_get?_of_left (h : Related R es fs) {name : String} {s : Shape}
    (hs : es.get? name = some s) : ∃ t, fs.get? name = some t ∧ R s t := by
  have hget := h.get? name
  rw [hs] at hget
  cases hf : fs.get? name with
  | none => rw [hf] at hget; cases hget
  | some t =>
      rw [hf] at hget
      cases hget with
      | some hst => exact ⟨t, rfl, hst⟩

theorem Related.exists_get?_of_right (h : Related R es fs) {name : String} {t : Shape}
    (ht : fs.get? name = some t) : ∃ s, es.get? name = some s ∧ R s t := by
  have hget := h.get? name
  rw [ht] at hget
  cases he : es.get? name with
  | none => rw [he] at hget; cases hget
  | some s =>
      rw [he] at hget
      cases hget with
      | some hst => exact ⟨s, rfl, hst⟩

/-! ## The checks of a table -/

theorem Related.closed (hrefs : ∀ s t, R s t → t.references ⊆ s.references) (h : Related R es fs)
    (hes : es.firstUnknown? = none) : fs.firstUnknown? = none := by
  rw [firstUnknown?_eq_none_iff] at hes ⊢
  intro f hf
  obtain ⟨e, he, -, hef⟩ := h.exists_left hf
  rw [← h.names_eq]
  exact List.Subset.trans (hrefs _ _ hef) (hes e he)

/-- The chain of bare references from a related shape on goes through the same names. -/
theorem Related.revisit?_eq_none (hbare : ∀ s name, R s (.ref name) → s = .ref name)
    (h : Related R es fs) : ∀ (steps : Nat) (chain : List String) {s t : Shape}, R s t →
      revisit? es steps chain s = none → revisit? fs steps chain t = none
  | 0, _, _, _, _, _ => rfl
  | steps + 1, chain, s, t, hst, hs => by
      cases t with
      | ref name =>
          rw [hbare s name hst, revisit?] at hs
          rw [revisit?]
          by_cases hmem : name ∈ chain
          · rw [if_pos hmem] at hs
            cases hs
          · rw [if_neg hmem] at hs ⊢
            cases hf : fs.get? name with
            | none => rfl
            | some t =>
                obtain ⟨s, he, hst⟩ := h.exists_get?_of_right hf
                rw [he] at hs
                exact h.revisit?_eq_none hbare steps _ hst hs
      | _ => rfl

theorem Related.grounded (hbare : ∀ s name, R s (.ref name) → s = .ref name) (h : Related R es fs)
    (hes : es.firstCycle? = none) : fs.firstCycle? = none := by
  rw [firstCycle?, List.findSome?_eq_none_iff] at hes ⊢
  intro f hf
  obtain ⟨e, he, hname, hef⟩ := h.exists_left hf
  rw [← List.Forall₂.length_eq h, ← hname]
  exact h.revisit?_eq_none hbare _ _ hef (hes e he)

end NamedShapes

namespace Table

variable {t t' : Table} {R : Shape → Shape → Prop}

/-- No name leads back to itself if the related shapes lead to no other names. -/
theorem Productive.related (hbare : ∀ s u, R s u → u.bareNames ⊆ s.bareNames)
    (h : NamedShapes.Related R t.entries t'.entries) (ht : t.Productive) : t'.Productive := by
  intro name hcycle
  have hleads : ∀ a b, t'.LeadsTo a b → t.LeadsTo a b := by
    rintro a b ⟨u, hu, hb⟩
    obtain ⟨s, hs, hsu⟩ := h.exists_get?_of_right hu
    exact ⟨s, hs, hbare s u hsu hb⟩
  exact ht name (Relation.TransGen.mono hleads _ _ hcycle)

theorem Everywhere.related {P : Shape → Prop} (hP : ∀ s u, R s u → s.Everywhere P → u.Everywhere P)
    (h : NamedShapes.Related R t.entries t'.entries) (ht : t.Everywhere P) : t'.Everywhere P := by
  intro f hf
  obtain ⟨e, he, -, hef⟩ := h.exists_left hf
  exact hP _ _ hef (ht e he)

end Table

end Conform
