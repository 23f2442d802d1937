import Mathlib.Data.List.Perm.Basic
import Mathlib.Data.List.Forall2

/-!
# Lists related up to order

`UpToOrder R xs ys` says that the elements of `xs`, put into some order, are related by `R` one by
one to those of `ys`.  It does not matter on which side the order is changed (`of_forall₂_perm`), so
the relation can be turned round.  Related lists have related elements, on either side
(`exists_of_mem_left`, `exists_of_mem_right`), and stay related when elements are left out or
replaced on both sides alike.
-/

namespace Conform

variable {α β γ δ : Type} {R : α → β → Prop} {xs : List α} {ys : List β}

/-- The first list can be put into an order in which it is related one by one to the second. -/
def UpToOrder (R : α → β → Prop) (xs : List α) (ys : List β) : Prop :=
  ∃ mid, xs.Perm mid ∧ List.Forall₂ R mid ys

namespace UpToOrder

theorem of_forall₂ (h : List.Forall₂ R xs ys) : UpToOrder R xs ys := ⟨xs, .refl xs, h⟩

/-- The order may as well be changed afterwards. -/
theorem of_forall₂_perm {zs : List β} (h : List.Forall₂ R xs ys) (order : ys.Perm zs) :
    UpToOrder R xs zs := by
  have hcomp : Relation.Comp (List.Forall₂ R) List.Perm xs zs := ⟨ys, h, order⟩
  rw [List.forall₂_comp_perm_eq_perm_comp_forall₂] at hcomp
  exact hcomp

theorem refl {R : α → α → Prop} (h : ∀ x, R x x) (xs : List α) : UpToOrder R xs xs :=
  of_forall₂ (List.forall₂_same.mpr fun x _ => h x)

/-! ## Elements -/

theorem exists_of_forall₂_left (h : List.Forall₂ R xs ys) {x : α} (hx : x ∈ xs) :
    ∃ y ∈ ys, R x y := by
  induction h with
  | nil => cases hx
  | cons hr _ ih =>
      rcases List.mem_cons.mp hx with rfl | hx
      · exact ⟨_, List.mem_cons_self, hr⟩
      · obtain ⟨y, hy, hr⟩ := ih hx
        exact ⟨y, List.mem_cons_of_mem _ hy, hr⟩

theorem exists_of_forall₂_right (h : List.Forall₂ R xs ys) {y : β} (hy : y ∈ ys) :
    ∃ x ∈ xs, R x y :=
  exists_of_forall₂_left h.flip hy

theorem exists_of_mem_left (h : UpToOrder R xs ys) {x : α} (hx : x ∈ xs) : ∃ y ∈ ys, R x y := by
  obtain ⟨mid, order, h⟩ := h
  exact exists_of_forall₂_left h (order.mem_iff.mp hx)

theorem exists_of_mem_right (h : UpToOrder R xs ys) {y : β} (hy : y ∈ ys) : ∃ x ∈ xs, R x y := by
  obtain ⟨mid, order, h⟩ := h
  obtain ⟨x, hx, hr⟩ := exists_of_forall₂_right h hy
  exact ⟨x, order.mem_iff.mpr hx, hr⟩

/-! ## Images, parts and concatenations -/

/-- How related elements are further related may depend on which elements the lists have. -/
theorem forall₂_imp_of_mem {S : α → β → Prop} (h : List.Forall₂ R xs ys)
    (hRS : ∀ x ∈ xs, ∀ y ∈ ys, R x y → S x y) : List.Forall₂ S xs ys := by
  refine List.forall₂_iff_zip.mpr ⟨h.length_eq, fun {x y} hxy => ?_⟩
  obtain ⟨hx, hy⟩ := List.of_mem_zip hxy
  exact hRS x hx y hy (List.forall₂_zip h hxy)

theorem perm_map {f : α → γ} {g : β → γ} (h : UpToOrder R xs ys)
    (hfg : ∀ x y, R x y → f x = g y) : (xs.map f).Perm (ys.map g) := by
  obtain ⟨mid, order, h⟩ := h
  refine (order.map f).trans (.of_eq ?_)
  rw [← List.forall₂_eq_eq_eq, List.forall₂_map_left_iff, List.forall₂_map_right_iff]
  exact h.imp hfg

theorem filter {p : α → Bool} {q : β → Bool} (h : UpToOrder R xs ys)
    (hpq : ∀ x y, R x y → p x = q y) : UpToOrder R (xs.filter p) (ys.filter q) := by
  obtain ⟨mid, order, h⟩ := h
  refine ⟨mid.filter p, order.filter p, List.rel_filter (fun x y hr => ?_) h⟩
  show p x = true ↔ q y = true
  rw [hpq x y hr]

/-- What the elements are replaced by may depend on which elements the lists have. -/
theorem map {S : γ → δ → Prop} {f : α → γ} {g : β → δ} (h : UpToOrder R xs ys)
    (hfg : ∀ x ∈ xs, ∀ y ∈ ys, R x y → S (f x) (g y)) : UpToOrder S (xs.map f) (ys.map g) := by
  obtain ⟨mid, order, h⟩ := h
  refine ⟨mid.map f, order.map f, ?_⟩
  rw [List.forall₂_map_left_iff, List.forall₂_map_right_iff]
  exact forall₂_imp_of_mem h fun x hx y hy hxy => hfg x (order.mem_iff.mpr hx) y hy hxy

theorem append {xs' : List α} {ys' : List β} (h : UpToOrder R xs ys) (h' : UpToOrder R xs' ys') :
    UpToOrder R (xs ++ xs') (ys ++ ys') := by
  obtain ⟨mid, order, h⟩ := h
  obtain ⟨mid', order', h'⟩ := h'
  exact ⟨mid ++ mid', order.append order', List.rel_append h h'⟩

end UpToOrder

end Conform
