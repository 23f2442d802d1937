import Conform.Proofs.Value.Entries

/-!
# Trees and their order

A tree is what a document is read into: scalars, lists and maps, nested in any way, each key of a
map there once.  It has no tuples, and `missing` is nowhere in it.

`Reordered` relates two values that are equal up to the order of map entries at every depth.
-/

namespace Conform.Value

/-- Is the value one without parts that a document can have? -/
def isScalar : Value → Bool
  | .list _ | .tuple _ | .map _ | .set _ | .missing => false
  | _ => true

/-- Scalars, lists and maps, nested in any way. -/
inductive IsTree : Value → Prop where
  | scalar {v : Value} (h : v.isScalar = true) : IsTree v
  | list {xs : List Value} (items : ∀ x ∈ xs, IsTree x) : IsTree (.list xs)
  | map {es : Entries} (keys : KeysDistinct es) (values : ∀ e ∈ es, IsTree e.2) : IsTree (.map es)

theorem IsTree.ne_missing {v : Value} (h : v.IsTree) : v ≠ .missing := by
  rintro rfl
  cases h with
  | scalar h => cases h

theorem IsTree.items {xs : List Value} (h : IsTree (.list xs)) : ∀ x ∈ xs, x.IsTree := by
  cases h with
  | scalar h => cases h
  | list items => exact items

theorem IsTree.entries {es : Entries} (h : IsTree (.map es)) :
    KeysDistinct es ∧ ∀ e ∈ es, e.2.IsTree := by
  cases h with
  | scalar h => cases h
  | map keys values => exact ⟨keys, values⟩

theorem not_isTree_tuple (xs : List Value) : ¬ IsTree (.tuple xs) := by
  intro h
  cases h with
  | scalar h => cases h

mutual
/-- Equal up to the order of map entries at every depth. -/
inductive Reordered : Value → Value → Prop where
  | refl (v : Value) : Reordered v v
  | list {xs ys : List Value} (items : List.Forall₂ Reordered xs ys) :
      Reordered (.list xs) (.list ys)
  /-- The entries are put into another order, and then their values are reordered. -/
  | map {es mid fs : Entries} (order : es.Perm mid)
      (entries : List.Forall₂ ReorderedEntry mid fs) : Reordered (.map es) (.map fs)

inductive ReorderedEntry : Value × Value → Value × Value → Prop where
  | mk (k : Value) {v w : Value} (value : Reordered v w) : ReorderedEntry (k, v) (k, w)
end

theorem Reordered.missing_iff {v w : Value} (h : Reordered v w) : v = .missing ↔ w = .missing := by
  cases h with
  | refl => exact Iff.rfl
  | list => simp
  | map => simp

theorem keys_eq_of_reorderedEntries : ∀ {es fs : Entries},
    List.Forall₂ ReorderedEntry es fs → es.map (·.1) = fs.map (·.1)
  | [], [], .nil => rfl
  | _ :: _, _ :: _, .cons (.mk _ _) hs => by
      rw [List.map_cons, List.map_cons, keys_eq_of_reorderedEntries hs]

theorem Reordered.keys_perm {es fs : Entries} (h : Reordered (.map es) (.map fs)) :
    (es.map (·.1)).Perm (fs.map (·.1)) := by
  cases h with
  | refl => exact .refl _
  | map order entries => exact (order.map _).trans (.of_eq (keys_eq_of_reorderedEntries entries))

theorem reordered_written {names : List String} {vs ws : List Value}
    (h : List.Forall₂ Reordered vs ws) :
    List.Forall₂ ReorderedEntry (written names vs) (written names ws) :=
  forall₂_written (fun _ _ => Reordered.missing_iff) (fun k _ _ => .mk k) h

end Conform.Value
