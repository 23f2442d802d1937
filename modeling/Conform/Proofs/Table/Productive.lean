import Conform.Proofs.Table.References
import Mathlib.Data.Set.Finite.List
import Mathlib.Logic.Relation
import Mathlib.Order.WellFoundedSet

/-!
# Productive tables

A name leads to another if its shape is a reference to that name, or a union with a member that is
one, however deep the unions nest: one can get from the first to the second without looking into a
value.  A table is productive if no name leads back to itself; cycles through the items of arrays
and the fields of objects do no harm.

In a productive table what holds of a name if it holds of those it leads to holds of all names
(`Productive.induction`), and ranks that fall along the way show that a table is productive
(`productive_of_rank`).
-/

namespace Conform

namespace Shape

mutual
/-- The names that a shape leads to: its own, or those of the members of a union. -/
def bareNames : Shape → List String
  | .ref name => [name]
  | .union ss => bareNamesOfList ss
  | _ => []

def bareNamesOfList : List Shape → List String
  | [] => []
  | s :: ss => s.bareNames ++ bareNamesOfList ss
end

theorem bareNamesOfList_eq (ss : List Shape) : bareNamesOfList ss = ss.flatMap bareNames := by
  induction ss with
  | nil => rfl
  | cons s ss ih => rw [bareNamesOfList, ih, List.flatMap_cons]

theorem bareNames_of_member {s : Shape} {ss : List Shape} (h : s ∈ ss) :
    s.bareNames ⊆ (union ss).bareNames := by
  intro name hn
  rw [bareNames, bareNamesOfList_eq]
  exact List.mem_flatMap.mpr ⟨s, h, hn⟩

end Shape

namespace Table

/-- The shape of the first name leads to the second. -/
def LeadsTo (t : Table) (a b : String) : Prop := ∃ s, t.get? a = some s ∧ b ∈ s.bareNames

/-- No name leads back to itself, over any number of names. -/
def Productive (t : Table) : Prop := ∀ name, ¬ Relation.TransGen t.LeadsTo name name

variable {t : Table}

theorem mem_names_of_leadsTo {a b : String} (h : t.LeadsTo a b) : a ∈ t.names := by
  obtain ⟨s, hs, -⟩ := h
  exact List.mem_map_of_mem (f := (·.1)) (mem_entries_of_get? hs)

theorem Productive.induction (ht : t.Productive) {P : String → Prop}
    (step : ∀ a, (∀ b, t.LeadsTo a b → P b) → P a) (a : String) : P a := by
  let before : String → String → Prop := fun b a => Relation.TransGen t.LeadsTo a b
  have : IsStrictOrder String before :=
    { irrefl := fun a h => ht a h
      trans := fun _ _ _ hba hcb => hcb.trans hba }
  have hwf : {a | a ∈ t.names}.WellFoundedOn before := (List.finite_toSet t.names).wellFoundedOn
  have hnames : ∀ a ∈ {a | a ∈ t.names}, P a := fun a ha =>
    hwf.induction ha fun a _ ih => step a fun b hab => by
      by_cases hb : b ∈ t.names
      · exact ih b hb (.single hab)
      · exact step b fun c hbc => absurd (mem_names_of_leadsTo hbc) hb
  exact step a fun b hab => by
    by_cases hb : b ∈ t.names
    · exact hnames b hb
    · exact step b fun c hbc => absurd (mem_names_of_leadsTo hbc) hb

/-- A table is productive if each name has a larger rank than those it leads to. -/
theorem productive_of_rank (rank : String → Nat)
    (h : ∀ e ∈ t.entries, ∀ b ∈ e.2.bareNames, rank b < rank e.1) : t.Productive := by
  intro name hcycle
  have key : ∀ {a b : String}, Relation.TransGen t.LeadsTo a b → rank b < rank a := by
    intro a b hab
    induction hab with
    | single hab =>
        obtain ⟨s, hs, hb⟩ := hab
        exact h _ (mem_entries_of_get? hs) _ hb
    | tail _ hbc ih =>
        obtain ⟨s, hs, hc⟩ := hbc
        exact Nat.lt_trans (h _ (mem_entries_of_get? hs) _ hc) ih
  exact Nat.lt_irrefl _ (key hcycle)

theorem productive_empty : empty.Productive := productive_of_rank (fun _ => 0) (by decide)

/-- Binary trees, of which both branches may be missing and which may hold anything else.  What the
serialized tree calls the left branch is the right one of the typed value. -/
def binaryTrees : Table where
  entries := [
    ("Tree", .object 0
      [⟨"left", "right", .ref "Branch", none⟩, ⟨"right", "left", .ref "Branch", none⟩] .any),
    ("Branch", .optional (.ref "Tree"))]
  distinct := by decide
  closed := by decide
  grounded := by decide

theorem productive_binaryTrees : binaryTrees.Productive :=
  productive_of_rank (fun name => if name = "Branch" then 1 else 0) (by decide)

end Table

end Conform
