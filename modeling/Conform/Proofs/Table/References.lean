import Conform.Proofs.Shape.Parts
import Conform.Table.Basic

/-!
# References of tables

Being a table means that its entries refer to its own names only (`references_subset`), so a shape
whose references are names of the table, too, leads to no other name.  `Table.parts` are the shapes
nested in the entries, as many as the size of the table says.
-/

namespace Conform

namespace NamedShapes

variable {es : NamedShapes}

theorem mem_of_get? {name : String} {s : Shape} (h : es.get? name = some s) : (name, s) ∈ es := by
  obtain ⟨e, he, hs⟩ := Option.map_eq_some_iff.mp h
  have hname := List.find?_some he
  rw [← beq_iff_eq.mp hname, ← hs]
  exact List.mem_of_find?_eq_some he

theorem exists_get? {name : String} (h : name ∈ es.names) : ∃ s, es.get? name = some s := by
  obtain ⟨e, he, heq⟩ := List.mem_map.mp h
  cases hf : es.find? fun e => e.1 == name with
  | none => exact absurd (beq_iff_eq.mpr heq) (List.find?_eq_none.mp hf e he)
  | some e => exact ⟨e.2, by rw [get?, hf]; rfl⟩

end NamedShapes

namespace Table

variable {t : Table}

theorem mem_entries_of_get? {name : String} {s : Shape} (h : t.get? name = some s) :
    (name, s) ∈ t.entries :=
  NamedShapes.mem_of_get? h

theorem exists_get? {name : String} (h : name ∈ t.names) : ∃ s, t.get? name = some s :=
  NamedShapes.exists_get? h

theorem references_subset {e : String × Shape} (he : e ∈ t.entries) :
    e.2.references ⊆ t.names := by
  intro name hname
  have hnone := List.findSome?_eq_none_iff.mp t.closed e he
  have := List.find?_eq_none.mp (Option.map_eq_none_iff.mp hnone) name hname
  simpa [names] using this

/-! ## The shapes of a table -/

def parts (t : Table) : List Shape := t.entries.flatMap fun e => e.2.parts

theorem mem_parts_of_get? {name : String} {s : Shape} (h : t.get? name = some s) : s ∈ t.parts :=
  List.mem_flatMap.mpr ⟨_, mem_entries_of_get? h, s.self_mem_parts⟩

theorem mem_parts_trans {p q : Shape} (hq : q ∈ p.parts) (hp : p ∈ t.parts) : q ∈ t.parts := by
  obtain ⟨e, he, hp⟩ := List.mem_flatMap.mp hp
  exact List.mem_flatMap.mpr ⟨e, he, Shape.mem_parts_trans hq hp⟩

theorem length_parts (t : Table) : t.parts.length = t.size := by
  have key : ∀ (es : NamedShapes) (n : Nat),
      es.foldl (fun n e => n + e.2.size) n = n + (es.flatMap fun e => e.2.parts).length := by
    intro es
    induction es with
    | nil => intro n; rfl
    | cons e es ih =>
        intro n
        rw [List.foldl_cons, ih, List.flatMap_cons, List.length_append, Shape.length_parts,
          Nat.add_assoc]
  rw [size, key, Nat.zero_add, parts]

def Everywhere (P : Shape → Prop) (t : Table) : Prop := ∀ e ∈ t.entries, e.2.Everywhere P

theorem Everywhere.of_get? {P : Shape → Prop} (h : t.Everywhere P) {name : String} {s : Shape}
    (hs : t.get? name = some s) : s.Everywhere P :=
  h _ (mem_entries_of_get? hs)

end Table

end Conform
