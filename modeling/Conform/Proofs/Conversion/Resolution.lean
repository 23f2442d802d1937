import Conform.Proofs.Codec
import Conform.Proofs.Conversion.Termination
import Conform.Proofs.Table.Build

/-!
# References resolve

When a table is built, its entries are searched for references as they stand, without following any.
A conversion follows references as the value leads it.  Nevertheless every name that it comes to is
a name of the table: each conversion that it may ask for is to a child of its shape or to an entry
of the table, so to a shape whose references were looked at (`references_of_mayReach`).

A name that is missing would not go unnoticed, since only a rejection leads from one member of a
union to the next.  So no conversion stops at one, neither a run nor a codec asked for a type of the
table, whatever it remembers (`references_resolve`).
-/

namespace Conform.Conversion

variable {table : Table} {d : Direction}

/-- One conversion may lead to another through conversions of which each may ask for the next. -/
def MayReach (table : Table) (d : Direction) : Value × Shape → Value × Shape → Prop :=
  Relation.ReflTransGen fun q q' => q' ∈ asked table d q.1 q.2

theorem references_of_mayReach {q q' : Value × Shape} (h : MayReach table d q q')
    (hq : q.2.references ⊆ table.names) : q'.2.references ⊆ table.names := by
  induction h with
  | refl => exact hq
  | tail _ hasked ih => exact references_of_mem_asked hasked ih

theorem convert_ne_unknownType {s : Shape} (hs : s.references ⊆ table.names) (n : Nat)
    (via : Option String) (place : Place) (v : Value) (name : String) :
    convertAfresh table d n via place v s ≠ .error (.unknownType name) := by
  intro h
  have hv : verdict table d n v s = .error (.unknownType name) := by
    rw [← forget_convert table d n via place, h]
    rfl
  exact verdict_ne_unknownType name hs hv

/-- A codec asked for a type of its table converts with field maps computed afresh, as far as the
answer goes. -/
theorem convertAs_eq_run {type : String} (htype : type ∈ table.names) (v : Value) {c : Cache}
    (hc : c.Faithful) :
    (Codec.convertAs table d type v c).1 = run table d v (.ref type) := by
  obtain ⟨target, hg⟩ := Table.exists_get? htype
  rw [Codec.convertAs, hg]
  exact (yields_convert table d _ none .top v (.ref type) c hc).1

/-- If named shapes are accepted as a table, then a conversion to a shape whose references are among
the names resolves such names only, and never stops at a name that is not in the table; nor does a
codec that is asked for one of the names. -/
theorem references_resolve {pairs : List (String × Shape)} (hbuild : Table.build pairs = .ok table)
    {s : Shape} (hs : s.references ⊆ pairs.map (·.1)) (v : Value) :
    (∀ w name, MayReach table d (v, s) (w, .ref name) →
      name ∈ pairs.map (·.1) ∧ ∃ target, table.get? name = some target) ∧
    (∀ name, run table d v s ≠ .error (.unknownType name)) ∧
    ∀ type ∈ pairs.map (·.1), ∀ c : Cache, c.Faithful → ∀ name,
      (Codec.convertAs table d type v c).1 ≠ .error (.unknownType name) := by
  have hnames {name : String} : name ∈ table.names ↔ name ∈ pairs.map (·.1) :=
    Table.mem_names_of_build hbuild
  have hrefs : s.references ⊆ table.names := fun _ hn => hnames.mpr (hs hn)
  refine ⟨fun w name h => ?_, fun name => ?_, fun type htype c hc name => ?_⟩
  · have hmem : name ∈ table.names := references_of_mayReach h hrefs List.mem_cons_self
    exact ⟨hnames.mp hmem, Table.exists_get? hmem⟩
  · exact convert_ne_unknownType hrefs _ none .top v name
  · rw [convertAs_eq_run (hnames.mpr htype) v hc]
    refine convert_ne_unknownType (fun n hn => ?_) _ none .top v name
    rw [List.mem_singleton.mp hn]
    exact hnames.mpr htype

/-- The left branch of a tree is looked up under a name of the table, two conversions further on. -/
theorem references_resolve_binaryTrees :
    let tree : Value := .map [(.text "left", .map []), (.text "remark", .int 7)]
    MayReach .binaryTrees .decode (tree, .ref "Tree") (.map [], .ref "Branch") ∧
      (∃ target, Table.binaryTrees.get? "Branch" = some target) ∧
      ∀ name, run .binaryTrees .decode tree (.ref "Tree") ≠ .error (.unknownType name) := by
  intro tree
  have hreach : MayReach .binaryTrees .decode (tree, .ref "Tree") (.map [], .ref "Branch") := by
    refine .tail (.single (List.mem_singleton.mpr rfl)) (List.mem_append_left _ ?_)
    exact List.mem_map.mpr ⟨("left", ⟨"right", .ref "Branch"⟩), by decide, by with_unfolding_all rfl⟩
  obtain ⟨hresolves, hrun, -⟩ := references_resolve (d := .decode)
    Table.binaryTrees.build_entries (s := .ref "Tree") (by decide) tree
  exact ⟨hreach, (hresolves _ _ hreach).2, hrun⟩

end Conform.Conversion
