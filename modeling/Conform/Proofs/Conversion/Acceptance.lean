import Conform.Proofs.Conversion.Conformance
import Conform.Proofs.Conversion.Final
import Conform.Proofs.Shape.Rearranged
import Conform.Proofs.Table.Related

/-!
# Acceptance

A conversion searches in order: it takes the first member of a union that accepts, and stops at the
first field or entry that does not.  Which values it accepts is nevertheless a matter without order:
in a productive table, those that conform (`conforms_iff_accepts`).

That an accepted value conforms is an induction on the steps of the conversion.  The other way round
the induction is on the derivation of conformance, and what it shows is that the value is not
rejected: there the search is no obstacle, for a union does not reject unless all members do.  What
is not rejected is accepted, for the table is productive, so the conversion comes to an end, and
there are words for every value, so it does not stop for want of them.

Conformance does not read the order of members and fields, and so the values accepted stay the same
when a shape and the shapes of the table are rearranged (`accepts_iff_conforms`).
-/

namespace Conform.Conversion

open Value Traversal
open Shape (nameIn Rearranged RearrangedField)

variable {table table' : Table} {d : Direction}

/-! ## What conforms is accepted -/

theorem isPrimitive_of_fits {v : Value} {kind : Primitive} (h : Fits v (.primitive kind)) :
    isPrimitive kind v = true := by
  cases kind with
  | string => obtain ⟨s, rfl⟩ := h; rfl
  | number => obtain ⟨n, rfl⟩ | ⟨x, rfl⟩ := h <;> rfl
  | boolean => obtain ⟨b, rfl⟩ := h; rfl

theorem isLeaf_of_fits {v : Value} {s : Shape} (h : Fits v s) : isLeaf s = true := by
  cases s with
  | ref | array | union | object => exact h.elim
  | _ => rfl

theorem exists_leaf?_of_fits (d : Direction) {v : Value} {s : Shape} (h : Fits v s) :
    ∃ y, leaf? d v s = some y := by
  cases s with
  | any => exact ⟨v, rfl⟩
  | primitive kind => exact ⟨v, if_pos (isPrimitive_of_fits h)⟩
  | literals values =>
      obtain ⟨s, hs, rfl⟩ := h
      exact ⟨.text s, if_pos hs⟩
  | null =>
      obtain rfl : v = .null := h
      exact ⟨.null, rfl⟩
  | absent =>
      obtain rfl : v = .missing := h
      exact ⟨.missing, rfl⟩
  | date =>
      obtain rfl | ⟨m, hm⟩ := h
      · exact ⟨.null, rfl⟩
      · refine ⟨convertMoment d m, ?_⟩
        cases v with
        | null => cases hm
        | _ => exact Option.map_eq_some_iff.mpr ⟨m, hm, rfl⟩
  | _ => exact h.elim

theorem Conforms.final_ne_rejected (htable : table.Everywhere Shape.NamesDistinct) {v : Value}
    {s : Shape} (h : Conforms table d v s) (hs : s.Everywhere Shape.NamesDistinct) :
    final table d v s ≠ .error .rejected := by
  induction h with
  | leaf h =>
      obtain ⟨y, hy⟩ := exists_leaf?_of_fits d h
      rw [final_eq_judge]
      exact judge_leaf_ne_rejected hy (isLeaf_of_fits h)
  | ref hg _ ih =>
      rw [final_eq_judge, judge, hg]
      exact ih (htable.of_get? hg)
  | array hv _ ih =>
      rw [final_eq_judge]
      exact judge_array_ne_rejected hv fun x hx => ih x hx (hs.child List.mem_cons_self)
  | @union v members s hmem _ ih =>
      intro hr
      rw [final_eq_judge] at hr
      exact ih (hs.child hmem) (judgeFirst_eq_rejected hr s hmem)
  | @object m l ps a _ _ ihown ihother =>
      rw [final_eq_judge]
      refine judge_object_ne_rejected hs.here (fun p hp => ?_) fun e he => ?_
      · exact ihown p hp (hs.child (List.mem_append_left _ (List.mem_map_of_mem hp)))
      · exact ihother e he (hs.child (List.mem_append_right _ List.mem_cons_self))

theorem conforms_iff_accepts (ht : table.Productive)
    (htable : table.Everywhere Shape.NamesDistinct) {s : Shape}
    (hs : s.Everywhere Shape.NamesDistinct) (hrefs : s.references ⊆ table.names) {v : Value}
    (hv : v.isWritable = true) : Conforms table d v s ↔ Accepts table d v s := by
  constructor
  · intro h
    have hne : final table d v s ≠ .error .rejected := h.final_ne_rejected htable hs
    exact accepts_iff.mpr ((final_cases_of_isWritable ht hrefs hv).resolve_right hne)
  · rintro ⟨y, hy⟩
    exact conforms_of_run htable hs hy

/-! ## Conformance does not read the order of members and fields -/

theorem namesDistinct_of_rearranged {s t : Shape} (h : Rearranged s t) (hs : s.NamesDistinct) :
    t.NamesDistinct := by
  cases s with
  | object l ps a =>
      obtain ⟨k, qs, b, rfl, hfields, -⟩ := h.exists_of_object
      exact Shape.repeatedName?_eq_none_of_rearranged hfields hs
  | _ => cases h <;> trivial

theorem bareNames_subset_of_rearranged {s t : Shape} (h : Rearranged s t) :
    t.bareNames ⊆ s.bareNames := by
  induction s using Shape.byChildren generalizing t with
  | step s ih =>
      cases s with
      | union ss =>
          obtain ⟨ts, rfl, hmembers⟩ := h.exists_of_union
          intro name hname
          rw [Shape.bareNames, Shape.bareNamesOfList_eq] at hname
          obtain ⟨u, hu, hname⟩ := List.mem_flatMap.mp hname
          obtain ⟨q, hq, hqu⟩ := hmembers.exists_of_mem_right hu
          exact Shape.bareNames_of_member hq (ih q hq hqu hname)
      | _ => cases h <;> exact List.Subset.refl _

theorem remaining_eq_of_rearranged {ps qs : List (Property Shape)}
    (h : UpToOrder RearrangedField ps qs) (m : Entries) : remaining d ps m = remaining d qs m := by
  refine List.filter_congr fun e _ => congrArg (!·) ?_
  rw [Bool.eq_iff_iff, isNamed_iff, isNamed_iff]
  refine exists_congr fun name => and_congr_left' ?_
  exact (Shape.names_perm h d.source).mem_iff

/-- What conforms to a shape conforms to the rearranged shape in the rearranged table. -/
theorem Conforms.rearranged (htable : NamedShapes.Related Rearranged table.entries table'.entries)
    {v : Value} {s : Shape} (h : Conforms table d v s) :
    ∀ {t : Shape}, Rearranged s t → Conforms table' d v t := by
  induction h with
  | @leaf v s h =>
      intro t hst
      have hleaf := isLeaf_of_fits h
      cases hst with
      | refl => exact .leaf h
      | array | union | object => cases hleaf
  | ref hg _ ih =>
      intro t hst
      obtain rfl := hst.eq_of_ref
      obtain ⟨u, hu, hsu⟩ := htable.exists_get?_of_left hg
      exact .ref hu (ih hsu)
  | array hv _ ih =>
      intro t hst
      obtain ⟨items, rfl, hitems⟩ := hst.exists_of_array
      exact .array hv fun x hx => ih x hx hitems
  | union hmem _ ih =>
      intro t hst
      obtain ⟨ts, rfl, hmembers⟩ := hst.exists_of_union
      obtain ⟨u, hu, hsu⟩ := hmembers.exists_of_mem_left hmem
      exact .union hu (ih hsu)
  | @object m l ps a _ _ ihown ihother =>
      intro t hst
      obtain ⟨k, qs, b, rfl, hfields, hadditional⟩ := hst.exists_of_object
      refine .object (fun q hq => ?_) fun e he => ?_
      · obtain ⟨p, hp, hpq⟩ := hfields.exists_of_mem_right hq
        rw [← hpq.nameIn_eq]
        exact ihown p hp hpq.shape
      · rw [← remaining_eq_of_rearranged hfields] at he
        exact ihother e he hadditional

theorem related_symm {es fs : NamedShapes} (h : NamedShapes.Related Rearranged es fs) :
    NamedShapes.Related Rearranged fs es :=
  List.Forall₂.flip (h.imp fun _ _ hef => ⟨hef.1.symm, hef.2.symm⟩)

theorem eq_ref_of_rearranged {s : Shape} {name : String} (h : Rearranged s (.ref name)) :
    s = .ref name := h.symm.eq_of_ref

/-- Shapes that are those of a table, rearranged, make up a table, in which the same is accepted. -/
theorem exists_rearranged_table {es : NamedShapes}
    (h : NamedShapes.Related Rearranged table.entries es) :
    ∃ table' : Table, table'.entries = es :=
  ⟨{ entries := es
     distinct := h.names_eq ▸ table.distinct
     closed := h.closed (fun _ _ => Rearranged.references_subset) table.closed
     grounded := h.grounded (fun _ _ => eq_ref_of_rearranged) table.grounded }, rfl⟩

/-- In a productive table, a value is accepted exactly if it conforms; and whichever way the members
of unions and the fields of objects are rearranged, in the table and in the shape, the result is a
table again and the same values are accepted. -/
theorem accepts_iff_conforms (ht : table.Productive)
    (htable : table.Everywhere Shape.NamesDistinct) {s : Shape}
    (hs : s.Everywhere Shape.NamesDistinct) (hrefs : s.references ⊆ table.names) {v : Value}
    (hv : v.isWritable = true) :
    ((∃ y, run table d v s = .ok y) ↔ Conforms table d v s) ∧
      ∀ es t, NamedShapes.Related Rearranged table.entries es → Rearranged s t →
        ∃ table', Table.build es = .ok table' ∧
          ((∃ y, run table' d v t = .ok y) ↔ ∃ y, run table d v s = .ok y) := by
  have hconforms : Conforms table d v s ↔ Accepts table d v s :=
    conforms_iff_accepts ht htable hs hrefs hv
  refine ⟨hconforms.symm, fun es t hes hst => ?_⟩
  obtain ⟨table', rfl⟩ := exists_rearranged_table hes
  refine ⟨table', table'.build_entries, ?_⟩
  have hdistinct : ∀ p q, Rearranged p q → p.Everywhere Shape.NamesDistinct →
      q.Everywhere Shape.NamesDistinct :=
    fun p q hpq => hpq.everywhere fun _ _ => namesDistinct_of_rearranged
  have ht' : table'.Productive := ht.related (fun _ _ => bareNames_subset_of_rearranged) hes
  have hrefs' : t.references ⊆ table'.names := by
    rw [Table.names, ← hes.names_eq]
    exact List.Subset.trans hst.references_subset hrefs
  have hconforms' : Conforms table' d v t ↔ Accepts table' d v t :=
    conforms_iff_accepts ht' (htable.related hdistinct hes) (hdistinct s t hst hs) hrefs' hv
  calc Accepts table' d v t
      ↔ Conforms table' d v t := hconforms'.symm
    _ ↔ Conforms table d v s :=
        ⟨fun h => h.rearranged (related_symm hes) hst.symm, fun h => h.rearranged hes hst⟩
    _ ↔ Accepts table d v s := hconforms

theorem namesDistinct_binaryTrees : Table.binaryTrees.Everywhere Shape.NamesDistinct := by
  simp only [Table.Everywhere, Table.binaryTrees, Shape.Everywhere, Shape.optional, Shape.parts,
    Shape.partsOfList, Shape.partsOfProperties, List.forall_mem_cons, List.cons_append,
    List.nil_append, List.append_nil, Shape.NamesDistinct]
  refine ⟨⟨by decide, trivial, trivial, trivial, by simp⟩, ⟨trivial, trivial, trivial, by simp⟩,
    by simp⟩

/-- Binary trees with the fields of a tree and the members of a branch the other way round. -/
def turnedTrees : NamedShapes := [
  ("Tree", .object 1
    [⟨"right", "left", .ref "Branch", none⟩, ⟨"left", "right", .ref "Branch", none⟩] .any),
  ("Branch", .union [.ref "Tree", .absent])]

theorem related_turnedTrees :
    NamedShapes.Related Rearranged Table.binaryTrees.entries turnedTrees := by
  refine .cons ⟨rfl, ?_⟩ (.cons ⟨rfl, ?_⟩ .nil)
  · refine .object (.swap _ _ _) (List.forall₂_same.mpr fun p _ => ?_) (.refl _)
    exact .refl p
  · exact .union (.swap _ _ _) (List.forall₂_same.mpr fun s _ => .refl s)

/-- A tree with one branch and a remark conforms, and is accepted among the turned trees. -/
theorem accepts_iff_conforms_binaryTrees :
    let tree : Value := .map [(.text "left", .map []), (.text "remark", .int 7)]
    Conforms .binaryTrees .decode tree (.ref "Tree") ∧
      ∃ table', Table.build turnedTrees = .ok table' ∧
        ∃ y, run table' .decode tree (.ref "Tree") = .ok y := by
  intro tree
  have hshape : (Shape.ref "Tree").Everywhere Shape.NamesDistinct := by
    simp [Shape.Everywhere, Shape.parts, Shape.NamesDistinct]
  have haccepts : ∃ y, run .binaryTrees .decode tree (.ref "Tree") = .ok y :=
    ⟨.map [(.text "right", .map []), (.text "remark", .int 7)], by with_unfolding_all rfl⟩
  obtain ⟨hconforms, hturned⟩ := accepts_iff_conforms (d := .decode) (v := tree)
    Table.productive_binaryTrees namesDistinct_binaryTrees hshape (by decide) (by decide +kernel)
  obtain ⟨table', hbuild, hiff⟩ := hturned turnedTrees _ related_turnedTrees (.refl _)
  exact ⟨hconforms.mp haccepts, table', hbuild, hiff.mpr haccepts⟩

end Conform.Conversion
