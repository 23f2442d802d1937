import Conform.Proofs.Conversion.Final
import Conform.Proofs.Conversion.RoundTrip

/-!
# Conversions back

What a conversion gives is accepted by the conversion back, with unions of any kind
(`encode_accepts` for what is decoded).  The member of a union that takes a value back need not be
the one that gave it, so nothing is said of what comes out.  What parts hand on to the whole is that
they are not rejected (`GoesBack`): one such member is enough for a union, whatever the other ones
do.  In the end, what is not rejected is accepted, since the table is productive and the value has
no overlong integer.

Objects have to keep their names apart from the keys that they leave as they are; points in time may
occur, for what is written for one reads as one.
-/

namespace Conform

/-- The names of an object are distinct, and no other key can be taken for one of them. -/
def Shape.KeepsNames : Shape → Prop
  | .object _ ps a => repeatedName? ps = none ∧ NamesAgree ps a
  | _ => True

namespace Conversion

open Value Traversal
open Shape (nameIn)

variable {table : Table} {d d' : Direction} {n l : Nat} {ps : List (Property Shape)} {a : Shape}

/-! ## Shapes without parts -/

/-- What a shape without parts decodes, it also encodes: a point in time, too, is one when it has
been read. -/
theorem exists_leaf?_encode {v y : Value} {s : Shape} (h : leaf? .decode v s = some y) :
    ∃ z, leaf? .encode y s = some z := by
  by_cases hs : s = .date
  · subst hs
    simp only [leaf?] at h
    split at h
    · obtain rfl := Option.some.inj h
      exact ⟨.null, rfl⟩
    · obtain ⟨m, -, rfl⟩ := Option.map_eq_some_iff.mp h
      exact ⟨convertMoment .encode m, rfl⟩
  · obtain ⟨rfl, hl⟩ := leaf?_back hs .encode h
    exact ⟨y, hl⟩

/-! ## Objects -/

/-- The map that a converted object becomes has its fields under their names, and under other keys
only what the remaining entries have.  Their keys may mean the same here, unlike in a map. -/
theorem exists_ofEntries_eq_map (hps : Shape.repeatedName? ps = none)
    (own : Property Shape → Value) {others : Entries} (ho : Apart d.target ps others) :
    ∃ m, ofEntries (fieldEntries d ps own ++ others) = .map m ∧
      (∀ p ∈ ps, fieldOf m (nameIn d.target p) = own p) ∧
      ∀ e ∈ m, (∀ p ∈ ps, e.1 ≠ .text (nameIn d.target p)) → ∃ b ∈ others, b.2 = e.2 := by
  have hn := Shape.repeatedName?_eq_none_iff.mp hps d.target
  have hfields : ofEntries (fieldEntries d ps own) = .map (fieldEntries d ps own) := by
    refine ofEntries_eq_map_iff.mpr ?_
    exact keysDistinct_written hn _
  have hmap : ofEntries (fieldEntries d ps own ++ others) =
      .map (others.foldl (fun done e => put done e.1 e.2) (fieldEntries d ps own)) := by
    rw [ofEntries, List.foldl_append, Value.map.inj hfields]
  refine ⟨_, hmap, fun p hp => ?_, fun e he hk => ?_⟩
  · have hfield : fieldOf (fieldEntries d ps own ++ []) (nameIn d.target p) = own p :=
      fieldOf_fieldEntries_append hn (fun e he => by cases he) hp
    rw [List.append_nil] at hfield
    rw [fieldOf, get?_foldl_put_of_ne fun e he => ho e he p hp]
    exact hfield
  · have hwritten : ∀ b ∈ fieldEntries d ps own, b.1 ≠ e.1 := by
      intro b hb heq
      obtain ⟨p, hp, hname⟩ := key_of_mem_fieldEntries hb
      exact hk p hp (heq.symm.trans hname)
    rcases mem_foldl_put he with he | ⟨hv, -⟩
    · exact absurd rfl (hwritten e he)
    · exact hv

/-! ## What is accepted back -/

/-- What comes out of a conversion in so many steps is not rejected by the conversion back. -/
def GoesBack (table : Table) (d d' : Direction) (n : Nat) (s : Shape) : Prop :=
  ∀ ⦃v y : Value⦄, verdict table d n v s = .ok y → final table d' y s ≠ .error .rejected

theorem goesBack_leaf {s : Shape} (hs : isLeaf s = true)
    (h : ∀ v y, leaf? d v s = some y → ∃ z, leaf? d' y s = some z) :
    GoesBack table d d' (n + 1) s := by
  intro v y hy
  obtain ⟨z, hz⟩ := h v y ((judge_leaf_eq_ok_iff hs).mp hy)
  rw [final_eq_judge]
  exact judge_leaf_ne_rejected hz hs

theorem goesBack_ref {name : String} (h : ∀ s, table.get? name = some s → GoesBack table d d' n s) :
    GoesBack table d d' (n + 1) (.ref name) := by
  intro v y hy
  obtain ⟨s, hg, hy⟩ := judge_ref_eq_ok_iff.mp hy
  rw [final_eq_judge, judge, hg]
  exact h s hg hy

theorem goesBack_array {items : Shape} (h : GoesBack table d d' n items) :
    GoesBack table d d' (n + 1) (.array items) := by
  intro v y hy
  obtain ⟨xs, f, he, hf, rfl⟩ := exists_of_judge_array hy
  rw [final_eq_judge]
  refine judge_array_ne_rejected rfl fun y hy => ?_
  obtain ⟨x, hx, rfl⟩ := List.mem_map.mp hy
  exact h (hf x hx)

theorem goesBack_union {members : List Shape} (h : ∀ s ∈ members, GoesBack table d d' n s) :
    GoesBack table d d' (n + 1) (.union members) := by
  intro v y hy hr
  obtain ⟨s, hs, hy⟩ := exists_of_judgeFirst_eq_ok hy
  rw [final_eq_judge] at hr
  exact h s hs hy (judgeFirst_eq_rejected hr s hs)

theorem goesBack_object (hd : d'.source = d.target) (hps : Shape.repeatedName? ps = none)
    (ha : Shape.NamesAgree ps a) (hown : ∀ p ∈ ps, GoesBack table d d' n p.shape)
    (hadd : GoesBack table d d' n a) : GoesBack table d d' (n + 1) (.object l ps a) := by
  intro v y hy
  cases v with
  | map m =>
      obtain ⟨own, other, ho, hr, rfl⟩ := exists_of_verdict_object hps hy
      have hapart := apart_of_namesAgree ha fun e he => (hr e he).2
      obtain ⟨m', hm', hfields, hrest⟩ := exists_ofEntries_eq_map hps own (hapart.map other)
      rw [final_eq_judge, hm']
      refine judge_object_ne_rejected hps (fun p hp => ?_) fun e he => ?_
      · rw [hd, hfields p hp]
        exact hown p hp (ho p hp)
      · obtain ⟨he, hk⟩ := mem_remaining.mp he
        rw [hd] at hk
        obtain ⟨_, hmem, hvalue⟩ := hrest e he hk
        obtain ⟨b, hb, rfl⟩ := List.mem_map.mp hmem
        rw [← hvalue]
        exact hadd (hr b hb).2
  | _ => cases hy

/-- What comes out of a conversion is not rejected by the conversion back, if shapes without parts
take back what they give. -/
theorem goesBack_of_everywhere {P : Shape → Prop} (hd : d'.source = d.target)
    (hnames : ∀ s, P s → s.KeepsNames)
    (hleaf : ∀ s v y, P s → leaf? d v s = some y → ∃ z, leaf? d' y s = some z)
    (htable : table.Everywhere P) : ∀ (n : Nat) {s : Shape}, s.Everywhere P →
      GoesBack table d d' n s
  | 0, _, _ => fun _ _ h => by cases h
  | n + 1, s, hs => by
      have ih {c : Shape} (hc : c ∈ s.children) : GoesBack table d d' n c :=
        goesBack_of_everywhere hd hnames hleaf htable n (hs.child hc)
      have hhere := hs.here
      cases s with
      | ref name =>
          exact goesBack_ref fun target hg =>
            goesBack_of_everywhere hd hnames hleaf htable n (htable.of_get? hg)
      | array items => exact goesBack_array (ih List.mem_cons_self)
      | union members => exact goesBack_union fun _ hc => ih hc
      | object l ps a =>
          obtain ⟨hps, ha⟩ := hnames _ hhere
          exact goesBack_object hd hps ha
            (fun p hp => ih (List.mem_append_left _ (List.mem_map_of_mem hp)))
            (ih (List.mem_append_right _ List.mem_cons_self))
      | any | primitive | literals | null | absent | never | date =>
          exact goesBack_leaf rfl fun v y => hleaf _ v y hhere

/-- What is decoded is accepted when it is encoded. -/
theorem encode_accepts (ht : table.Productive) (htable : table.Everywhere Shape.KeepsNames)
    {shape : Shape} (hshape : shape.Everywhere Shape.KeepsNames)
    (hrefs : shape.references ⊆ table.names) {s v : Value} (hs : s.isWritable = true)
    (h : run table .decode s shape = .ok v) : ∃ s', run table .encode v shape = .ok s' := by
  have hv := run_eq_ok.mp h
  have hback : final table .encode v shape ≠ .error .rejected :=
    goesBack_of_everywhere rfl (fun _ hk => hk) (fun _ _ _ _ => exists_leaf?_encode) htable _
      hshape hv
  have hw : v.isWritable = true := isWritable_of_verdict hv hs
  exact accepts_iff.mpr ((final_cases_of_isWritable ht hrefs hw).resolve_right hback)

/-- A tree and the day on which it was planted or felled.  The typed value does not tell the two
apart, so a felled tree is encoded as a planted one. -/
def datedTree : Shape :=
  .union [
    .object 0 [⟨"planted", "day", .date, none⟩, ⟨"tree", "tree", .ref "Branch", none⟩] .never,
    .object 1 [⟨"felled", "day", .date, none⟩, ⟨"tree", "tree", .ref "Branch", none⟩] .never]

theorem keepsNames_of_isReversible {s : Shape} (h : s.IsReversible) : s.KeepsNames := by
  cases s with
  | object => exact h
  | _ => trivial

theorem keepsNames_datedTree : datedTree.Everywhere Shape.KeepsNames := by
  simp only [datedTree, Shape.Everywhere, Shape.parts, Shape.partsOfList, Shape.partsOfProperties,
    List.forall_mem_cons, List.cons_append, List.nil_append, List.append_nil, Shape.KeepsNames]
  refine ⟨trivial, ⟨by decide, Or.inl rfl⟩, trivial, trivial, trivial,
    ⟨by decide, Or.inl rfl⟩, trivial, trivial, trivial, by simp⟩

theorem encode_accepts_datedTree :
    let felled : Value :=
      .map [(.text "felled", .text "2024-05-01"), (.text "tree", .map [(.text "left", .map [])])]
    let day : Moment := .ofDate ⟨2024, 5, 1, by decide, by decide, by decide, by decide⟩
    let value : Value :=
      .map [(.text "day", .moment day), (.text "tree", .map [(.text "right", .map [])])]
    run .binaryTrees .decode felled datedTree = .ok value ∧
      ∃ s', run .binaryTrees .encode value datedTree = .ok s' := by
  intro felled day value
  have hrun : run .binaryTrees .decode felled datedTree = .ok value := by with_unfolding_all rfl
  have htable : Table.binaryTrees.Everywhere Shape.KeepsNames :=
    fun e he p hp => keepsNames_of_isReversible (reversible_binaryTrees e he p hp)
  exact ⟨hrun, encode_accepts Table.productive_binaryTrees htable keepsNames_datedTree
    (by decide) (by decide +kernel) hrun⟩

end Conversion

end Conform
