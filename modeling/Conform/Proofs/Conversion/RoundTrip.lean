import Conform.Proofs.Conversion.Converted
import Conform.Proofs.Conversion.Object
import Conform.Proofs.Table.Productive
import Conform.Proofs.Value.Tree

/-!
# Round trips

A tree that is decoded can be encoded again: the result is the tree up to the order of map entries,
and it is decoded to the same value, order included (`round_trip`).  This needs shapes of which
nothing gets lost on the way: a union only says that a field may be missing, there are no points in
time, and the keys that an object leaves as they are cannot be taken for names of its fields in
either direction.

Each kind of shape has a lemma of its own, which says that it returns what it is given if its parts
do.  That `missing` alone is converted to `missing` keeps the choices of optional fields apart.
-/

namespace Conform

namespace Shape

/-- No other key can be taken for a name: other keys are forbidden, or the fields have the same
names in both roles. -/
def NamesAgree (ps : List (Property Shape)) (a : Shape) : Prop :=
  a = .never ∨ ∀ name, name ∈ ps.map (nameIn .typed) ↔ name ∈ ps.map (nameIn .serialized)

/-- Nothing gets lost by the shape itself: a union is optional, it is no point in time, and the
names of an object are distinct and agree. -/
def IsReversible : Shape → Prop
  | .union members => ∃ s, members = [.absent, s]
  | .date => False
  | .object _ ps a => repeatedName? ps = none ∧ NamesAgree ps a
  | _ => True

end Shape

namespace Conversion

open Value Traversal
open Shape (nameIn)

variable {table : Table}

/-- Every tree that is decoded in so many steps is encoded in as many to itself, up to order, and
then decoded to the same value. -/
def Returns (table : Table) (n : Nat) (shape : Shape) : Prop :=
  ∀ ⦃s v : Value⦄, s = .missing ∨ s.IsTree → verdict table .decode n s shape = .ok v →
    ∃ s', verdict table .encode n v shape = .ok s' ∧ Reordered s s' ∧
      verdict table .decode n s' shape = .ok v

/-! ## Shapes without parts, references, arrays and optional fields -/

/-- Without points in time, a shape without parts leaves a value as it is, in both directions. -/
theorem leaf?_back {d : Direction} {v y : Value} {s : Shape} (hs : s ≠ .date) (d' : Direction)
    (h : leaf? d v s = some y) : y = v ∧ leaf? d' v s = some v := by
  obtain rfl : y = v := (leaf?_eq_some h).resolve_right fun hd => hs hd.1
  refine ⟨rfl, ?_⟩
  cases s with
  | date => exact absurd rfl hs
  | _ => exact h

theorem returns_leaf {n : Nat} {shape : Shape} (hdate : shape ≠ .date)
    (hleaf : isLeaf shape = true) : Returns table (n + 1) shape := by
  intro s v hs hv
  obtain ⟨rfl, hl⟩ := leaf?_back hdate .encode ((judge_leaf_eq_ok_iff hleaf).mp hv)
  exact ⟨v, (judge_leaf_eq_ok_iff hleaf).mpr hl, .refl v, hv⟩

theorem returns_array {n : Nat} {items : Shape} (h : Returns table n items) :
    Returns table (n + 1) (.array items) := by
  intro s v hs hv
  obtain ⟨xs, f, he, hf, rfl⟩ := exists_of_judge_array hv
  rcases elements?_eq_some he with rfl | rfl
  · have hxs := (hs.resolve_left (by simp)).items
    choose! g hg using fun x hx => h (Or.inr (hxs x hx)) (hf x hx)
    refine ⟨.list (xs.map g), judge_array_eq_ok fun x hx => (hg x hx).1, .list ?_,
      judge_array_eq_ok fun x hx => (hg x hx).2.2⟩
    rw [List.forall₂_map_right_iff, List.forall₂_same]
    exact fun x hx => (hg x hx).2.1
  · exact absurd (hs.resolve_left (by simp)) (not_isTree_tuple xs)

theorem verdict_optional_eq_ok {d : Direction} {n : Nat} {v y : Value} {s : Shape} :
    verdict table d (n + 2) v (.union [.absent, s]) = .ok y ↔
      v = .missing ∧ y = .missing ∨
        v ≠ .missing ∧ v.isWritable = true ∧ verdict table d (n + 1) v s = .ok y := by
  by_cases hm : v = .missing
  · subst hm
    show Except.ok Value.missing = .ok y ↔ _
    constructor
    · exact fun h => Or.inl ⟨rfl, (Except.ok.inj h).symm⟩
    · rintro (⟨-, rfl⟩ | ⟨h, -⟩)
      · rfl
      · exact absurd rfl h
  · have habsent : verdict table d (n + 1) v .absent = .error (refusal v) := by
      cases v <;> first | rfl | exact absurd rfl hm
    rw [verdict, judge, judgeFirst, habsent, refusal]
    by_cases hw : v.isWritable = true
    · rw [if_pos hw]
      show judgeFirst _ v [s] = .ok y ↔ _
      rw [judgeFirst]
      constructor
      · intro h
        split at h
        · cases h
        · exact Or.inr ⟨hm, hw, h⟩
      · rintro (⟨h, -⟩ | ⟨-, -, h⟩)
        · exact absurd h hm
        · rw [h]
    · rw [if_neg hw]
      constructor
      · intro h
        cases h
      rintro (⟨h, -⟩ | ⟨-, h, -⟩)
      · exact absurd h hm
      · exact absurd h hw

theorem returns_optional {n : Nat} {shape : Shape} (h : Returns table n shape) :
    Returns table (n + 1) (.union [.absent, shape]) := by
  intro s v hs hv
  cases n with
  | zero =>
      rw [verdict, judge, judgeFirst, verdict] at hv
      cases hv
  | succ n =>
      rcases verdict_optional_eq_ok.mp hv with ⟨rfl, rfl⟩ | ⟨hm, hw, hv⟩
      · exact ⟨.missing, verdict_optional_eq_ok.mpr (Or.inl ⟨rfl, rfl⟩), .refl _, hv⟩
      · obtain ⟨s', henc, hre, hdec⟩ := h hs hv
        have hwv := isWritable_of_verdict hv hw
        have hmv := mt (missing_iff_of_verdict hv).mp hm
        refine ⟨s', verdict_optional_eq_ok.mpr (Or.inr ⟨hmv, hwv, henc⟩), hre,
          verdict_optional_eq_ok.mpr (Or.inr ⟨?_, isWritable_of_verdict henc hwv, hdec⟩)⟩
        exact mt hre.missing_iff.mpr hm

/-! ## Objects -/

variable {n l : Nat} {ps : List (Property Shape)} {a : Shape}

theorem isTree_fieldOf {m : Entries} (h : ∀ e ∈ m, e.2.IsTree) (name : String) :
    fieldOf m name = .missing ∨ (fieldOf m name).IsTree := by
  by_cases hm : fieldOf m name = .missing
  · exact Or.inl hm
  · exact Or.inr (h _ (mem_of_fieldOf hm))

theorem apart_of_namesAgree {d : Direction} {m : Entries} {other : Value × Value → Value}
    (ha : Shape.NamesAgree ps a)
    (hother : ∀ e ∈ remaining d ps m, verdict table d n e.2 a = .ok (other e)) :
    Apart d.target ps (remaining d ps m) := by
  intro e he p hp hk
  rcases ha with rfl | ha
  · have hnever := hother e he
    cases n <;> cases hnever
  · have hname : nameIn d.target p ∈ ps.map (nameIn d.source) := by
      cases d with
      | decode => exact (ha _).mp (List.mem_map_of_mem hp)
      | encode => exact (ha _).mpr (List.mem_map_of_mem hp)
    obtain ⟨q, hq, heq⟩ := List.mem_map.mp hname
    exact apart_remaining m e he q hq (hk.trans (congrArg Value.text heq.symm))

/-- A map is, up to order, the map of its fields and the remaining entries, if they are so up to
order. -/
theorem reordered_object (hps : Shape.repeatedName? ps = none) {d d' : Direction}
    (hd : d'.target = d.source) {m : Entries} (hm : KeysDistinct m)
    (hmissing : ∀ e ∈ m, e.2 ≠ .missing) {back : Property Shape → Value}
    {kept : Value × Value → Value}
    (hback : ∀ p ∈ ps, Reordered (fieldOf m (nameIn d.source p)) (back p))
    (hkept : ∀ e ∈ remaining d ps m, Reordered e.2 (kept e)) :
    Reordered (.map m)
      (.map (fieldEntries d' ps back ++ (remaining d ps m).map fun e => (e.1, kept e))) := by
  rw [fieldEntries, hd]
  refine .map (perm_written_append hm hmissing (Shape.repeatedName?_eq_none_iff.mp hps d.source))
    (List.rel_append ?_ ?_)
  · refine reordered_written ?_
    rw [List.map_map, List.forall₂_map_left_iff, List.forall₂_map_right_iff, List.forall₂_same]
    exact hback
  · refine List.forall₂_map_right_iff.mpr (List.forall₂_same.mpr fun e he => ?_)
    exact .mk e.1 (hkept e he)

theorem returns_object (hps : Shape.repeatedName? ps = none) (ha : Shape.NamesAgree ps a)
    (hown : ∀ p ∈ ps, Returns table n p.shape) (hadd : Returns table n a) :
    Returns table (n + 1) (.object l ps a) := by
  intro s v hs hv
  cases s with
  | map m =>
      obtain ⟨hm, htree⟩ := (hs.resolve_left (by simp)).entries
      obtain ⟨own, other, ho, hr, rfl⟩ := exists_of_verdict_object hps hv
      -- The trees to which the fields and the remaining entries are encoded.
      choose! back hback using fun p hp => hown p hp (isTree_fieldOf htree _) (ho p hp)
      choose! kept hkept using fun e he =>
        hadd (Or.inr (htree e (mem_remaining.mp he).1)) (hr e he).2
      have hserialized : Apart Direction.encode.target ps (remaining .decode ps m) :=
        apart_remaining m
      have htyped := apart_of_namesAgree ha fun e he => (hr e he).2
      have hdistinct : KeysDistinct (remaining .decode ps m) := keysDistinct_remaining hm
      refine ⟨.map (fieldEntries .encode ps back ++
        (remaining .decode ps m).map fun e => (e.1, kept e)), ?_, ?_, ?_⟩
      · rw [ofEntries_fieldEntries_append hps (hdistinct.map other) (htyped.map other),
          ← ofEntries_fieldEntries_append hps (hdistinct.map kept) (hserialized.map kept)]
        exact judge_object_back hps rfl htyped (fun p hp => (hback p hp).1)
          fun e he => ⟨(hr e he).1, (hkept e he).1⟩
      · exact reordered_object hps rfl hm (fun e he => (htree e he).ne_missing)
          (fun p hp => (hback p hp).2.1) fun e he => (hkept e he).2.1
      · exact judge_object_back hps rfl hserialized (fun p hp => (hback p hp).2.2)
          fun e he => ⟨(hr e he).1, (hkept e he).2.2⟩
  | _ => cases hv

/-! ## Whole shapes and runs -/

theorem returns_of_everywhere (ht : table.Everywhere Shape.IsReversible) :
    ∀ (n : Nat) {shape : Shape}, shape.Everywhere Shape.IsReversible → Returns table n shape
  | 0, _, _ => fun _ _ _ h => by cases h
  | n + 1, shape, hshape => by
      have ih {c : Shape} (hc : c ∈ shape.children) : Returns table n c :=
        returns_of_everywhere ht n (hshape.child hc)
      have hhere := hshape.here
      cases shape with
      | ref name =>
          intro s v hs hv
          obtain ⟨target, hg, hv⟩ := judge_ref_eq_ok_iff.mp hv
          obtain ⟨s', henc, hre, hdec⟩ := returns_of_everywhere ht n (ht.of_get? hg) hs hv
          exact ⟨s', judge_ref_eq_ok_iff.mpr ⟨target, hg, henc⟩, hre,
            judge_ref_eq_ok_iff.mpr ⟨target, hg, hdec⟩⟩
      | array items => exact returns_array (ih List.mem_cons_self)
      | union members =>
          obtain ⟨shape, rfl⟩ := hhere
          exact returns_optional (ih (List.mem_cons_of_mem _ List.mem_cons_self))
      | object l ps a =>
          exact returns_object hhere.1 hhere.2
            (fun p hp => ih (List.mem_append_left _ (List.mem_map_of_mem hp)))
            (ih (List.mem_append_right _ List.mem_cons_self))
      | date => exact hhere.elim
      | any | primitive | literals | null | absent | never => exact returns_leaf (by simp) rfl

/-- What is decoded is encoded to the same tree, up to the order of map entries, and decoded from it
again. -/
theorem round_trip (ht : table.Everywhere Shape.IsReversible) {shape : Shape}
    (hshape : shape.Everywhere Shape.IsReversible) {s v : Value} (hs : s.IsTree)
    (h : run table .decode s shape = .ok v) :
    ∃ s', run table .encode v shape = .ok s' ∧ Reordered s s' ∧
      run table .decode s' shape = .ok v := by
  obtain ⟨s', henc, hre, hdec⟩ :=
    returns_of_everywhere ht _ hshape (Or.inr hs) (run_eq_ok.mp h)
  exact ⟨s', run_of_verdict henc, hre, run_of_verdict hdec⟩

theorem reversible_binaryTrees : Table.binaryTrees.Everywhere Shape.IsReversible := by
  simp only [Table.Everywhere, Table.binaryTrees, Shape.Everywhere, Shape.optional, Shape.parts,
    Shape.partsOfList, Shape.partsOfProperties, List.forall_mem_cons, List.cons_append,
    List.nil_append, List.append_nil, Shape.IsReversible]
  refine ⟨⟨⟨by decide, Or.inr fun name => ?_⟩, trivial, trivial, trivial, by simp⟩,
    ⟨⟨_, rfl⟩, trivial, trivial, by simp⟩, by simp⟩
  simp [nameIn, or_comm]

/-- A tree whose left branch becomes the right one and back. -/
theorem round_trip_binaryTrees :
    let tree : Value := .map [(.text "left", .map []), (.text "remark", .int 7)]
    let value : Value := .map [(.text "right", .map []), (.text "remark", .int 7)]
    tree.IsTree ∧ run .binaryTrees .decode tree (.ref "Tree") = .ok value ∧
      ∃ s', run .binaryTrees .encode value (.ref "Tree") = .ok s' ∧ Reordered tree s' ∧
        run .binaryTrees .decode s' (.ref "Tree") = .ok value := by
  have htree : IsTree (.map [(.text "left", .map []), (.text "remark", .int 7)]) := by
    refine .map (by decide +kernel) ?_
    simp only [List.forall_mem_cons]
    exact ⟨.map .nil (by simp), .scalar rfl, by simp⟩
  have hrun : run .binaryTrees .decode (.map [(.text "left", .map []), (.text "remark", .int 7)])
      (.ref "Tree") = .ok (.map [(.text "right", .map []), (.text "remark", .int 7)]) := by
    with_unfolding_all rfl
  have hshape : (Shape.ref "Tree").Everywhere Shape.IsReversible := by
    simp [Shape.Everywhere, Shape.parts, Shape.IsReversible]
  exact ⟨htree, hrun, round_trip reversible_binaryTrees hshape htree hrun⟩

end Conversion

end Conform
