import Conform.Proofs.Conversion.Acceptance
import Conform.Proofs.Value.Shuffled

/-!
# The order of maps

Values that differ only in the order of the entries of maps are converted alike: the one is accepted
if the other is, and what comes out differs only in the order of entries again
(`run_shuffled`).

A conversion goes through the undeclared entries of a map in their order and stops at the first that
is rejected, so what it has looked at by then may differ.  Whether a member of a union accepts does
not, though, because conformance does not read the order (`Conforms.twin`); so a union comes to the
same member for both values.  From there on the two conversions are compared part by part.
-/

namespace Conform.Conversion

open Value Traversal
open Shape (nameIn)

variable {table : Table} {d : Direction} {v w : Value} {s : Shape}

/-! ## Twins -/

/-- Values that differ in the order of map entries only, and whose maps have each key once. -/
structure Twins (v w : Value) : Prop where
  shuffled : Shuffled v w
  left : v.Everywhere HasKeysOnce
  right : w.Everywhere HasKeysOnce

theorem Twins.symm (h : Twins v w) : Twins w v := ⟨h.shuffled.symm, h.right, h.left⟩

theorem Twins.exists_elements (h : Twins v w) {xs : List Value} (hv : elements? v = some xs) :
    ∃ ys, elements? w = some ys ∧ List.Forall₂ Twins xs ys := by
  obtain ⟨hvw, hleft, hright⟩ := h
  have htwins {xs ys : List Value} (items : List.Forall₂ Shuffled xs ys)
      (hxs : ∀ x ∈ xs, x.Everywhere HasKeysOnce) (hys : ∀ y ∈ ys, y.Everywhere HasKeysOnce) :
      List.Forall₂ Twins xs ys :=
    UpToOrder.forall₂_imp_of_mem items fun x hx y hy hxy => ⟨hxy, hxs x hx, hys y hy⟩
  cases hvw with
  | refl =>
      have hcomponent : ∀ x ∈ xs, x.Everywhere HasKeysOnce := by
        rcases elements?_eq_some hv with rfl | rfl <;> exact fun x hx => hleft.component hx
      exact ⟨xs, hv, List.forall₂_same.mpr fun x hx =>
        ⟨.refl x, hcomponent x hx, hcomponent x hx⟩⟩
  | list items | tuple items =>
      obtain rfl := Option.some.inj hv
      exact ⟨_, rfl, htwins items (fun x hx => hleft.component hx) fun y hy => hright.component hy⟩
  | map => cases hv

section Maps

variable {es fs : Entries}

theorem Twins.exists_entries (h : Twins (.map es) w) : ∃ fs, w = .map fs ∧
    UpToOrder ShuffledEntry es fs ∧ KeysDistinct es ∧ KeysDistinct fs := by
  obtain ⟨hvw, hleft, hright⟩ := h
  obtain ⟨fs, rfl, hfs⟩ := hvw.exists_of_map
  exact ⟨fs, rfl, hfs, hleft.here, hright.here⟩

theorem everywhere_fieldOf (h : (Value.map es).Everywhere HasKeysOnce) (name : String) :
    (fieldOf es name).Everywhere HasKeysOnce := by
  by_cases hm : fieldOf es name = .missing
  · rw [hm]
    exact .mk trivial fun c hc => by cases hc
  · exact h.component (value_mem_components (mem_of_fieldOf hm))

theorem Twins.field (h : Twins (.map es) (.map fs)) (name : String) :
    Twins (fieldOf es name) (fieldOf fs name) := by
  obtain ⟨fs', heq, hfs, hes, hfs'⟩ := h.exists_entries
  obtain rfl := Value.map.inj heq
  exact ⟨shuffled_fieldOf hfs hes hfs' name, everywhere_fieldOf h.left name,
    everywhere_fieldOf h.right name⟩

theorem Twins.entry (h : Twins (.map es) (.map fs)) {e f : Value × Value} (he : e ∈ es)
    (hf : f ∈ fs) (hef : ShuffledEntry e f) : Twins e.2 f.2 :=
  ⟨hef.value, h.left.component (value_mem_components he),
    h.right.component (value_mem_components hf)⟩

theorem shuffled_remaining (h : UpToOrder ShuffledEntry es fs) (ps : List (Property Shape)) :
    UpToOrder ShuffledEntry (remaining d ps es) (remaining d ps fs) :=
  h.filter fun e f hef => by rw [hef.key]

end Maps

/-! ## Conformance does not read the order of entries -/

theorem exists_leaf?_of_shuffled (h : Shuffled v w) {y : Value} (hy : leaf? d v s = some y) :
    ∃ z, leaf? d w s = some z ∧ Shuffled y z := by
  by_cases hs : s = .any
  · subst hs
    obtain rfl := Option.some.inj hy
    exact ⟨w, rfl, h⟩
  · cases h with
    | refl => exact ⟨y, hy, .refl y⟩
    | list | tuple | map =>
        -- No other shape without parts accepts a value that has parts.
        cases s with
        | any => exact absurd rfl hs
        | primitive kind => cases kind <;> cases hy
        | _ => cases hy

theorem fits_of_shuffled (h : Shuffled v w) (hv : Fits v s) : Fits w s := by
  obtain ⟨y, hy⟩ := exists_leaf?_of_fits .decode hv
  obtain ⟨z, hz, -⟩ := exists_leaf?_of_shuffled h hy
  exact fits_of_leaf? hz

theorem Conforms.twin (h : Conforms table d v s) : ∀ {w : Value}, Twins v w →
    Conforms table d w s := by
  induction h with
  | leaf h => exact fun hvw => .leaf (fits_of_shuffled hvw.shuffled h)
  | ref hg _ ih => exact fun hvw => .ref hg (ih hvw)
  | array hv _ ih =>
      intro w hvw
      obtain ⟨ys, hw, hitems⟩ := hvw.exists_elements hv
      refine .array hw fun y hy => ?_
      obtain ⟨x, hx, hxy⟩ := UpToOrder.exists_of_forall₂_right hitems hy
      exact ih x hx hxy
  | union hs _ ih => exact fun hvw => .union hs (ih hvw)
  | @object es l ps a _ _ ihown ihother =>
      intro w hvw
      obtain ⟨fs, rfl, hfs, -, -⟩ := hvw.exists_entries
      refine .object (fun p hp => ihown p hp (hvw.field _)) fun f hf => ?_
      obtain ⟨e, he, hef⟩ := (shuffled_remaining hfs ps).exists_of_mem_right hf
      exact ihother e he (hvw.entry (mem_remaining.mp he).1 (mem_remaining.mp hf).1 hef)

theorem rejected_of_twin (ht : table.Productive) (htable : table.Everywhere Shape.NamesDistinct)
    (hs : s.Everywhere Shape.NamesDistinct) (hrefs : s.references ⊆ table.names) (h : Twins v w)
    (hv : v.isWritable = true) (hr : final table d v s = .error .rejected) :
    final table d w s = .error .rejected := by
  have hw : w.isWritable = true := h.shuffled.isWritable hv
  rw [← not_accepts_iff ht hrefs hv, ← conforms_iff_accepts ht htable hs hrefs hv] at hr
  rw [← not_accepts_iff ht hrefs hw, ← conforms_iff_accepts ht htable hs hrefs hw]
  exact fun hconforms => hr (hconforms.twin h.symm)

/-! ## Twins are converted alike -/

/-- What a value is converted to in so many steps, its twin is converted to, up to order. -/
def AlikeForTwins (table : Table) (d : Direction) (n : Nat) (s : Shape) : Prop :=
  ∀ ⦃v w y⦄, Twins v w → v.isWritable = true → verdict table d n v s = .ok y →
    ∃ z, final table d w s = .ok z ∧ Shuffled y z

/-- If related elements have related results on one side, then these are given by a function. -/
theorem exists_images {α β ε γ : Type} [Inhabited γ] {xs : List α} {ys : List β}
    {R : α → β → Prop} {S : γ → γ → Prop} {f : α → γ} {ask : β → Except ε γ}
    (hright : ∀ y ∈ ys, ∃ x ∈ xs, R x y)
    (h : ∀ x ∈ xs, ∀ y ∈ ys, R x y → ∃ z, ask y = .ok z ∧ S (f x) z) :
    ∃ g : β → γ, (∀ y ∈ ys, ask y = .ok (g y)) ∧
      ∀ x ∈ xs, ∀ y ∈ ys, R x y → S (f x) (g y) := by
  have hok : ∀ y ∈ ys, ∃ z, ask y = .ok z := by
    intro y hy
    obtain ⟨x, hx, hxy⟩ := hright y hy
    obtain ⟨z, hz, -⟩ := h x hx y hy hxy
    exact ⟨z, hz⟩
  choose! g hg using hok
  refine ⟨g, hg, fun x hx y hy hxy => ?_⟩
  obtain ⟨z, hz, hS⟩ := h x hx y hy hxy
  rw [hg y hy] at hz
  rwa [Except.ok.inj hz]

variable {n l : Nat} {ps : List (Property Shape)} {a : Shape}

theorem alikeForTwins_leaf (hs : isLeaf s = true) : AlikeForTwins table d (n + 1) s := by
  intro v w y h _ hy
  obtain ⟨z, hz, hyz⟩ := exists_leaf?_of_shuffled h.shuffled ((judge_leaf_eq_ok_iff hs).mp hy)
  rw [final_eq_judge]
  exact ⟨z, (judge_leaf_eq_ok_iff hs).mpr hz, hyz⟩

theorem alikeForTwins_ref {name : String}
    (h : ∀ s, table.get? name = some s → AlikeForTwins table d n s) :
    AlikeForTwins table d (n + 1) (.ref name) := by
  intro v w y hvw hv hy
  obtain ⟨s, hg, hy⟩ := judge_ref_eq_ok_iff.mp hy
  obtain ⟨z, hz, hyz⟩ := h s hg hvw hv hy
  rw [final_eq_judge]
  exact ⟨z, judge_ref_eq_ok_iff.mpr ⟨s, hg, hz⟩, hyz⟩

theorem alikeForTwins_array {items : Shape} (h : AlikeForTwins table d n items) :
    AlikeForTwins table d (n + 1) (.array items) := by
  intro v w y hvw hv hy
  obtain ⟨xs, f, he, hf, rfl⟩ := exists_of_judge_array hy
  obtain ⟨ys, hw, hitems⟩ := hvw.exists_elements he
  obtain ⟨g, hg, hfg⟩ := exists_images (f := f)
    (fun y hy => UpToOrder.exists_of_forall₂_right hitems hy)
    fun x hx y _ hxy => h hxy (isWritable_of_mem_elements he hv hx) (hf x hx)
  rw [final_eq_judge]
  refine ⟨_, judge_elements_eq_ok hw hg, .list ?_⟩
  rw [List.forall₂_map_left_iff, List.forall₂_map_right_iff]
  exact UpToOrder.forall₂_imp_of_mem hitems hfg

/-- The members before the one that is chosen reject both values. -/
theorem alikeForTwins_union (ht : table.Productive) (htable : table.Everywhere Shape.NamesDistinct)
    {members : List Shape} (hnames : ∀ q ∈ members, q.Everywhere Shape.NamesDistinct)
    (hrefs : ∀ q ∈ members, q.references ⊆ table.names)
    (h : ∀ q ∈ members, AlikeForTwins table d n q) :
    AlikeForTwins table d (n + 1) (.union members) := by
  intro v w y hvw hv hy
  obtain ⟨before, s, after, rfl, hbefore, hs⟩ := judgeFirst_eq_ok_iff.mp hy
  obtain ⟨z, hz, hyz⟩ := h s (List.mem_append_right _ List.mem_cons_self) hvw hv hs
  have hrejected : ∀ q ∈ before, final table d w q = .error .rejected := by
    intro q hq
    have hmem : q ∈ before ++ s :: after := List.mem_append_left _ hq
    exact rejected_of_twin ht htable (hnames q hmem) (hrefs q hmem) hvw hv
      (final_of_verdict (by simp) (hbefore q hq))
  rw [final_eq_judge]
  exact ⟨z, judgeFirst_eq_ok_iff.mpr ⟨before, s, after, rfl, hrejected, hz⟩, hyz⟩

theorem alikeForTwins_object (hps : Shape.repeatedName? ps = none)
    (hown : ∀ p ∈ ps, AlikeForTwins table d n p.shape) (hother : AlikeForTwins table d n a) :
    AlikeForTwins table d (n + 1) (.object l ps a) := by
  intro v w y hvw hv hy
  cases v with
  | map es =>
      obtain ⟨fs, rfl, hfs, hes, hfs'⟩ := hvw.exists_entries
      obtain ⟨own, other, ho, hr, rfl⟩ := exists_of_verdict_object hps hy
      have hrest := shuffled_remaining (d := d) hfs ps
      choose! own' ho' hown' using fun p (hp : p ∈ ps) =>
        hown p hp (hvw.field _) (isWritable_fieldOf hv _) (ho p hp)
      obtain ⟨other', hr', hother'⟩ := exists_images (f := other)
        (fun f hf => hrest.exists_of_mem_right hf) fun e he f hf hef =>
          hother (hvw.entry (mem_remaining.mp he).1 (mem_remaining.mp hf).1 hef)
            (isWritable_of_mem_components hv (value_mem_components (mem_remaining.mp he).1))
            (hr e he).2
      have hkey : ∀ f ∈ remaining d ps fs, f.1.keyText?.isSome = true := by
        intro f hf
        obtain ⟨e, he, hef⟩ := hrest.exists_of_mem_right hf
        rw [← hef.key]
        exact (hr e he).1
      have hself : remaining d ps fs = (remaining d ps fs).map fun f => (f.1, f.2) :=
        (List.map_id' _).symm
      rw [final_eq_judge]
      refine ⟨_, judge_object_eq_ok hps ho' hself fun f hf => ⟨hkey f hf, hr' f hf⟩, ?_⟩
      refine shuffled_ofEntries (Shape.repeatedName?_eq_none_iff.mp hps _) ?_ ?_ ?_ ?_
      · rw [List.forall₂_map_left_iff, List.forall₂_map_right_iff, List.forall₂_same]
        exact hown'
      · refine hrest.map fun e he f hf hef => ?_
        rw [hef.key]
        exact .mk _ (hother' e he f hf hef)
      · exact (keysDistinct_remaining hes).map other
      · exact (keysDistinct_remaining hfs').map other'
  | _ => cases hy

theorem alikeForTwins (ht : table.Productive) (htable : table.Everywhere Shape.NamesDistinct) :
    ∀ (n : Nat) {s : Shape}, s.Everywhere Shape.NamesDistinct → s.references ⊆ table.names →
      AlikeForTwins table d n s
  | 0, _, _, _ => fun _ _ _ _ _ h => by cases h
  | n + 1, s, hs, hrefs => by
      have hchild {c : Shape} (hc : c ∈ s.children) : c.references ⊆ table.names :=
        fun _ hr => hrefs (Shape.references_of_child hc hr)
      have ih {c : Shape} (hc : c ∈ s.children) : AlikeForTwins table d n c :=
        alikeForTwins ht htable n (hs.child hc) (hchild hc)
      have hhere := hs.here
      cases s with
      | ref name =>
          exact alikeForTwins_ref fun target hg => alikeForTwins ht htable n (htable.of_get? hg)
            (Table.references_subset (Table.mem_entries_of_get? hg))
      | array items => exact alikeForTwins_array (ih List.mem_cons_self)
      | union members =>
          exact alikeForTwins_union ht htable (fun _ hc => hs.child hc) (fun _ hc => hchild hc)
            fun _ hc => ih hc
      | object l ps a =>
          exact alikeForTwins_object hhere
            (fun p hp => ih (List.mem_append_left _ (List.mem_map_of_mem hp)))
            (ih (List.mem_append_right _ List.mem_cons_self))
      | any | primitive | literals | null | absent | never | date => exact alikeForTwins_leaf rfl

theorem exists_run_of_twin (ht : table.Productive) (htable : table.Everywhere Shape.NamesDistinct)
    (hs : s.Everywhere Shape.NamesDistinct) (hrefs : s.references ⊆ table.names) (h : Twins v w)
    (hv : v.isWritable = true) {y : Value} (hy : run table d v s = .ok y) :
    ∃ z, run table d w s = .ok z ∧ Shuffled y z := by
  obtain ⟨z, hz, hyz⟩ := alikeForTwins ht htable _ hs hrefs h hv (run_eq_ok.mp hy)
  exact ⟨z, run_eq_ok_iff.mpr hz, hyz⟩

/-- Of two values that differ only in the order of map entries, at any depth, one is converted if
and only if the other is, and the results differ only in the order of map entries. -/
theorem run_shuffled (ht : table.Productive) (htable : table.Everywhere Shape.NamesDistinct)
    (hs : s.Everywhere Shape.NamesDistinct) (hrefs : s.references ⊆ table.names)
    (h : Shuffled v w) (hkeys : v.Everywhere HasKeysOnce) (hkeys' : w.Everywhere HasKeysOnce)
    (hv : v.isWritable = true) :
    ((∃ y, run table d v s = .ok y) ↔ ∃ z, run table d w s = .ok z) ∧
      ∀ y z, run table d v s = .ok y → run table d w s = .ok z → Shuffled y z := by
  have htwins : Twins v w := ⟨h, hkeys, hkeys'⟩
  refine ⟨⟨fun ⟨y, hy⟩ => ?_, fun ⟨z, hz⟩ => ?_⟩, fun y z hy hz => ?_⟩
  · obtain ⟨z, hz, -⟩ := exists_run_of_twin ht htable hs hrefs htwins hv hy
    exact ⟨z, hz⟩
  · obtain ⟨y, hy, -⟩ := exists_run_of_twin ht htable hs hrefs htwins.symm (h.isWritable hv) hz
    exact ⟨y, hy⟩
  · obtain ⟨z', hz', hyz⟩ := exists_run_of_twin ht htable hs hrefs htwins hv hy
    rw [hz] at hz'
    rwa [Except.ok.inj hz']

/-- A tree whose branch has two remarks, and the same tree with the remarks and the fields the other
way round. -/
theorem run_shuffled_binaryTrees :
    let branch : Value := .map [(.text "a", .null), (.text "b", .bool true)]
    let turned : Value := .map [(.text "b", .bool true), (.text "a", .null)]
    let tree : Value := .map [(.text "left", branch), (.text "remark", .int 7)]
    let treeTurned : Value := .map [(.text "remark", .int 7), (.text "left", turned)]
    run .binaryTrees .decode tree (.ref "Tree") =
        .ok (.map [(.text "right", branch), (.text "remark", .int 7)]) ∧
      ∃ z, run .binaryTrees .decode treeTurned (.ref "Tree") = .ok z ∧
        Shuffled (.map [(.text "right", branch), (.text "remark", .int 7)]) z := by
  intro branch turned tree treeTurned
  have htext (s : String) : (Value.text s).Everywhere HasKeysOnce :=
    .mk trivial fun c hc => by cases hc
  have hnull : Value.null.Everywhere HasKeysOnce := .mk trivial fun c hc => by cases hc
  have hbool : (Value.bool true).Everywhere HasKeysOnce := .mk trivial fun c hc => by cases hc
  have hint : (Value.int 7).Everywhere HasKeysOnce := .mk trivial fun c hc => by cases hc
  have hpair {k l : String} {x y : Value} (hd : KeysDistinct [(.text k, x), (.text l, y)])
      (hx : x.Everywhere HasKeysOnce) (hy : y.Everywhere HasKeysOnce) :
      (Value.map [(.text k, x), (.text l, y)]).Everywhere HasKeysOnce :=
    .mk hd (by simp [components, htext, hx, hy])
  have htree : tree.Everywhere HasKeysOnce :=
    hpair (by decide +kernel) (hpair (by decide +kernel) hnull hbool) hint
  have htreeTurned : treeTurned.Everywhere HasKeysOnce :=
    hpair (by decide +kernel) hint (hpair (by decide +kernel) hbool hnull)
  have hbranch : Shuffled branch turned :=
    .map (.swap _ _ _) (.cons (.refl _) (.cons (.refl _) .nil))
  have hshuffled : Shuffled tree treeTurned :=
    .map (.swap _ _ _) (.cons (.refl _) (.cons (.mk _ hbranch) .nil))
  have hshape : (Shape.ref "Tree").Everywhere Shape.NamesDistinct := by
    simp [Shape.Everywhere, Shape.parts, Shape.NamesDistinct]
  have hrun : run .binaryTrees .decode tree (.ref "Tree") =
      .ok (.map [(.text "right", branch), (.text "remark", .int 7)]) := by
    with_unfolding_all rfl
  obtain ⟨hiff, hsame⟩ := run_shuffled (d := .decode) Table.productive_binaryTrees
    namesDistinct_binaryTrees hshape (by decide) hshuffled htree htreeTurned (by decide +kernel)
  obtain ⟨z, hz⟩ := hiff.mp ⟨_, hrun⟩
  exact ⟨hrun, z, hz, hsame _ _ hrun hz⟩

end Conform.Conversion
