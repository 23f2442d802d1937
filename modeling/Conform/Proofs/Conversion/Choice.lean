import Conform.Proofs.Conversion.Back

/-!
# Choices of unions

A union encodes a value by its first member that accepts it, and decodes the result by its first
member that accepts that.  The two members differ if the names of their fields overlap
(`not_decoded_back`), for names are all that encoding changes: what is encoded is not rejected by
decoding, and comes back as it was, up to the order of map entries, if no choice differs
(`decode_encode`).  `ComesTo` says which choices these are: those of the unions that the encoding
comes to on its way through references, items and fields and through the members chosen.

Decoding may also stop at an overlong integer: a member before the one that encoded the value
rejects what it finds under a name where encoding found nothing, and has to put it into words.
-/

namespace Conform

namespace Shape

/-- The shape does not take values as they come and is no point in time; if it is an object, then
its names are distinct and it has no other keys. -/
def IsExact : Shape → Prop
  | .any | .date => False
  | .object _ ps a => repeatedName? ps = none ∧ a = .never
  | _ => True

theorem IsExact.ne_date {s : Shape} (h : s.IsExact) : s ≠ .date := by
  rintro rfl
  exact h

theorem IsExact.keepsNames {s : Shape} (h : s.IsExact) : s.KeepsNames := by
  cases s with
  | object l ps a => exact ⟨h.1, Or.inl h.2⟩
  | _ => trivial

end Shape

/-- The value is no tuple and not `missing`; if it is a map, then it has each key once. -/
def Value.IsPlain : Value → Prop
  | .tuple _ | .missing => False
  | .map es => KeysDistinct es
  | _ => True

namespace Conversion

open Value Traversal
open Shape (nameIn)

variable {table : Table} {d : Direction}

/-! ## The choices of a conversion -/

/-- The conversion of a value to a shape comes to another value and shape. -/
inductive ComesTo (table : Table) (d : Direction) : Value → Shape → Value → Shape → Prop
  | refl (v : Value) (s : Shape) : ComesTo table d v s v s
  | ref {v w : Value} {name : String} {s t : Shape} (hg : table.get? name = some s)
      (rest : ComesTo table d v s w t) : ComesTo table d v (.ref name) w t
  | item {v x w : Value} {xs : List Value} {items t : Shape} (hv : elements? v = some xs)
      (hx : x ∈ xs) (rest : ComesTo table d x items w t) : ComesTo table d v (.array items) w t
  | member {v w : Value} {members before after : List Shape} {s t : Shape}
      (heq : members = before ++ s :: after) (hbefore : ∀ q ∈ before, ¬ Accepts table d v q)
      (hs : Accepts table d v s) (rest : ComesTo table d v s w t) :
      ComesTo table d v (.union members) w t
  | field {es : Entries} {l : Nat} {ps : List (Property Shape)} {a t : Shape}
      {p : Property Shape} {w : Value} (hp : p ∈ ps)
      (rest : ComesTo table d (fieldOf es (nameIn d.source p)) p.shape w t) :
      ComesTo table d (.map es) (.object l ps a) w t
  | other {es : Entries} {l : Nat} {ps : List (Property Shape)} {a t : Shape}
      {e : Value × Value} {w : Value} (he : e ∈ remaining d ps es)
      (rest : ComesTo table d e.2 a w t) : ComesTo table d (.map es) (.object l ps a) w t

/-- No member before the one that encodes the value decodes what it is encoded to. -/
def SameChoice (table : Table) (v : Value) (members : List Shape) : Prop :=
  ∀ before s after y, members = before ++ s :: after →
    (∀ q ∈ before, ¬ Accepts table .encode v q) → run table .encode v s = .ok y →
      ∀ q ∈ before, ¬ Accepts table .decode y q

theorem sameChoice_pair_iff {v : Value} {s t : Shape} : SameChoice table v [s, t] ↔
    (¬ Accepts table .encode v s → ∀ y, run table .encode v t = .ok y →
      ¬ Accepts table .decode y s) := by
  constructor
  · intro h hs y hy
    exact h [s] t [] y rfl (by simpa using hs) hy s List.mem_cons_self
  · intro h before u after y heq hbefore hy q hq
    match before, heq with
    | [], _ => cases hq
    | [_], rfl =>
        rw [List.mem_singleton.mp hq]
        exact h (hbefore s List.mem_cons_self) y hy
    | _ :: _ :: _, heq => simp at heq

theorem ComesTo.eq_of_isLeaf {v w : Value} {s t : Shape} (h : ComesTo table d v s w t)
    (hs : isLeaf s = true) : t = s := by
  cases h with
  | refl => rfl
  | ref | item | member | field | other => cases hs

/-! ## Values whose choices do not differ -/

/-- A value that is to be encoded: it is plain unless it is `missing`, and at no union does the
choice differ when it is decoded again. -/
structure Steady (table : Table) (v : Value) (s : Shape) : Prop where
  plain : v = .missing ∨ v.Everywhere IsPlain
  same : ∀ w members, ComesTo table .encode v s w (.union members) → SameChoice table w members

variable {v : Value} {s : Shape}

theorem Steady.of_ref {name : String} (h : Steady table v (.ref name))
    (hg : table.get? name = some s) : Steady table v s :=
  ⟨h.plain, fun w members hw => h.same w members (.ref hg hw)⟩

theorem Steady.isPlain (h : Steady table v s) (hv : v ≠ .missing) : v.IsPlain :=
  (h.plain.resolve_left hv).here

theorem Steady.item {xs : List Value} (h : Steady table (.list xs) (.array s)) {x : Value}
    (hx : x ∈ xs) : Steady table x s where
  plain := Or.inr ((h.plain.resolve_left (by simp)).component hx)
  same := fun w members hw => h.same w members (.item rfl hx hw)

theorem Steady.member {before after : List Shape}
    (h : Steady table v (.union (before ++ s :: after)))
    (hbefore : ∀ q ∈ before, ¬ Accepts table .encode v q) (hs : Accepts table .encode v s) :
    Steady table v s :=
  ⟨h.plain, fun w members hw => h.same w members (.member rfl hbefore hs hw)⟩

theorem Steady.field {m : Entries} {l : Nat} {ps : List (Property Shape)} {a : Shape}
    (h : Steady table (.map m) (.object l ps a)) {p : Property Shape} (hp : p ∈ ps) :
    Steady table (fieldOf m (nameIn .typed p)) p.shape where
  plain := by
    by_cases hm : fieldOf m (nameIn .typed p) = .missing
    · exact Or.inl hm
    · exact Or.inr ((h.plain.resolve_left (by simp)).component
        (value_mem_components (mem_of_fieldOf hm)))
  same := fun w members hw => h.same w members (.field hp hw)

/-! ## What comes back -/

/-- A value that is encoded in so many steps, and then decoded, comes back as it was, up to the
order of map entries, if no choice differs. -/
def ComesBack (table : Table) (n : Nat) (s : Shape) : Prop :=
  ∀ ⦃v y v' : Value⦄, Steady table v s → verdict table .encode n v s = .ok y →
    final table .decode y s = .ok v' → Reordered v v'

variable {n : Nat}

theorem comesBack_leaf (hleaf : isLeaf s = true) (hs : s.IsExact) : ComesBack table (n + 1) s := by
  intro v y v' _ hy hv'
  obtain ⟨rfl, hl⟩ := leaf?_back hs.ne_date .decode ((judge_leaf_eq_ok_iff hleaf).mp hy)
  rw [final_eq_judge, judge_leaf_eq_ok_iff hleaf, hl] at hv'
  obtain rfl := Option.some.inj hv'
  exact .refl y

theorem comesBack_ref {name : String}
    (h : ∀ s, table.get? name = some s → ComesBack table n s) :
    ComesBack table (n + 1) (.ref name) := by
  intro v y v' hv hy hv'
  obtain ⟨s, hg, hy⟩ := judge_ref_eq_ok_iff.mp hy
  rw [final_eq_judge, judge, hg] at hv'
  exact h s hg (hv.of_ref hg) hy hv'

theorem comesBack_array (h : ComesBack table n s) : ComesBack table (n + 1) (.array s) := by
  intro v y v' hv hy hv'
  obtain ⟨xs, f, he, hf, rfl⟩ := exists_of_judge_array hy
  rw [final_eq_judge] at hv'
  obtain ⟨ys, g, hys, hg, rfl⟩ := exists_of_judge_array hv'
  obtain rfl : xs.map f = ys := Option.some.inj hys
  rcases elements?_eq_some he with rfl | rfl
  · refine .list ?_
    rw [List.map_map, List.forall₂_map_right_iff, List.forall₂_same]
    exact fun x hx => h (hv.item hx) (hf x hx) (hg (f x) (List.mem_map_of_mem hx))
  · exact (hv.isPlain (by simp)).elim

/-- The member that encoded the value does not reject it, and no member before decodes it. -/
theorem comesBack_union {members : List Shape}
    (hback : ∀ s ∈ members, GoesBack table .encode .decode n s)
    (h : ∀ s ∈ members, ComesBack table n s) : ComesBack table (n + 1) (.union members) := by
  intro v y v' hv hy hv'
  obtain ⟨before, s, after, rfl, hbefore, hs⟩ := judgeFirst_eq_ok_iff.mp hy
  have hmem : s ∈ before ++ s :: after := List.mem_append_right _ List.mem_cons_self
  have hrun : run table .encode v s = .ok y := run_of_verdict hs
  have hrejects : ∀ q ∈ before, ¬ Accepts table .encode v q := by
    intro q hq haccepts
    obtain ⟨z, hz⟩ := accepts_iff.mp haccepts
    rw [final_of_verdict (by simp) (hbefore q hq)] at hz
    cases hz
  have hdecodes : ∀ q ∈ before, ∀ z, final table .decode y q ≠ .ok z := by
    intro q hq z hz
    exact hv.same _ _ (.refl _ _) before s after y rfl hrejects hrun q hq (accepts_iff.mpr ⟨z, hz⟩)
  rw [final_eq_judge] at hv'
  have hdecoded : final table .decode y s = .ok v' :=
    eq_ok_of_judgeFirst (hback s hmem hs) hdecodes hv'
  exact h s hmem (hv.member hrejects ⟨y, hrun⟩) hs hdecoded

theorem comesBack_object {l : Nat} {ps : List (Property Shape)}
    (hps : Shape.repeatedName? ps = none) (h : ∀ p ∈ ps, ComesBack table n p.shape) :
    ComesBack table (n + 1) (.object l ps .never) := by
  intro v y v' hv hy hv'
  cases v with
  | map m =>
      have hm : KeysDistinct m := hv.isPlain (by simp)
      have hmissing : ∀ e ∈ m, e.2 ≠ .missing := by
        intro e he hnone
        have hplain := (hv.plain.resolve_left (by simp)).component (value_mem_components he)
        rw [hnone] at hplain
        exact hplain.here
      obtain ⟨own, other, ho, hr, rfl⟩ := exists_of_verdict_object hps hy
      -- There is no other key, since no value is accepted under it.
      have hrest : remaining .encode ps m = [] := by
        refine List.eq_nil_iff_forall_not_mem.mpr fun e he => ?_
        have hnever := (hr e he).2
        cases n <;> cases hnever
      have hnone (role : Shape.NameRole) : Apart role ps [] := fun e he => by cases he
      rw [hrest, List.map_nil, ofEntries_fieldEntries_append hps .nil (hnone _),
        final_eq_judge] at hv'
      obtain ⟨back, other', hback, -, rfl⟩ := exists_of_judge_object hps hv'
      have hfields : ∀ p ∈ ps, Reordered (fieldOf m (nameIn .typed p)) (back p) := by
        intro p hp
        have hown : fieldOf (fieldEntries .encode ps own ++ []) (nameIn .serialized p) = own p :=
          fieldOf_fieldEntries_append (d := .encode) (Shape.repeatedName?_eq_none_iff.mp hps _)
            (hnone _) hp
        exact h p hp (hv.field hp) (ho p hp) (hown ▸ hback p hp)
      have hre : Reordered (.map m) (.map (fieldEntries .decode ps back ++
          (remaining .encode ps m).map fun e => (e.1, e.2))) :=
        reordered_object hps rfl hm hmissing hfields fun e _ => .refl e.2
      rw [hrest, List.map_nil] at hre
      rw [remaining_fieldEntries_append (d := .encode) rfl (hnone _), List.map_nil,
        ofEntries_fieldEntries_append hps .nil (hnone _)]
      exact hre
  | _ => cases hy

theorem goesBack_of_isExact (htable : table.Everywhere Shape.IsExact) (n : Nat)
    (hs : s.Everywhere Shape.IsExact) : GoesBack table .encode .decode n s := by
  refine goesBack_of_everywhere rfl (fun _ h => h.keepsNames) (fun s v y hs h => ?_) htable n hs
  obtain ⟨rfl, hl⟩ := leaf?_back hs.ne_date .decode h
  exact ⟨y, hl⟩

theorem comesBack_of_everywhere (htable : table.Everywhere Shape.IsExact) :
    ∀ (n : Nat) {s : Shape}, s.Everywhere Shape.IsExact → ComesBack table n s
  | 0, _, _ => fun _ _ _ _ h => by cases h
  | n + 1, s, hs => by
      have ih {c : Shape} (hc : c ∈ s.children) : ComesBack table n c :=
        comesBack_of_everywhere htable n (hs.child hc)
      have hhere := hs.here
      cases s with
      | ref name =>
          exact comesBack_ref fun target hg =>
            comesBack_of_everywhere htable n (htable.of_get? hg)
      | array items => exact comesBack_array (ih List.mem_cons_self)
      | union members =>
          exact comesBack_union (fun _ hc => goesBack_of_isExact htable n (hs.child hc))
            fun _ hc => ih hc
      | object l ps a =>
          obtain ⟨hps, rfl⟩ := hhere
          exact comesBack_object hps fun p hp =>
            ih (List.mem_append_left _ (List.mem_map_of_mem hp))
      | any | date => exact hhere.elim
      | primitive | literals | null | absent | never => exact comesBack_leaf rfl hhere

/-- What is encoded is accepted by decoding, unless decoding stops at an overlong integer of the
value.  It is decoded to itself, up to the order of map entries, if no union that the encoding comes
to has a member before the chosen one that decodes it. -/
theorem decode_encode (ht : table.Productive) (htable : table.Everywhere Shape.IsExact)
    {shape : Shape} (hshape : shape.Everywhere Shape.IsExact)
    (hrefs : shape.references ⊆ table.names) {v s : Value} (hv : v.Everywhere IsPlain)
    (h : run table .encode v shape = .ok s) :
    (∃ v', run table .decode s shape = .ok v' ∧
      ((∀ w members, ComesTo table .encode v shape w (.union members) →
        SameChoice table w members) → Reordered v v')) ∨
      run table .decode s shape = .error .numeral ∧ ¬ v.isWritable = true := by
  have hs := run_eq_ok.mp h
  have hback : final table .decode s shape ≠ .error .rejected :=
    goesBack_of_isExact htable _ hshape hs
  rcases final_cases (d := .decode) (v := s) ht hrefs with ⟨v', hv'⟩ | hr | hn
  · refine Or.inl ⟨v', run_eq_ok_iff.mpr hv', fun hsame => ?_⟩
    exact comesBack_of_everywhere htable _ hshape ⟨Or.inr hv, hsame⟩ hs hv'
  · exact absurd hr hback
  · refine Or.inr ⟨run_eq_numeral_iff.mpr hn, fun hw => ?_⟩
    exact final_ne_numeral (isWritable_of_verdict hs hw) hn

/-- Something that is known by a code or else in another way, either of which is written as its
`id`. -/
def codedOr (code : Primitive) (name : String) (other : Primitive) : Shape :=
  .union [
    .object 0 [⟨"id", "code", .primitive code, none⟩] .never,
    .object 1 [⟨"id", name, .primitive other, none⟩] .never]

theorem isExact_codedOr (code : Primitive) (name : String) (other : Primitive) :
    (codedOr code name other).Everywhere Shape.IsExact := by
  simp only [codedOr, Shape.Everywhere, Shape.parts, Shape.partsOfList, Shape.partsOfProperties,
    List.forall_mem_cons, List.cons_append, List.nil_append, List.append_nil, Shape.IsExact]
  have hps (p : Property Shape) : Shape.repeatedName? [p] = none :=
    Shape.repeatedName?_eq_none_iff.mpr fun _ => List.nodup_singleton _
  exact ⟨trivial, ⟨hps _, trivial⟩, trivial, trivial, ⟨hps _, trivial⟩, trivial, trivial, by simp⟩

abbrev identified (code : Primitive) : Shape := codedOr code "name" .string

/-- Something that is known by a code, which is a string, or by a count. -/
abbrev counted : Shape := codedOr .string "count" .number

def named : Value := .map [(.text "name", .text "A")]

theorem isPlain_entry {name : String} {v : Value} (hv : v.Everywhere IsPlain) :
    (Value.map [(.text name, v)]).Everywhere IsPlain := by
  refine .mk (List.pairwise_singleton _ _) fun c hc => ?_
  rcases List.mem_cons.mp hc with rfl | hc
  · exact .mk trivial fun c hc => by cases hc
  · obtain rfl := List.mem_singleton.mp hc
    exact hv

theorem isPlain_named : named.Everywhere IsPlain :=
  isPlain_entry (.mk trivial fun c hc => by cases hc)

/-- The only union that the encoding comes to is the whole shape. -/
theorem sameChoice_identified {w : Value} {members : List Shape}
    (h : ComesTo .empty .encode named (identified .number) w (.union members)) :
    SameChoice .empty w members := by
  have hobject {l : Nat} {p : Property Shape} (hp : isLeaf p.shape = true) :
      ¬ ComesTo .empty .encode named (.object l [p] .never) w (.union members) := by
    intro h
    cases h with
    | field hq rest =>
        obtain rfl := List.mem_singleton.mp hq
        rw [← rest.eq_of_isLeaf hp] at hp
        cases hp
    | other _ rest => cases rest.eq_of_isLeaf rfl
  cases h with
  | refl =>
      refine sameChoice_pair_iff.mpr fun _ y hy => ?_
      obtain rfl : Value.map [(.text "id", .text "A")] = y := by
        refine Except.ok.inj (Eq.trans ?_ hy)
        with_unfolding_all rfl
      refine (not_accepts_iff Table.productive_empty (by decide) (by decide +kernel)).mpr ?_
      with_unfolding_all rfl
  | member heq hbefore hs rest =>
      rename_i before after s
      have hmem : s ∈ before ++ s :: after := List.mem_append_right _ List.mem_cons_self
      rw [← heq] at hmem
      rcases List.mem_cons.mp hmem with rfl | hmem
      · exact absurd rest (hobject rfl)
      · obtain rfl := List.mem_singleton.mp hmem
        exact absurd rest (hobject rfl)

theorem decode_encode_identified :
    let written : Value := .map [(.text "id", .text "A")]
    run .empty .encode named (identified .number) = .ok written ∧
      ∃ v', run .empty .decode written (identified .number) = .ok v' ∧ Reordered named v' := by
  intro written
  have hrun : run .empty .encode named (identified .number) = .ok written := by
    with_unfolding_all rfl
  have hback := decode_encode (Table.productive_empty) (by simp [Table.Everywhere, Table.empty])
    (isExact_codedOr _ _ _) (by decide) isPlain_named hrun
  obtain ⟨v', hv', hre⟩ := hback.resolve_right fun h => h.2 (by decide +kernel)
  exact ⟨hrun, v', hv', hre fun w members => sameChoice_identified⟩

/-- A name is decoded as a code if a code is a string, too.  A count with an overlong integer is not
decoded at all, since it has to be put into words that it is no code. -/
theorem not_decoded_back :
    let written : Value := .map [(.text "id", .text "A")]
    let long : Value := .int (10 ^ 4300)
    let count : Value := .map [(.text "count", long)]
    let writtenCount : Value := .map [(.text "id", long)]
    Table.empty.Productive ∧ Table.empty.Everywhere Shape.IsExact ∧
      ((identified .string).Everywhere Shape.IsExact ∧
        (identified .string).references ⊆ Table.empty.names ∧ named.Everywhere IsPlain ∧
        run .empty .encode named (identified .string) = .ok written ∧
        ¬ ∃ v', run .empty .decode written (identified .string) = .ok v' ∧ Reordered named v') ∧
      counted.Everywhere Shape.IsExact ∧ counted.references ⊆ Table.empty.names ∧
        count.Everywhere IsPlain ∧ run .empty .encode count counted = .ok writtenCount ∧
        run .empty .decode writtenCount counted = .error .numeral := by
  intro written long count writtenCount
  refine ⟨Table.productive_empty, by simp [Table.Everywhere, Table.empty],
    ⟨isExact_codedOr _ _ _, by decide, isPlain_named, by with_unfolding_all rfl, ?_⟩,
    isExact_codedOr _ _ _, by decide, ?_, by with_unfolding_all rfl, ?_⟩
  · rintro ⟨v', hv', hre⟩
    have hrun : run .empty .decode written (identified .string) =
        .ok (.map [(.text "code", .text "A")]) := by
      with_unfolding_all rfl
    rw [hrun] at hv'
    obtain rfl := Except.ok.inj hv'
    simpa using List.perm_singleton.mp hre.keys_perm
  · exact isPlain_entry (.mk trivial fun c hc => by cases hc)
  · have hlong : final .empty .decode long (.primitive .string) = .error .numeral :=
      final_leaf_eq_numeral rfl rfl (by decide +kernel)
    have hid : fieldOf [(.text "id", long)] "id" = long := by with_unfolding_all rfl
    have hcode : final .empty .decode writtenCount
        (.object 0 [⟨"id", "code", .primitive .string, none⟩] .never) = .error .numeral := by
      rw [final_eq_judge, judge, judgeObject_ofObject (by decide), List.mapM_cons]
      refine bind_eq_error.mpr (Or.inl (bind_eq_error.mpr (Or.inl ?_)))
      show final .empty .decode (fieldOf [(.text "id", long)] "id") (.primitive .string) = _
      rw [hid, hlong]
    rw [run_eq_numeral_iff, final_eq_judge, counted, codedOr, judge, judgeFirst, hcode]

end Conversion

end Conform
