import Conform.Proofs.Conversion.Conformance
import Conform.Proofs.Conversion.Location

/-!
# The first fault of a value

A conversion goes through a value in a fixed order: items by position, the fields of an object in
the order in which they are declared, then the remaining entries in the order of the input.
`FirstFault` says where, in this order, the first value stands that the shape there refuses, by
recursion on the way to it: of all that comes before, everything is accepted.  The way does not lead
into the members of unions.

A value has at most one first fault (`FirstFault.unique`), and a rejection is about it and shows
the path to it (`run_rejects_first_fault`).
-/

namespace Conform.Conversion

open Value Traversal
open Shape (nameIn)

variable {table : Table} {d : Direction}

/-- A path from a value to the first value that is refused on the way through a shape, and that
value. -/
inductive FirstFault (table : Table) (d : Direction) :
    Value → Shape → List Segment → Value → Prop
  | here {v : Value} {s : Shape} (h : Refuses table d v s) : FirstFault table d v s [] v
  | ref {v w : Value} {name : String} {s : Shape} {path : List Segment}
      (hg : table.get? name = some s) (rest : FirstFault table d v s path w) :
      FirstFault table d v (.ref name) path w
  | item {v x w : Value} {before after : List Value} {items : Shape} {path : List Segment}
      (hv : elements? v = some (before ++ x :: after))
      (hbefore : ∀ y ∈ before, Accepts table d y items)
      (rest : FirstFault table d x items path w) :
      FirstFault table d v (.array items) (.index before.length :: path) w
  | field {m : Entries} {l : Nat} {ps before after : List (Property Shape)} {p : Property Shape}
      {a : Shape} {w : Value} {path : List Segment} (hps : ps = before ++ p :: after)
      (hbefore : ∀ q ∈ before, Accepts table d (fieldOf m (nameIn d.source q)) q.shape)
      (rest : FirstFault table d (fieldOf m (nameIn d.source p)) p.shape path w) :
      FirstFault table d (.map m) (.object l ps a) (.key (nameIn d.source p) :: path) w
  | other {m before after : Entries} {l : Nat} {ps : List (Property Shape)} {a : Shape}
      {k x w : Value} {text : String} {path : List Segment}
      (hown : ∀ p ∈ ps, Accepts table d (fieldOf m (nameIn d.source p)) p.shape)
      (hrest : remaining d ps m = before ++ (k, x) :: after)
      (hbefore : ∀ e ∈ before, Accepts table d e.2 a) (hk : k.keyText? = some text)
      (rest : FirstFault table d x a path w) :
      FirstFault table d (.map m) (.object l ps a) (.key text :: path) w

/-! ## What is rejected has a first fault -/

/-- A field that is refused after those declared before it have been accepted, both told by the
field map. -/
theorem FirstFault.of_ofObject {m : Entries} {l : Nat} {ps : List (Property Shape)} {a : Shape}
    (hs : (Shape.object l ps a).Everywhere Shape.NamesDistinct) {before after : FieldMap}
    {name : String} {target : FieldTarget} {w : Value} {path : List Segment}
    (hfields : FieldMap.ofObject ⟨l, ps, a⟩ d = before ++ (name, target) :: after)
    (hbefore : ∀ e ∈ before, Accepts table d (fieldOf m e.1) e.2.shape)
    (rest : target.shape.Everywhere Shape.NamesDistinct →
      FirstFault table d (fieldOf m name) target.shape path w) :
    FirstFault table d (.map m) (.object l ps a) (.key name :: path) w := by
  have hps : Shape.repeatedName? ps = none := hs.here
  rw [FieldMap.ofObject_eq_map hps] at hfields
  obtain ⟨qs, tail, rfl, rfl, htail⟩ := List.map_eq_append_iff.mp hfields
  obtain ⟨p, others, rfl, hp, -⟩ := List.map_eq_cons_iff.mp htail
  rw [FieldMap.entry_eq] at hp
  obtain ⟨rfl, rfl⟩ := Prod.mk.inj hp
  refine .field rfl (fun q hq => ?_) (rest (hs.property List.mem_append_cons_self))
  have hq := hbefore _ (List.mem_map_of_mem hq)
  rwa [FieldMap.entry_eq] at hq

theorem accepts_field_iff {m : Entries} {l : Nat} {ps : List (Property Shape)} {a : Shape}
    (hps : Shape.repeatedName? ps = none) :
    (∀ e ∈ FieldMap.ofObject ⟨l, ps, a⟩ d, Accepts table d (fieldOf m e.1) e.2.shape) ↔
      ∀ p ∈ ps, Accepts table d (fieldOf m (nameIn d.source p)) p.shape := by
  rw [FieldMap.ofObject_eq_map hps, List.forall_mem_map]
  simp only [FieldMap.entry_eq]

theorem Descent.firstFault (htable : table.Everywhere Shape.NamesDistinct) {v w : Value}
    {s t : Shape} {path : List Segment} {key : Option Value} (h : Descent table d v s path key w t)
    (hs : s.Everywhere Shape.NamesDistinct) (ht : Refuses table d w t) :
    FirstFault table d v s path w := by
  induction h with
  | here => exact .here ht
  | ref hg _ ih => exact .ref hg (ih (htable.of_get? hg) ht)
  | item hv hbefore _ ih => exact .item hv hbefore (ih (hs.child List.mem_cons_self) ht)
  | field hfields hbefore hx _ ih | absentField hfields hbefore hx _ ih =>
      refine .of_ofObject hs hfields hbefore fun htarget => ?_
      rw [fieldOf, hx]
      exact ih htarget ht
  | other hfields hes hbefore hk _ ih =>
      rw [undeclared_ofObject hs.here] at hes
      exact .other ((accepts_field_iff hs.here).mp hfields) hes hbefore hk (ih hs.additional ht)

/-! ## Where the first fault is, there is a rejection -/

theorem judgeFirst_eq_error_of_all {ask : Value → Shape → Verdict} {v : Value} :
    ∀ {ss : List Shape}, (∀ s ∈ ss, ask v s = .error .rejected) →
      judgeFirst ask v ss = .error (refusal v)
  | [], _ => rfl
  | s :: ss, h => by
      obtain ⟨hs, h⟩ := List.forall_mem_cons.mp h
      rw [judgeFirst, hs]
      exact judgeFirst_eq_error_of_all h

theorem Refuses.final {v : Value} {s : Shape} (h : Refuses table d v s)
    (hv : v.isWritable = true) : final table d v s = .error .rejected := by
  have hrefusal : (.error (refusal v) : Verdict) = .error .rejected :=
    congrArg Except.error (if_pos hv)
  rw [final_eq_judge]
  cases s with
  | ref name => cases h
  | array items =>
      simp only [judge, show elements? v = none from h]
      exact hrefusal
  | union members =>
      refine (judgeFirst_eq_error_of_all fun s hs => ?_).trans hrefusal
      exact exists_run_eq_rejected_iff.mp (h s hs)
  | object l ps a =>
      cases v with
      | map m => exact absurd rfl (h m)
      | _ => exact hrefusal
  | _ =>
      rw [judge_leaf rfl, show leaf? d v _ = none from h]
      exact hrefusal

theorem isWritable_of_mem_remaining {m : Entries} {ps : List (Property Shape)}
    (hm : (Value.map m).isWritable = true) {e : Value × Value} (he : e ∈ remaining d ps m) :
    e.1.isWritable = true ∧ e.2.isWritable = true :=
  have he := (mem_remaining.mp he).1
  ⟨isWritable_of_mem_components hm (key_mem_components he),
    isWritable_of_mem_components hm (value_mem_components he)⟩

theorem FirstFault.final (htable : table.Everywhere Shape.NamesDistinct) {v w : Value} {s : Shape}
    {path : List Segment} (h : FirstFault table d v s path w)
    (hs : s.Everywhere Shape.NamesDistinct) (hv : v.isWritable = true) :
    final table d v s = .error .rejected := by
  induction h with
  | here h => exact h.final hv
  | ref hg _ ih =>
      rw [final_eq_judge, judge, hg]
      exact ih (htable.of_get? hg) hv
  | item he hbefore _ ih =>
      rw [final_eq_judge, judge, he]
      refine map_eq_error.mpr (mapM_eq_error ?_ fun y hy => accepts_iff.mp (hbefore y hy))
      exact ih (hs.child List.mem_cons_self)
        (isWritable_of_mem_elements he hv List.mem_append_cons_self)
  | @field m l ps before after p a w path hps hbefore _ ih =>
      have hp := hs.property (hps ▸ List.mem_append_cons_self : p ∈ ps)
      rw [final_eq_judge, judge, judgeObject_ofObject hs.here]
      refine bind_eq_error.mpr (Or.inl ?_)
      rw [hps]
      refine mapM_eq_error (x := p) ?_ fun q hq => accepts_iff.mp (hbefore q hq)
      exact ih hp (isWritable_fieldOf hv _)
  | @other m before after l ps a k x w text path hown hrest hbefore hk _ ih =>
      have hentry {e : Value × Value} (he : e ∈ before ++ (k, x) :: after) :=
        isWritable_of_mem_remaining hv (hrest ▸ he)
      rw [final_eq_judge, judge, judgeObject_ofObject hs.here]
      obtain ⟨own, hys⟩ := exists_mapM_eq_ok fun p hp => accepts_iff.mp (hown p hp)
      refine bind_eq_error.mpr (Or.inr ⟨own, hys, bind_eq_error.mpr (Or.inl ?_)⟩)
      rw [hrest]
      refine mapM_eq_error ?_ fun e he => ?_
      · rw [judgeOther, if_pos (Option.isSome_of_mem hk)]
        exact ih hs.additional (hentry List.mem_append_cons_self).2
      · obtain ⟨y, hy⟩ := accepts_iff.mp (hbefore e he)
        have hkey := (hentry (List.mem_append_left _ he)).1
        rw [← isSome_keyText?] at hkey
        exact ⟨y, judgeOther_eq_ok.mpr ⟨hkey, hy⟩⟩

theorem FirstFault.not_accepts (htable : table.Everywhere Shape.NamesDistinct) {v w : Value}
    {s : Shape} {path : List Segment} (h : FirstFault table d v s path w)
    (hs : s.Everywhere Shape.NamesDistinct) (hv : v.isWritable = true) : ¬ Accepts table d v s := by
  intro haccepts
  obtain ⟨y, hy⟩ := accepts_iff.mp haccepts
  rw [h.final htable hs hv] at hy
  cases hy

/-! ## There is one first fault -/

/-- Of a list, the first element that has no property is found at one place only. -/
theorem eq_of_first_not {α : Type} {P : α → Prop} {x x' : α} {after after' : List α} (hx : ¬ P x)
    (hx' : ¬ P x') : ∀ {before before' : List α}, before ++ x :: after = before' ++ x' :: after' →
      (∀ y ∈ before, P y) → (∀ y ∈ before', P y) → before = before' ∧ x = x'
  | [], [], h, _, _ => ⟨rfl, (List.cons.inj h).1⟩
  | [], y' :: before', h, _, hbefore' => by
      obtain ⟨rfl, -⟩ := List.cons.inj h
      exact absurd (hbefore' x List.mem_cons_self) hx
  | y :: before, [], h, hbefore, _ => by
      obtain ⟨rfl, -⟩ := List.cons.inj h
      exact absurd (hbefore y List.mem_cons_self) hx'
  | y :: before, y' :: before', h, hbefore, hbefore' => by
      obtain ⟨rfl, htail⟩ := List.cons.inj h
      have hbefore := (List.forall_mem_cons.mp hbefore).2
      have hbefore' := (List.forall_mem_cons.mp hbefore').2
      exact (eq_of_first_not hx hx' htail hbefore hbefore').imp_left (congrArg (y :: ·))

theorem FirstFault.unique (htable : table.Everywhere Shape.NamesDistinct) {v w w' : Value}
    {s : Shape} {path path' : List Segment} (h : FirstFault table d v s path w)
    (h' : FirstFault table d v s path' w') (hs : s.Everywhere Shape.NamesDistinct)
    (hv : v.isWritable = true) : path = path' ∧ w = w' := by
  induction h generalizing path' w' with
  | here hrefuses =>
      cases h' with
      | here => exact ⟨rfl, rfl⟩
      | ref => cases hrefuses
      | item he =>
          rw [show elements? _ = none from hrefuses] at he
          cases he
      | field | other => exact absurd rfl (hrefuses _)
  | ref hg _ ih =>
      cases h' with
      | here hrefuses => cases hrefuses
      | ref hg' rest' =>
          obtain rfl := Option.some.inj (hg.symm.trans hg')
          exact ih rest' (htable.of_get? hg) hv
  | @item v x w before after items path he hbefore rest ih =>
      have hfault {y u : Value} {ys zs : List Value} {q : List Segment}
          (hy : elements? v = some (ys ++ y :: zs)) (h : FirstFault table d y items q u) :
          ¬ Accepts table d y items :=
        h.not_accepts htable (hs.child List.mem_cons_self)
          (isWritable_of_mem_elements hy hv List.mem_append_cons_self)
      cases h' with
      | here hrefuses =>
          rw [show elements? v = none from hrefuses] at he
          cases he
      | item he' hbefore' rest' =>
          obtain ⟨rfl, rfl⟩ := eq_of_first_not (P := (Accepts table d · items)) (hfault he rest)
            (hfault he' rest') (Option.some.inj (he.symm.trans he')) hbefore hbefore'
          have hx := isWritable_of_mem_elements he hv List.mem_append_cons_self
          exact (ih rest' (hs.child List.mem_cons_self) hx).imp_left (congrArg (_ :: ·))
  | @field m l ps before after p a w path hps hbefore rest ih =>
      let P (q : Property Shape) : Prop := Accepts table d (fieldOf m (nameIn d.source q)) q.shape
      have hfault {q : Property Shape} {qs rs : List (Property Shape)} {u : Value}
          {way : List Segment} (hq : ps = qs ++ q :: rs)
          (h : FirstFault table d (fieldOf m (nameIn d.source q)) q.shape way u) : ¬ P q :=
        h.not_accepts htable (hs.property (hq ▸ List.mem_append_cons_self))
          (isWritable_fieldOf hv _)
      cases h' with
      | here hrefuses => exact absurd rfl (hrefuses m)
      | field hps' hbefore' rest' =>
          obtain ⟨rfl, rfl⟩ := eq_of_first_not (hfault hps rest) (hfault hps' rest')
            (hps.symm.trans hps') hbefore hbefore'
          have hp := hs.property (hps ▸ List.mem_append_cons_self : p ∈ ps)
          exact (ih rest' hp (isWritable_fieldOf hv _)).imp_left (congrArg (_ :: ·))
      | other hown => exact absurd (hown p (hps ▸ List.mem_append_cons_self)) (hfault hps rest)
  | @other m before after l ps a k x w text path hown hrest hbefore hk rest ih =>
      have hfault {e : Value × Value} {es fs : Entries} {u : Value} {way : List Segment}
          (he : remaining d ps m = es ++ e :: fs) (h : FirstFault table d e.2 a way u) :
          ¬ Accepts table d e.2 a :=
        h.not_accepts htable hs.additional
          (isWritable_of_mem_remaining hv (he ▸ List.mem_append_cons_self)).2
      cases h' with
      | here hrefuses => exact absurd rfl (hrefuses m)
      | @field _ _ _ _ _ p _ _ _ hps' _ rest' =>
          have hp : p ∈ ps := hps' ▸ List.mem_append_cons_self
          exact absurd (hown p hp)
            (rest'.not_accepts htable (hs.property hp) (isWritable_fieldOf hv _))
      | other _ hrest' hbefore' hk' rest' =>
          obtain ⟨rfl, heq⟩ := eq_of_first_not (P := fun e => Accepts table d e.2 a)
            (hfault hrest rest) (hfault hrest' rest') (hrest.symm.trans hrest') hbefore hbefore'
          obtain ⟨rfl, rfl⟩ := Prod.mk.inj heq
          obtain rfl := Option.some.inj (hk.symm.trans hk')
          have hx := (isWritable_of_mem_remaining hv (hrest ▸ List.mem_append_cons_self)).2
          exact (ih rest' hs.additional hx).imp_left (congrArg (_ :: ·))

/-! ## Rejections are about the first fault -/

/-- A rejection is about the first fault of the value, and shows the path to it; and where a value
with writable integers has a first fault, there is such a rejection. -/
theorem run_rejects_first_fault (htable : table.Everywhere Shape.NamesDistinct) {s : Shape}
    (hs : s.Everywhere Shape.NamesDistinct) (v : Value) :
    (∀ r, run table d v s = .error (.rejected r) → FirstFault table d v s r.path r.actual) ∧
      (v.isWritable = true → ∀ path w, FirstFault table d v s path w →
        ∃ r, run table d v s = .error (.rejected r) ∧ r.path = path ∧ r.actual = w) := by
  have hfault {r : Rejection} (h : run table d v s = .error (.rejected r)) :
      FirstFault table d v s r.path r.actual := by
    obtain ⟨path, key, t, hpath, -, hdescent, ht⟩ := traced_of_convert h
    rw [Place.top, List.nil_append] at hpath
    rw [hpath]
    exact hdescent.firstFault htable hs ht
  refine ⟨fun r => hfault, fun hv path w h => ?_⟩
  obtain ⟨r, hr⟩ := exists_run_eq_rejected_iff.mpr (h.final htable hs hv)
  obtain ⟨hpath, hactual⟩ := (hfault hr).unique htable h hs hv
  exact ⟨r, hr, hpath, hactual⟩

/-- Some counts, and remarks under other keys. -/
def counts : Shape :=
  .object 0 [⟨"counts", "counts", .array (.primitive .number), none⟩] (.primitive .string)

/-- The second count is refused before the remark in front of the counts and the truth value after
it are looked at. -/
theorem run_rejects_first_fault_counts :
    let v : Value := .map [
      (.text "remark", .int 7),
      (.text "counts", .list [.int 1, .null, .bool true])]
    let r : Rejection :=
      ⟨"number", .null, some (.text "counts"), "", [.key "counts", .index 1]⟩
    run .empty .decode v counts = .error (.rejected r) ∧
      FirstFault .empty .decode v counts [.key "counts", .index 1] .null ∧
      ∀ path w, FirstFault .empty .decode v counts path w →
        path = [.key "counts", .index 1] ∧ w = .null := by
  intro v r
  have hrun : run .empty .decode v counts = .error (.rejected r) := by with_unfolding_all rfl
  have htable : Table.empty.Everywhere Shape.NamesDistinct := by
    simp [Table.Everywhere, Table.empty]
  have hcounts : counts.Everywhere Shape.NamesDistinct := by
    simp only [counts, Shape.Everywhere, Shape.parts, Shape.partsOfProperties, List.forall_mem_cons,
      List.cons_append, List.nil_append, List.append_nil, Shape.NamesDistinct]
    exact ⟨by decide, trivial, trivial, trivial, by simp⟩
  obtain ⟨hfault, hrejected⟩ := run_rejects_first_fault (d := .decode) htable hcounts v
  refine ⟨hrun, hfault r hrun, fun path w h => ?_⟩
  obtain ⟨r', hr', rfl, rfl⟩ := hrejected (by decide +kernel) path w h
  obtain rfl := Stop.rejected.inj (Except.error.inj (hrun.symm.trans hr'))
  exact ⟨rfl, rfl⟩

end Conform.Conversion
