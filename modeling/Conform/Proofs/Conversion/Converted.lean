import Conform.Proofs.Conversion.Verdict
import Conform.Proofs.Table.References
import Conform.Proofs.Value.Nesting

/-!
# What values are converted to

A relation between values that holds for shapes without parts, and that arrays and objects pass on
from the parts to the whole, holds between each value and what it is converted to
(`verdict_related`).  Nothing but `missing` is converted to `missing`, and properties that a value
hands down to its parts are kept (`Inherited.of_verdict`): so no overlong integer comes out of a
value that has none.
-/

namespace Conform.Conversion

open Value Traversal

variable {table : Table} {direction : Direction}

/-! ## What is accepted -/

theorem judge_leaf_eq_ok_iff {ask : Value → Shape → Verdict} {v y : Value} {s : Shape}
    (hs : isLeaf s = true) :
    judge table direction ask v s = .ok y ↔ leaf? direction v s = some y := by
  rw [judge_leaf hs, ofLeaf_eq_ok]

theorem judge_ref_eq_ok_iff {ask : Value → Shape → Verdict} {v y : Value} {name : String} :
    judge table direction ask v (.ref name) = .ok y ↔
      ∃ s, table.get? name = some s ∧ ask v s = .ok y := by
  simp only [judge]
  cases table.get? name with
  | none => simp
  | some s => simp

theorem exists_of_judge_array {ask : Value → Shape → Verdict} {v y : Value} {items : Shape}
    (h : judge table direction ask v (.array items) = .ok y) :
    ∃ (xs : List Value) (f : Value → Value), elements? v = some xs ∧
      (∀ x ∈ xs, ask x items = .ok (f x)) ∧ y = .list (xs.map f) := by
  simp only [judge] at h
  cases he : elements? v with
  | none =>
      rw [he] at h
      cases h
  | some xs =>
      rw [he] at h
      obtain ⟨ys, hys, rfl⟩ := map_eq_ok.mp h
      obtain ⟨f, hf, rfl⟩ := exists_of_mapM_eq_ok hys
      exact ⟨xs, f, rfl, hf, rfl⟩

theorem judge_elements_eq_ok {ask : Value → Shape → Verdict} {v : Value} {items : Shape}
    {xs : List Value} {f : Value → Value} (hv : elements? v = some xs)
    (h : ∀ x ∈ xs, ask x items = .ok (f x)) :
    judge table direction ask v (.array items) = .ok (.list (xs.map f)) := by
  rw [judge, hv]
  exact map_eq_ok.mpr ⟨xs.map f, mapM_eq_ok h, rfl⟩

theorem judge_array_eq_ok {ask : Value → Shape → Verdict} {items : Shape} {xs : List Value}
    {f g : Value → Value} (h : ∀ x ∈ xs, ask (f x) items = .ok (g x)) :
    judge table direction ask (.list (xs.map f)) (.array items) = .ok (.list (xs.map g)) := by
  refine map_eq_ok.mpr ⟨xs.map g, ?_, rfl⟩
  rw [List.mapM_map]
  exact mapM_eq_ok h

theorem judgeFirst_eq_ok_iff {ask : Value → Shape → Verdict} {v y : Value} {ss : List Shape} :
    judgeFirst ask v ss = .ok y ↔ ∃ before s after, ss = before ++ s :: after ∧
      (∀ q ∈ before, ask v q = .error .rejected) ∧ ask v s = .ok y := by
  induction ss with
  | nil => simp [judgeFirst]
  | cons s ss ih =>
      rw [judgeFirst]
      constructor
      · intro h
        split at h
        · rename_i hs
          obtain ⟨before, t, after, rfl, hbefore, ht⟩ := ih.mp h
          exact ⟨s :: before, t, after, rfl, List.forall_mem_cons.mpr ⟨hs, hbefore⟩, ht⟩
        · exact ⟨[], s, ss, rfl, by simp, h⟩
      · rintro ⟨before, t, after, heq, hbefore, ht⟩
        cases before with
        | nil =>
            obtain ⟨rfl, rfl⟩ := List.cons.inj heq
            rw [ht]
        | cons q before =>
            obtain ⟨rfl, rfl⟩ := List.cons.inj heq
            have hbefore := List.forall_mem_cons.mp hbefore
            rw [hbefore.1]
            exact ih.mpr ⟨before, t, after, rfl, hbefore.2, ht⟩

theorem exists_of_judgeFirst_eq_ok {ask : Value → Shape → Verdict} {v y : Value} {ss : List Shape}
    (h : judgeFirst ask v ss = .ok y) : ∃ s ∈ ss, ask v s = .ok y := by
  obtain ⟨before, s, after, rfl, -, hs⟩ := judgeFirst_eq_ok_iff.mp h
  exact ⟨s, List.mem_append_right _ List.mem_cons_self, hs⟩

/-- What a union gives is what its first member gives that can: here no member before it accepts,
and it does not reject. -/
theorem eq_ok_of_judgeFirst {ask : Value → Shape → Verdict} {v y : Value} {s : Shape}
    {after : List Shape} (hs : ask v s ≠ .error .rejected) : ∀ {before : List Shape},
      (∀ q ∈ before, ∀ z, ask v q ≠ .ok z) →
      judgeFirst ask v (before ++ s :: after) = .ok y → ask v s = .ok y
  | [], _, h => by
      rw [List.nil_append, judgeFirst] at h
      split at h
      · exact absurd ‹_› hs
      · exact h
  | q :: before, hbefore, h => by
      obtain ⟨hq, hbefore⟩ := List.forall_mem_cons.mp hbefore
      rw [List.cons_append, judgeFirst] at h
      split at h
      · exact eq_ok_of_judgeFirst hs hbefore h
      · exact absurd h (hq y)

/-! ## What is rejected

An array, a union or an object rejects a value of its kind only if a part is rejected.  Whether what
is not rejected is accepted is another question: the conversion may stop for other reasons. -/

theorem judge_leaf_ne_rejected {ask : Value → Shape → Verdict} {v y : Value} {s : Shape}
    (h : leaf? direction v s = some y) (hs : isLeaf s = true) :
    judge table direction ask v s ≠ .error .rejected := by
  rw [(judge_leaf_eq_ok_iff hs).mpr h]
  simp

theorem judge_array_ne_rejected {ask : Value → Shape → Verdict} {v : Value} {items : Shape}
    {xs : List Value} (hv : elements? v = some xs)
    (h : ∀ x ∈ xs, ask x items ≠ .error .rejected) :
    judge table direction ask v (.array items) ≠ .error .rejected := by
  rw [judge, hv]
  intro hr
  obtain ⟨x, hx, hr⟩ := exists_of_mapM_eq_error (map_eq_error.mp hr)
  exact h x hx hr

theorem judgeFirst_eq_rejected {ask : Value → Shape → Verdict} {v : Value} :
    ∀ {ss : List Shape}, judgeFirst ask v ss = .error .rejected →
      ∀ s ∈ ss, ask v s = .error .rejected
  | [], _ => by simp
  | s :: ss, h => by
      rw [judgeFirst] at h
      split at h
      · rename_i hs
        exact List.forall_mem_cons.mpr ⟨hs, judgeFirst_eq_rejected h⟩
      · rename_i hs
        exact absurd h hs

/-! ## Relations that are passed on -/

/-- A relation that is passed on from parts to wholes holds between a value and what it is converted
to, if it holds for the shapes without parts among those that there are. -/
theorem verdict_related_of_everywhere {P : Value → Value → Prop} {Q : Shape → Prop}
    (ht : table.Everywhere Q)
    (leaf : ∀ {v s y}, Q s → leaf? direction v s = some y → P v y)
    (array : ∀ {v xs} {f : Value → Value}, elements? v = some xs → (∀ x ∈ xs, P x (f x)) →
      P v (.list (xs.map f)))
    (object : ∀ {es : Entries} {fields : FieldMap} {own : String × FieldTarget → Value}
      {other : Value × Value → Value}, (∀ e ∈ fields, P (fieldOf es e.1) (own e)) →
      (∀ e ∈ undeclared fields es, P e.2 (other e)) →
      P (.map es)
        (ofEntries (assembled fields es (fields.map own) ((undeclared fields es).map other)))) :
    ∀ {n : Nat} {v y : Value} {s : Shape}, s.Everywhere Q →
      verdict table direction n v s = .ok y → P v y
  | n + 1, v, y, s, hs, h => by
      have ih {v y : Value} {s : Shape} (hs : s.Everywhere Q)
          (h : verdict table direction n v s = .ok y) : P v y :=
        verdict_related_of_everywhere ht leaf array object hs h
      rw [verdict] at h
      cases s with
      | ref name =>
          obtain ⟨target, hg, h⟩ := judge_ref_eq_ok_iff.mp h
          exact ih (ht.of_get? hg) h
      | array items =>
          obtain ⟨xs, f, he, hf, rfl⟩ := exists_of_judge_array h
          exact array he fun x hx => ih (hs.child List.mem_cons_self) (hf x hx)
      | union members =>
          obtain ⟨s, hmem, h⟩ := exists_of_judgeFirst_eq_ok h
          exact ih (hs.child hmem) h
      | object l ps a =>
          cases v with
          | map es =>
              obtain ⟨ys, hys, h⟩ := bind_eq_ok.mp h
              obtain ⟨zs, hzs, h⟩ := bind_eq_ok.mp h
              obtain ⟨own, hown, rfl⟩ := exists_of_mapM_eq_ok hys
              obtain ⟨other, hother, rfl⟩ := exists_of_mapM_eq_ok hzs
              rw [← Except.ok.inj h]
              refine object (fun e he => ih ?_ (hown e he)) fun e he => ?_
              · exact hs.child (FieldMap.shape_mem_children he)
              · have he := hother e he
                rw [judgeOther] at he
                split at he
                · exact ih (hs.child (List.mem_append_right _ List.mem_cons_self)) he
                · cases he
          | _ => cases h
      | _ => exact leaf hs.here ((judge_leaf_eq_ok_iff rfl).mp h)

theorem verdict_related {P : Value → Value → Prop}
    (leaf : ∀ {v s y}, leaf? direction v s = some y → P v y)
    (array : ∀ {v xs} {f : Value → Value}, elements? v = some xs → (∀ x ∈ xs, P x (f x)) →
      P v (.list (xs.map f)))
    (object : ∀ {es : Entries} {fields : FieldMap} {own : String × FieldTarget → Value}
      {other : Value × Value → Value}, (∀ e ∈ fields, P (fieldOf es e.1) (own e)) →
      (∀ e ∈ undeclared fields es, P e.2 (other e)) →
      P (.map es)
        (ofEntries (assembled fields es (fields.map own) ((undeclared fields es).map other)))) :
    ∀ {n : Nat} {v y : Value} {s : Shape}, verdict table direction n v s = .ok y → P v y :=
  fun h => verdict_related_of_everywhere (Q := fun _ => True) (fun _ _ _ _ => trivial)
    (fun _ => leaf) array object (fun _ _ => trivial) h

/-! ## Values that stay as they are -/

/-- A shape without parts leaves the value as it is, unless it is a point in time. -/
theorem leaf?_eq_some {v y : Value} {s : Shape} (h : leaf? direction v s = some y) :
    y = v ∨ s = .date ∧ ∃ m, momentOf? v = some m ∧ y = convertMoment direction m := by
  cases s with
  | any => exact Or.inl (Option.some.inj h).symm
  | primitive kind =>
      simp only [leaf?] at h
      split at h
      · exact Or.inl (Option.some.inj h).symm
      · cases h
  | literals values =>
      simp only [leaf?] at h
      split at h
      · split at h
        · exact Or.inl (Option.some.inj h).symm
        · cases h
      · cases h
  | date =>
      simp only [leaf?] at h
      split at h
      · exact Or.inl (Option.some.inj h).symm
      · obtain ⟨m, hm, rfl⟩ := Option.map_eq_some_iff.mp h
        exact Or.inr ⟨rfl, m, hm, rfl⟩
  | null | absent =>
      simp only [leaf?] at h
      split at h
      · exact Or.inl (Option.some.inj h).symm
      · cases h
  | _ => cases h

theorem elements?_eq_some {v : Value} {xs : List Value} (h : elements? v = some xs) :
    v = .list xs ∨ v = .tuple xs := by
  cases v with
  | list ys => exact Or.inl (congrArg _ (Option.some.inj h))
  | tuple ys => exact Or.inr (congrArg _ (Option.some.inj h))
  | _ => cases h

theorem missing_iff_of_verdict {n : Nat} {v y : Value} {s : Shape}
    (h : verdict table direction n v s = .ok y) : y = .missing ↔ v = .missing := by
  refine verdict_related (P := fun v y => y = .missing ↔ v = .missing) (fun {v s y} h => ?_)
    (fun {v xs f} he _ => ?_) (fun _ _ => by simp [ofEntries]) h
  · rcases leaf?_eq_some h with rfl | ⟨-, m, hm, rfl⟩
    · exact Iff.rfl
    · constructor
      · cases direction <;> simp [convertMoment]
      · rintro rfl
        cases hm
  · rcases elements?_eq_some he with rfl | rfl <;> simp

theorem isWritable_fieldOf {es : Entries} (h : (Value.map es).isWritable = true) (name : String) :
    (fieldOf es name).isWritable = true := by
  by_cases hm : fieldOf es name = .missing
  · rw [hm]
    rfl
  · exact isWritable_of_mem_components h (value_mem_components (mem_of_fieldOf hm))

theorem isWritable_of_mem_elements {v x : Value} {xs : List Value} (he : elements? v = some xs)
    (h : v.isWritable = true) (hx : x ∈ xs) : x.isWritable = true := by
  rcases elements?_eq_some he with rfl | rfl <;> exact isWritable_of_mem_components h hx

/-- An entry of a converted object is a field that is there, or an entry that is not declared. -/
theorem mem_assembled {fields : FieldMap} {es : Entries} {own : String × FieldTarget → Value}
    {other : Value × Value → Value} {e' : Value × Value}
    (h : e' ∈ assembled fields es (fields.map own) ((undeclared fields es).map other)) :
    (∃ f ∈ fields, own f ≠ .missing ∧ e' = (.text f.2.name, own f)) ∨
      ∃ e ∈ es, e ∈ undeclared fields es ∧ e' = (e.1, other e) := by
  rw [assembled, List.zip_map'] at h
  rcases List.mem_append.mp h with h | h
  · obtain ⟨p, hp, hm, rfl⟩ := mem_written.mp h
    rw [FieldMap.targets, List.zip_map'] at hp
    obtain ⟨f, hf, rfl⟩ := List.mem_map.mp hp
    exact Or.inl ⟨f, hf, hm, rfl⟩
  · obtain ⟨e, he, rfl⟩ := List.mem_map.mp h
    exact Or.inr ⟨e, (List.mem_filter.mp he).1, he, rfl⟩

/-! ## Properties that are kept -/

/-- A property of values that is passed on to elements and entries, the keys having one of their
own, and that lists and maps have if all their parts have it. -/
structure Inherited (D K : Value → Prop) : Prop where
  element : ∀ {v xs}, elements? v = some xs → D v → ∀ x ∈ xs, D x
  entry : ∀ {es : Entries}, D (.map es) → ∀ e ∈ es, K e.1 ∧ D e.2
  name : ∀ s, K (.text s)
  list : ∀ {xs}, (∀ x ∈ xs, D x) → D (.list xs)
  ofEntries : ∀ {es : Entries}, (∀ e ∈ es, K e.1 ∧ D e.2) → D (ofEntries es)

/-- What a value hands down to its parts is kept, if the shapes without parts keep it. -/
theorem Inherited.of_verdict {D K : Value → Prop} {Q : Shape → Prop} (hD : Inherited D K)
    (ht : table.Everywhere Q)
    (leaf : ∀ {v s y}, Q s → leaf? direction v s = some y → D v → D y) {n : Nat} {v y : Value}
    {s : Shape} (hs : s.Everywhere Q) (h : verdict table direction n v s = .ok y) (hv : D v) :
    D y := by
  -- Fields that are not there are `missing` and stay so.
  have key : (D v → D y) ∧ (v = .missing → y = .missing) := by
    refine verdict_related_of_everywhere (P := fun v y => (D v → D y) ∧
      (v = .missing → y = .missing)) ht ?_ ?_ ?_ hs h
    · intro v s y hs h
      refine ⟨leaf hs h, fun hm => ?_⟩
      rcases leaf?_eq_some h with rfl | ⟨-, m, hmoment, -⟩
      · exact hm
      · rw [hm] at hmoment
        cases hmoment
    · intro v xs f he hf
      refine ⟨fun hv => hD.list fun y hy => ?_, ?_⟩
      · obtain ⟨x, hx, rfl⟩ := List.mem_map.mp hy
        exact (hf x hx).1 (hD.element he hv x hx)
      · rintro rfl
        cases he
    · intro es fields own other hown hother
      refine ⟨fun hv => hD.ofEntries fun e' he' => ?_, nofun⟩
      rcases mem_assembled he' with ⟨f, hf, hm, rfl⟩ | ⟨e, hmem, he, rfl⟩
      · have hfield : fieldOf es f.1 ≠ .missing := mt (hown f hf).2 hm
        exact ⟨hD.name _, (hown f hf).1 (hD.entry hv _ (mem_of_fieldOf hfield)).2⟩
      · exact ⟨(hD.entry hv e hmem).1, (hother e he).1 (hD.entry hv e hmem).2⟩
  exact key.1 hv

theorem inherited_isWritable : Inherited (·.isWritable = true) (·.isWritable = true) where
  element he hv _ hx := isWritable_of_mem_elements he hv hx
  entry hv _ he := ⟨isWritable_of_mem_components hv (key_mem_components he),
    isWritable_of_mem_components hv (value_mem_components he)⟩
  name _ := rfl
  list h := areWritable_iff.mpr h
  ofEntries h := isWritable_ofEntries (entriesWritable_iff.mpr h)

theorem isWritable_of_verdict {n : Nat} {v y : Value} {s : Shape}
    (h : verdict table direction n v s = .ok y) (hv : v.isWritable = true) :
    y.isWritable = true := by
  refine inherited_isWritable.of_verdict (Q := fun _ => True) (fun _ _ _ _ => trivial)
    (fun {v s y} _ h hv => ?_) (fun _ _ => trivial) h hv
  rcases leaf?_eq_some h with rfl | ⟨-, m, -, rfl⟩
  · exact hv
  · cases direction <;> rfl

end Conform.Conversion
