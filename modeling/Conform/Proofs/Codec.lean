import Conform.Codec
import Conform.Proofs.Cache
import Conform.Proofs.Conversion.Verdict
import Conform.Proofs.Table.References

/-!
# What a codec remembers does not show

A codec answers every operation as if it had remembered nothing, whatever it was asked before and
however that went, and what it remembers is the field maps that it would compute afresh
(`performAll_transparent`).

The cache is handed through all parts of a conversion, also through a member of a union that rejects
in the end.  So the conversions come first: each part of `Conversion.convert` yields with the cache
what it gives with field maps computed afresh.
-/

namespace Conform

open Cache

namespace Conversion

section

variable {P : Cache → Prop}

/-! ## Conversions -/

theorem yields_convertItems {step : Nat → Value → StateM Cache Outcome}
    {afresh : Nat → Value → Id Outcome} (h : ∀ i x, Yields P (step i x) (afresh i x).run) :
    ∀ (i : Nat) (xs : List Value), Yields P (convertItems step i xs) (convertItems afresh i xs).run
  | _, [] => .pure _
  | i, x :: xs => by
      rw [convertItems, convertItems]
      refine (h i x).bind_run fun outcome => ?_
      cases outcome with
      | error stop => exact .pure _
      | ok y =>
          refine (yields_convertItems h (i + 1) xs).bind_run fun outcome => ?_
          cases outcome with
          | error stop => exact .pure _
          | ok ys => exact .pure _

/-- Members that reject leave a cache of the same kind to the next one. -/
theorem yields_convertFirst {step : Shape → StateM Cache Outcome} {afresh : Shape → Id Outcome} :
    ∀ {ss : List Shape}, (∀ s ∈ ss, Yields P (step s) (afresh s).run) →
      Yields P (convertFirst step ss) (convertFirst afresh ss).run
  | [], _ => .pure _
  | s :: ss, h => by
      obtain ⟨hs, hss⟩ := List.forall_mem_cons.mp h
      rw [convertFirst, convertFirst]
      refine hs.bind_run fun outcome => ?_
      cases outcome with
      | ok y => exact .pure _
      | error stop =>
          cases stop with
          | rejected r => exact yields_convertFirst hss
          | _ => exact .pure _

theorem yields_convertDeclared {step : Place → Value → Shape → StateM Cache Outcome}
    {afresh : Place → Value → Shape → Id Outcome} (place : Place) (parent : String)
    (es : Value.Entries) : ∀ (done : Value.Entries) {fields : FieldMap},
      (∀ e ∈ fields, ∀ p v, Yields P (step p v e.2.shape) (afresh p v e.2.shape).run) →
      Yields P (convertDeclared step place parent es done fields)
        (convertDeclared afresh place parent es done fields).run
  | _, [], _ => .pure _
  | done, (name, target) :: fields, h => by
      obtain ⟨htarget, hfields⟩ := List.forall_mem_cons.mp h
      have ih := fun done => yields_convertDeclared place parent es done hfields
      rw [convertDeclared, convertDeclared]
      refine (htarget _ _).bind_run fun y => ?_
      split
      · exact .pure _
      · exact ih done
      · exact ih _

theorem yields_convertOthers {step : Place → Value → StateM Cache Outcome}
    {afresh : Place → Value → Id Outcome} (h : ∀ p v, Yields P (step p v) (afresh p v).run)
    (place : Place) (parent : String) (fields : FieldMap) : ∀ done es : Value.Entries,
      Yields P (convertOthers step place parent fields done es)
        (convertOthers afresh place parent fields done es).run
  | _, [] => .pure _
  | done, (key, value) :: es => by
      have ih := fun done => yields_convertOthers h place parent fields done es
      rw [convertOthers, convertOthers]
      split
      · exact ih done
      · cases place.atKey? key parent with
        | none => exact .pure _
        | some inner =>
            refine (h inner value).bind_run fun outcome => ?_
            cases outcome with
            | error stop => exact .pure _
            | ok y => exact ih _

/-- If looking up the field maps of certain objects leaves the kind of a cache as it is, then so
does a conversion that meets such objects only; and it gives what it gives with field maps computed
afresh. -/
theorem yields_convert_of_everywhere {Q : Shape → Prop} {table : Table} {direction : Direction}
    (htable : table.Everywhere Q)
    (hlook : ∀ object : ObjectShape, Q object.shape →
      Yields P (getOrAdd object direction) (FieldMap.ofObject object direction)) :
    ∀ (n : Nat) (via : Option String) (place : Place) (value : Value) {shape : Shape},
      shape.Everywhere Q →
      Yields P (convert getOrAdd table direction n via place value shape)
        (convertAfresh table direction n via place value shape)
  | 0, _, _, _, _, _ => .pure _
  | n + 1, via, place, value, shape, hs => by
      have ih {c : Shape} (hc : c ∈ shape.children) (place : Place) (value : Value) :=
        yields_convert_of_everywhere htable hlook n none place value (hs.child hc)
      rw [convertAfresh]
      cases shape with
      | ref name =>
          simp only [convert]
          cases hg : table.get? name with
          | none => exact .pure _
          | some target =>
              exact yields_convert_of_everywhere htable hlook n (some name) place value
                (htable.of_get? hg)
      | array items =>
          simp only [convert]
          cases value with
          | list xs | tuple xs =>
              exact (yields_convertItems (fun i x => ih List.mem_cons_self (place.atIndex i) x) 0
                xs).bind_run fun ys => .pure _
          | _ => exact .pure _
      | union members =>
          simp only [convert]
          refine (yields_convertFirst fun s hs => ih hs place value).bind_run fun outcome => ?_
          cases outcome with
          | error stop => exact .pure _
          | ok y => cases y <;> exact .pure _
      | object label properties additional =>
          simp only [convert]
          cases value with
          | map es =>
              simp only [pure_bind]
              refine (hlook ⟨label, properties, additional⟩ hs.here).bind ?_
              refine (yields_convertDeclared _ _ es [] fun e he p v =>
                ih (FieldMap.shape_mem_children he) p v).bind_run fun declared => ?_
              cases declared with
              | error stop => exact .pure _
              | ok done =>
                  exact (yields_convertOthers
                    (fun p v => ih (List.mem_append_right _ List.mem_cons_self) p v) _ _ _ done
                    es).bind_run fun whole => .pure _
          | _ => exact .pure _
      | primitive kind =>
          simp only [convert]
          split <;> exact .pure _
      | literals values =>
          simp only [convert]
          cases value with
          | text s =>
              dsimp only
              split <;> exact .pure _
          | _ => exact .pure _
      | null => cases value <;> exact .pure _
      | absent => cases value <;> exact .pure _
      | date =>
          simp only [convert]
          cases value with
          | null => exact .pure _
          | _ =>
              dsimp only
              cases momentOf? _ <;> exact .pure _
      | any => exact .pure _
      | never => exact .pure _

end

/-- A conversion with a faithful cache gives what it gives with field maps computed afresh. -/
theorem yields_convert (table : Table) (direction : Direction) (n : Nat) (via : Option String)
    (place : Place) (value : Value) (shape : Shape) :
    Yields Faithful (convert getOrAdd table direction n via place value shape)
      (convertAfresh table direction n via place value shape) :=
  yields_convert_of_everywhere (Q := fun _ => True) (fun _ _ _ _ => trivial)
    (fun object _ => yields_getOrAdd object direction) n via place value fun _ _ => trivial

end Conversion

namespace Codec

/-! ## Operations -/

/-- The operation is about certain objects, apart from those that the types of the table have. -/
def Operation.Within (R : ObjectShape → Prop) : Operation → Prop
  | .convert _ shape _ => ∀ object : ObjectShape, object.shape ∈ shape.parts → R object
  | .fieldMap _ object => R object
  | _ => True

theorem Operation.within_of_forall {R : ObjectShape → Prop} (h : ∀ object, R object) :
    ∀ op : Operation, op.Within R
  | .convert .. => fun object _ => h object
  | .fieldMap _ object => h object
  | .decode .. | .encode .. | .decodeText .. | .encodeText .. | .warm | .clear => trivial

section

variable {P : Cache → Prop} {R : ObjectShape → Prop} {table : Table}

/-- If looking up the field maps of certain objects, those of the table among them, leaves the kind
of a cache as it is, then a conversion by a shape with no others gives one result from all caches of
the kind, and leaves such a cache, too. -/
theorem exists_yields_runWith
    (htable : ∀ object : ObjectShape, object.shape ∈ table.parts → R object)
    (hlook : ∀ object direction, R object →
      Yields P (getOrAdd object direction) (FieldMap.ofObject object direction))
    (direction : Direction) (v : Value) {shape : Shape}
    (hshape : ∀ object : ObjectShape, object.shape ∈ shape.parts → R object) :
    ∃ a, Yields P (Conversion.runWith getOrAdd table direction v shape) a := by
  let Q : Shape → Prop := fun part => ∀ object : ObjectShape, part = object.shape → R object
  have htable : table.Everywhere Q := fun e he part hpart object hobject =>
    htable object (hobject ▸ List.mem_flatMap.mpr ⟨e, he, hpart⟩)
  have hshape : shape.Everywhere Q := fun part hpart object hobject =>
    hshape object (hobject ▸ hpart)
  exact ⟨_, Conversion.yields_convert_of_everywhere htable
    (fun object hobject => hlook object direction (hobject object rfl)) _ _ _ _ hshape⟩

theorem exists_yields_perform_of_within
    (htable : ∀ object : ObjectShape, object.shape ∈ table.parts → R object)
    (hlook : ∀ object direction, R object →
      Yields P (getOrAdd object direction) (FieldMap.ofObject object direction))
    (hwarm : ∀ c, P c → P (c.warm table)) {op : Operation} (hop : op.Within R)
    (hclear : op = .clear → P Cache.empty) : ∃ a, Yields P (perform table op) a := by
  have hconvertAs (direction : Direction) (type : String) (v : Value) :
      ∃ a, Yields P (convertAs table direction type v) a := by
    rw [convertAs]
    cases table.get? type with
    | none => exact ⟨_, .pure _⟩
    | some s =>
        refine exists_yields_runWith htable hlook direction v fun object hobject => ?_
        cases List.mem_singleton.mp hobject
  cases op with
  | decode type v =>
      obtain ⟨a, h⟩ := hconvertAs .decode type v
      exact ⟨_, h.map _⟩
  | encode type v =>
      obtain ⟨a, h⟩ := hconvertAs .encode type v
      exact ⟨_, h.map _⟩
  | decodeText type format text =>
      rw [perform]
      cases parseText format text with
      | error failure => exact ⟨_, .pure _⟩
      | ok v =>
          obtain ⟨a, h⟩ := hconvertAs .decode type v
          exact ⟨_, h.map _⟩
  | encodeText type indent v =>
      obtain ⟨a, h⟩ := hconvertAs .encode type v
      cases a with
      | error stop => exact ⟨_, h.bind (.pure _)⟩
      | ok tree => exact ⟨_, h.bind (.pure _)⟩
  | convert direction shape v =>
      obtain ⟨a, h⟩ := exists_yields_runWith htable hlook direction v hop
      exact ⟨_, h.map _⟩
  | fieldMap direction object => exact ⟨_, (hlook object direction hop).map _⟩
  | warm => exact ⟨.done, fun c hc => ⟨rfl, hwarm c hc⟩⟩
  | clear => exact ⟨.done, fun _ _ => ⟨rfl, hclear rfl⟩⟩

end

theorem exists_yields_perform (table : Table) (op : Operation) :
    ∃ a, Yields Faithful (perform table op) a :=
  exists_yields_perform_of_within (R := fun _ => True) (fun _ _ => trivial)
    (fun object direction _ => yields_getOrAdd object direction) (fun _ h => h.warm table)
    (op.within_of_forall fun _ => trivial) fun _ => faithful_empty

theorem yields_perform (table : Table) (op : Operation) :
    Yields Faithful (perform table op) (perform table op Cache.empty).1 :=
  .of_exists (exists_yields_perform table op) faithful_empty

/-- Each of any operations answers as it does alone with nothing remembered, and the cache is
faithful after each of them. -/
theorem performAll_transparent (table : Table) (ops : List Operation) :
    (performAll table ops Cache.empty).1 =
        ops.map (fun op => (perform table op Cache.empty).1) ∧
      ∀ n, (performAll table (ops.take n) Cache.empty).2.Faithful := by
  have hall (ops : List Operation) := Yields.mapM (yields_perform table) ops
  exact ⟨(hall ops Cache.empty faithful_empty).1,
    fun n => (hall (ops.take n) Cache.empty faithful_empty).2⟩

end Codec

end Conform
