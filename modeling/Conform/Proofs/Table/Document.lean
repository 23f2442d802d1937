import Conform.Proofs.Table.Reading
import Conform.Proofs.Table.Related
import Conform.Table.Dump
import Mathlib

/-!
# Documents of tables

A value describes a shape if it is the plain tree of the shape but for the order of keys, and for
fields that are left out where they have their default (`Describes`).

A value that describes a shape is read as it, labels apart and without a problem, for every level
of nesting that the reading takes has been counted beforehand (`readShape_of_describes`).  So a
document that describes the entries of a table gives a table with the same names in the same order
and the same shapes (`ofTree_document`).
-/

namespace Conform

namespace TableDocument

open Value

/-! ## Descriptors -/

/-- Fields as the entries of a map. -/
def entriesOf (fields : List (String × Value)) : Entries := fields.map fun f => (.text f.1, f.2)

/-- The fields that are written for one that may be left out where it has its default. -/
inductive Given (name : String) (v : Value) (isDefault : Prop) : List (String × Value) → Prop
  | written : Given name v isDefault [(name, v)]
  | leftOut (h : isDefault) : Given name v isDefault []

/-- The kinds of shapes that have no fields. -/
def bareKinds : List (String × Shape) :=
  [("date", .date), ("any", .any), ("null", .null), ("absent", .absent), ("never", .never)]

mutual
/-- The value is the tree of the shape, in any order of keys and without some of the defaults. -/
inductive Describes : Value → Shape → Prop
  | bare {kind : String} {s : Shape} {es : Entries} (hkind : (kind, s) ∈ bareKinds)
      (order : es.Perm (entriesOf [("kind", .text kind)])) : Describes (.map es) s
  | primitive (kind : Primitive) {es : Entries}
      (order : es.Perm (entriesOf [("kind", .text "primitive"), ("primitive", .text kind.name)])) :
      Describes (.map es) (.primitive kind)
  | literals (values : List String) {es : Entries}
      (order : es.Perm (entriesOf
        [("kind", .text "literal-set"), ("values", .list (values.map .text))])) :
      Describes (.map es) (.literals values)
  | ref (name : String) {es : Entries}
      (order : es.Perm (entriesOf [("kind", .text "ref"), ("name", .text name)])) :
      Describes (.map es) (.ref name)
  | array {v : Value} {s : Shape} {es : Entries} (items : Describes v s)
      (order : es.Perm (entriesOf [("kind", .text "array"), ("items", v)])) :
      Describes (.map es) (.array s)
  | union {vs : List Value} {ss : List Shape} {es : Entries} (members : List.Forall₂ Describes vs ss)
      (order : es.Perm (entriesOf [("kind", .text "union"), ("members", .list vs)])) :
      Describes (.map es) (.union ss)
  | object (l : Nat) {vs : List Value} {ps : List (Property Shape)} {w : Value} {a : Shape}
      {properties additional : List (String × Value)} {es : Entries}
      (each : List.Forall₂ DescribesField vs ps) (other : Describes w a)
      (hps : Given "properties" (.list vs) (ps = []) properties)
      (ha : Given "additional" w (a = .never) additional)
      (order : es.Perm (entriesOf (("kind", .text "object") :: (properties ++ additional)))) :
      Describes (.map es) (.object l ps a)

/-- The value is the tree of the field, in any order of keys and without some of the defaults. -/
inductive DescribesField : Value → Property Shape → Prop
  | mk {p : Property Shape} {v : Value} {typed remark : List (String × Value)} {es : Entries}
      (shape : Describes v p.shape)
      (htyped : Given "typed_name" (.text p.typed) (p.typed = TypedName.ofSerialized p.serialized)
        typed)
      (hremark : Given "description" ((p.description.map Value.text).getD .null)
        (p.description = none) remark)
      (order : es.Perm (entriesOf
        (("serialized_name", .text p.serialized) :: (typed ++ ("type", v) :: remark)))) :
      DescribesField (.map es) p
end

mutual
theorem describes_dump : ∀ s : Shape, Describes s.dump s
  | .primitive kind => .primitive kind (.refl _)
  | .literals values => .literals values (.refl _)
  | .array s => .array (describes_dump s) (.refl _)
  | .union ss => .union (describes_dumpAll ss) (.refl _)
  | .object l ps a =>
      .object l (describes_dumpProperties ps) (describes_dump a) .written .written (.refl _)
  | .ref name => .ref name (.refl _)
  | .date | .any | .null | .absent | .never => .bare (by decide) (.refl _)

theorem describes_dumpAll : ∀ ss : List Shape, List.Forall₂ Describes (Shape.dumpAll ss) ss
  | [] => .nil
  | s :: ss => .cons (describes_dump s) (describes_dumpAll ss)

theorem describes_dumpProperties : ∀ ps : List (Property Shape),
    List.Forall₂ DescribesField (Shape.dumpProperties ps) ps
  | [] => .nil
  | ⟨_, _, s, _⟩ :: ps =>
      .cons (.mk (describes_dump s) .written .written (.refl _)) (describes_dumpProperties ps)
end

/-! ## Looking up fields -/

section

variable {es : Entries} {fields : List (String × Value)}

theorem get?_of_perm (hn : (fields.map (·.1)).Nodup) (h : es.Perm (entriesOf fields))
    (name : String) : get? es (.text name) = fields.lookup name := by
  have htext : ∀ e ∈ es, ∃ f ∈ fields, e = (.text f.1, f.2) := by
    intro e he
    obtain ⟨f, hf, rfl⟩ := List.mem_map.mp (h.mem_iff.mp he)
    exact ⟨f, hf, rfl⟩
  have hkeys : (es.map (·.1)).Nodup := by
    have hmap : (entriesOf fields).map (·.1) = (fields.map (·.1)).map Value.text := by
      simp [entriesOf]
    rw [(h.map _).nodup_iff, hmap]
    exact hn.map fun _ _ heq => Value.text.inj heq
  have hdistinct : KeysDistinct es := keysDistinct_of_nodup hkeys fun e he => by
    obtain ⟨f, -, rfl⟩ := htext e he
    exact ⟨_, rfl⟩
  cases hl : fields.lookup name with
  | some v =>
      obtain ⟨before, after, rfl, -⟩ := List.lookup_eq_some_iff.mp hl
      exact get?_of_mem hdistinct (h.mem_iff.mpr (List.mem_map.mpr ⟨(name, v), by simp, rfl⟩))
  | none =>
      refine get?_eq_none fun e he heq => ?_
      obtain ⟨f, hf, rfl⟩ := htext e he
      rw [List.lookup_eq_none_iff] at hl
      exact absurd (Value.text.inj heq).symm (by simpa using hl f hf)

theorem reportExtras_of_declared {declared : List String} (location : List Segment)
    (h : ∀ e ∈ es, ∃ name ∈ declared, e.1 = .text name) :
    reportExtras location declared es = pure () := by
  induction es with
  | nil => rfl
  | cons e es ih =>
      obtain ⟨k, v⟩ := e
      obtain ⟨name, hname, rfl⟩ := h _ List.mem_cons_self
      have hcontains : declared.contains name = true := by simpa using hname
      rw [reportExtras]
      simp only [hcontains, if_true]
      exact ih fun e he => h e (List.mem_cons_of_mem _ he)

/-- Entries of declared fields, in whatever order, have no key that is not declared. -/
theorem reportExtras_of_perm {declared : List String} (location : List Segment)
    (h : es.Perm (entriesOf fields)) (hd : fields.map (·.1) ⊆ declared) :
    reportExtras location declared es = pure () := by
  refine reportExtras_of_declared location fun e he => ?_
  obtain ⟨f, hf, rfl⟩ := List.mem_map.mp (h.mem_iff.mp he)
  exact ⟨f.1, hd (List.mem_map_of_mem hf), rfl⟩

theorem height_lt_of_perm (h : es.Perm (entriesOf fields)) {v : Value} (name : String)
    (hv : (name, v) ∈ fields) : v.height < (Value.map es).height :=
  height_lt_of_mem_components (value_mem_components
    (h.mem_iff.mpr (List.mem_map.mpr ⟨(name, v), hv, rfl⟩)))

end

/-! ## Reading without a problem -/

section

variable {α β : Type} {location : List Segment} {es : Entries}
  {read : List Segment → Value → Reading (Option α)}

theorem finish_eq {declared : List String}
    (h : reportExtras location ("kind" :: declared) es = pure ()) (result : Option α) :
    finish location declared es result = pure result := by
  rw [finish, h]
  funext problems
  simp [bind, StateT.bind, get, getThe, MonadStateOf.get, StateT.get, pure, StateT.pure,
    Except.bind, Except.pure]

theorem readField_eq {name : String} {v : Value} {a : α} (hget : get? es (.text name) = some v)
    (h : ∀ location, read location v = pure (some a)) :
    readField read location es name = pure (some a) := by
  rw [readField, hget]
  exact h _

theorem readOptional_eq {name : String} {v : Value} {a default : α}
    (hget : get? es (.text name) = some v) (h : ∀ location, read location v = pure (some a)) :
    readOptional read default location es name = pure (some a) := by
  rw [readOptional, hget]
  exact h _

theorem readOptional_default {name : String} (default : α) (hget : get? es (.text name) = none) :
    readOptional read default location es name = pure (some default) := by
  rw [readOptional, hget]

theorem readEach_eq {vs : List Value} {bs : List β} {f : β → α}
    (h : List.Forall₂ (fun v b => ∀ location, read location v = pure (some (f b))) vs bs) :
    ∀ i, readEach read location i vs = pure (some (bs.map f)) := by
  induction h with
  | nil => exact fun _ => rfl
  | cons hv _ ih =>
      intro i
      simp only [readEach, hv, ih, pure_bind, Option.bind_some, Option.map_some, List.map_cons]

theorem readList_eq {vs : List Value} {bs : List β} {f : β → α}
    (h : List.Forall₂ (fun v b => ∀ location, read location v = pure (some (f b))) vs bs) :
    readList read location (.list vs) = pure (some (bs.map f)) :=
  readEach_eq h 0

theorem readText_text (location : List Segment) (s : String) :
    readText location (.text s) = pure (some s) := rfl

theorem readPrimitive_name (location : List Segment) (kind : Primitive) :
    readPrimitive location (.text kind.name) = pure (some kind) := by
  cases kind <;> rfl

theorem readRemark_eq (location : List Segment) (d : Option String) :
    readRemark location ((d.map Value.text).getD .null) = pure (some d) := by
  cases d <;> rfl

end

/-! ## Reading fields and shapes -/

/-- The names of the fields of a field of an object, with some left out. -/
theorem exists_withTypedName {p : Property Shape} {v : Value} {typed remark : List (String × Value)}
    {es : Entries}
    (htyped : Given "typed_name" (.text p.typed) (p.typed = TypedName.ofSerialized p.serialized)
      typed)
    (hremark : Given "description" ((p.description.map Value.text).getD .null)
      (p.description = none) remark)
    (order : es.Perm (entriesOf
      (("serialized_name", .text p.serialized) :: (typed ++ ("type", v) :: remark)))) :
    ∃ fs, withTypedName es = .ok fs ∧ fs.Perm (entriesOf (("serialized_name", .text p.serialized) ::
      ("typed_name", .text p.typed) :: ("type", v) :: remark)) := by
  cases htyped with
  | written =>
      have hget : get? es (.text "typed_name") = some (.text p.typed) := by
        rw [get?_of_perm _ order]
        · rfl
        · cases hremark <;> simp
      exact ⟨es, by rw [withTypedName, has_eq_isSome_get?, hget]; rfl, order⟩
  | leftOut h =>
      have hnone : get? es (.text "typed_name") = none := by
        rw [get?_of_perm _ order] <;> cases hremark <;> simp [List.lookup]
      have hget : get? es (.text "serialized_name") = some (.text p.serialized) := by
        rw [get?_of_perm _ order]
        · rfl
        · cases hremark <;> simp
      refine ⟨es ++ [(.text "typed_name", .text p.typed)], ?_, ?_⟩
      · rw [withTypedName, has_eq_isSome_get?, hnone, hget, h]
        rfl
      · refine (order.append_right _).trans ?_
        refine List.Perm.cons _ ?_
        exact List.perm_append_singleton _ _

theorem readProperty_of_describes {read : List Segment → Value → Reading (Option Shape)} {v : Value}
    {p : Property Shape} (h : DescribesField v p)
    (hread : ∀ w, w.height < v.height → Describes w p.shape → ∀ location,
      read location w = pure (some p.shape.unlabelled)) (location : List Segment) :
    readProperty read location v = pure (some (Shape.unlabelledField p)) := by
  cases h with
  | @mk p w typed remark es shape htyped hremark order =>
      obtain ⟨fs, hfs, hperm⟩ := exists_withTypedName htyped hremark order
      have hn : ((("serialized_name", Value.text p.serialized) ::
          ("typed_name", .text p.typed) :: ("type", w) :: remark).map (·.1)).Nodup := by
        cases hremark <;> simp
      have hget := get?_of_perm hn hperm
      have hshape := hread w (height_lt_of_perm order "type" (by simp)) shape
      have hdescription : readOptional readRemark none location fs "description" =
          pure (some p.description) := by
        cases hremark with
        | written => exact readOptional_eq (hget _) (readRemark_eq · p.description)
        | leftOut h => rw [h]; exact readOptional_default none (hget _)
      have hextras : reportExtras location
          ["serialized_name", "typed_name", "type", "description"] fs = pure () := by
        refine reportExtras_of_perm location hperm ?_
        cases hremark <;> simp
      have hlift : (liftM (withTypedName es) : Reading Entries) = pure fs := by
        rw [hfs]
        rfl
      rw [readProperty, hlift, pure_bind, readField_eq (hget _) (readText_text · p.serialized),
        pure_bind, readField_eq (hget _) (readText_text · p.typed), pure_bind,
        readField_eq (hget _) hshape, pure_bind, hdescription, pure_bind, hextras]
      funext problems
      simp [bind, StateT.bind, get, getThe, MonadStateOf.get, StateT.get, pure, StateT.pure,
        Except.bind, Except.pure, Shape.unlabelledField]

/-! ### One lemma for each kind of shape -/

section

variable {n : Nat} {es : Entries}

theorem readShape_bare {kind : String} {s : Shape} (hkind : (kind, s) ∈ bareKinds)
    (order : es.Perm (entriesOf [("kind", .text kind)])) (location : List Segment) :
    readShape (n + 1) location (.map es) = pure (some s) := by
  have hget : get? es (.text "kind") = _ := get?_of_perm (by simp) order "kind"
  have hextras := fun location => reportExtras_of_perm location order (List.Subset.refl ["kind"])
  simp only [bareKinds, List.mem_cons, List.not_mem_nil, or_false, Prod.mk.injEq] at hkind
  rcases hkind with ⟨rfl, rfl⟩ | ⟨rfl, rfl⟩ | ⟨rfl, rfl⟩ | ⟨rfl, rfl⟩ | ⟨rfl, rfl⟩ <;>
    (simp only [readShape, hget, List.lookup, beq_self_eq_true]; exact finish_eq (hextras _) _)

theorem readShape_primitive (kind : Primitive)
    (order : es.Perm (entriesOf [("kind", .text "primitive"), ("primitive", .text kind.name)]))
    (location : List Segment) :
    readShape (n + 1) location (.map es) = pure (some (.primitive kind)) := by
  have hget := get?_of_perm (by simp) order
  simp only [readShape, hget "kind", List.lookup, beq_self_eq_true]
  rw [readField_eq (hget _) (readPrimitive_name · kind), pure_bind,
    finish_eq (reportExtras_of_perm _ order (by simp))]
  rfl

theorem readShape_literals (values : List String)
    (order : es.Perm (entriesOf
      [("kind", .text "literal-set"), ("values", .list (values.map .text))]))
    (location : List Segment) :
    readShape (n + 1) location (.map es) = pure (some (.literals values)) := by
  have hget := get?_of_perm (by simp) order
  have htexts : List.Forall₂ (fun v s => ∀ location, readText location v = pure (some (id s)))
      (values.map Value.text) values := by
    rw [List.forall₂_map_left_iff, List.forall₂_same]
    exact fun s _ location => readText_text location s
  simp only [readShape, hget "kind", List.lookup, beq_self_eq_true]
  rw [readField_eq (hget _) fun _ => readList_eq htexts, pure_bind,
    finish_eq (reportExtras_of_perm _ order (by simp)), List.map_id]
  rfl

theorem readShape_ref (name : String)
    (order : es.Perm (entriesOf [("kind", .text "ref"), ("name", .text name)]))
    (location : List Segment) :
    readShape (n + 1) location (.map es) = pure (some (.ref name)) := by
  have hget := get?_of_perm (by simp) order
  simp only [readShape, hget "kind", List.lookup, beq_self_eq_true]
  rw [readField_eq (hget _) (readText_text · name), pure_bind,
    finish_eq (reportExtras_of_perm _ order (by simp))]
  rfl

theorem readShape_array {v : Value} {s : Shape}
    (order : es.Perm (entriesOf [("kind", .text "array"), ("items", v)]))
    (hitems : ∀ location, readShape n location v = pure (some s)) (location : List Segment) :
    readShape (n + 1) location (.map es) = pure (some (.array s)) := by
  have hget := get?_of_perm (by simp) order
  simp only [readShape, hget "kind", List.lookup, beq_self_eq_true]
  rw [readField_eq (hget _) hitems, pure_bind, finish_eq (reportExtras_of_perm _ order (by simp))]
  rfl

theorem readShape_union {vs : List Value} {ss : List Shape}
    (order : es.Perm (entriesOf [("kind", .text "union"), ("members", .list vs)]))
    (hmembers : List.Forall₂
      (fun w c => ∀ location, readShape n location w = pure (some c.unlabelled)) vs ss)
    (location : List Segment) :
    readShape (n + 1) location (.map es) = pure (some (.union (ss.map Shape.unlabelled))) := by
  have hget := get?_of_perm (by simp) order
  simp only [readShape, hget "kind", List.lookup, beq_self_eq_true]
  rw [readField_eq (hget _) fun _ => readList_eq hmembers, pure_bind,
    finish_eq (reportExtras_of_perm _ order (by simp))]
  rfl

/-- The map of an object is read as the object that its fields make, or it has the problem that they
make none. -/
theorem readShape_fields {vs : List Value} {ps : List (Property Shape)} {w : Value} {a : Shape}
    {properties additional : List (String × Value)}
    (hps : Given "properties" (.list vs) (ps = []) properties)
    (ha : Given "additional" w (a = .never) additional)
    (order : es.Perm (entriesOf (("kind", .text "object") :: (properties ++ additional))))
    (heach : List.Forall₂ (fun v p => ∀ location, readProperty (readShape n) location v =
      pure (some (Shape.unlabelledField p))) vs ps)
    (hother : ("additional", w) ∈ additional →
      ∀ location, readShape n location w = pure (some a.unlabelled)) (location : List Segment) :
    readShape (n + 1) location (.map es) =
      match Shape.object? 0 (ps.map Shape.unlabelledField) a.unlabelled with
      | .ok shape => pure (some shape)
      | .error repeated => report (location ++ [.key "object"]) (.repeatedName repeated) := by
  have hget := get?_of_perm (by cases hps <;> cases ha <;> simp) order
  have hproperties : ∀ location, readOptional (readList (readProperty (readShape n))) [] location es
      "properties" = pure (some (ps.map Shape.unlabelledField)) := by
    intro location
    cases hps with
    | written => exact readOptional_eq (hget _) fun _ => readList_eq heach
    | leftOut h =>
        rw [h]
        exact readOptional_default [] (by rw [hget]; cases ha <;> rfl)
  have hadditional : ∀ location, readOptional (readShape n) .never location es "additional" =
      pure (some a.unlabelled) := by
    intro location
    cases ha with
    | written =>
        exact readOptional_eq (by rw [hget]; cases hps <;> rfl) (hother List.mem_cons_self)
    | leftOut h =>
        rw [h]
        exact readOptional_default Shape.never (by rw [hget]; cases hps <;> rfl)
  have hextras : ∀ location, reportExtras location ["kind", "properties", "additional"] es =
      pure () := by
    refine fun location => reportExtras_of_perm location order ?_
    cases hps <;> cases ha <;> simp
  simp only [readShape, hget "kind", List.lookup, beq_self_eq_true]
  rw [hproperties, pure_bind, hadditional, pure_bind, finish_eq (hextras _)]
  rfl

end

/-- What describes an object is read as the object that its fields make, or it has the problem that
they make none, if the shapes in the object are read. -/
theorem readShape_object_of_describes {n l : Nat} {ps : List (Property Shape)} {a : Shape} {v : Value}
    (h : Describes v (.object l ps a))
    (hchildren : ∀ {w : Value} {c : Shape}, w.height < v.height → Describes w c →
      c ∈ (Shape.object l ps a).children →
        ∀ location, readShape n location w = pure (some c.unlabelled)) (location : List Segment) :
    readShape (n + 1) location v =
      match Shape.object? 0 (ps.map Shape.unlabelledField) a.unlabelled with
      | .ok shape => pure (some shape)
      | .error repeated => report (location ++ [.key "object"]) (.repeatedName repeated) := by
  cases h with
  | bare hkind => simp [bareKinds] at hkind
  | @object _ vs _ w _ properties additional es each other hps ha order =>
      refine readShape_fields hps ha order (UpToOrder.forall₂_imp_of_mem each ?_) ?_ location
      · intro u hu p hp hd
        have hlt : u.height < (Value.map es).height := by
          cases hps with
          | written =>
              have hlist : (Value.list vs).height < (Value.map es).height :=
                height_lt_of_perm order "properties" (by simp)
              exact Nat.lt_trans (height_lt_of_mem_components (v := .list vs) hu) hlist
          | leftOut h =>
              subst h
              cases hp
        refine readProperty_of_describes hd fun x hx hd => hchildren (Nat.lt_trans hx hlt) hd ?_
        exact List.mem_append_left _ (List.mem_map_of_mem hp)
      · intro hw
        exact hchildren (height_lt_of_perm order "additional" (by simp [hw])) other
          (List.mem_append_right _ List.mem_cons_self)

/-- What describes a shape, in whose objects all names are distinct, is read as the shape without
labels. -/
theorem readShape_of_describes : ∀ (n : Nat) {v : Value} {s : Shape}, Describes v s →
    s.Everywhere Shape.NamesDistinct → v.height < n →
      ∀ location, readShape n location v = pure (some s.unlabelled)
  | 0, _, _, _, _, h => absurd h (Nat.not_lt_zero _)
  | n + 1, v, s, h, hs, hheight => by
      intro location
      -- Children of the shape are described by values that are less high.
      have ih : ∀ {w : Value} {c : Shape}, w.height < v.height → Describes w c → c ∈ s.children →
          ∀ location, readShape n location w = pure (some c.unlabelled) :=
        fun hw hd hc => readShape_of_describes n hd (hs.child hc) (by omega)
      cases h with
      | bare hkind order =>
          rw [readShape_bare hkind order]
          simp only [bareKinds, List.mem_cons, List.not_mem_nil, or_false, Prod.mk.injEq] at hkind
          rcases hkind with ⟨-, rfl⟩ | ⟨-, rfl⟩ | ⟨-, rfl⟩ | ⟨-, rfl⟩ | ⟨-, rfl⟩ <;> rfl
      | primitive kind order => exact readShape_primitive kind order location
      | literals values order => exact readShape_literals values order location
      | ref name order => exact readShape_ref name order location
      | @array w c es items order =>
          have hlt : w.height < (Value.map es).height := height_lt_of_perm order "items" (by simp)
          exact readShape_array order (ih hlt items List.mem_cons_self) location
      | @union vs ss es members order =>
          have hlt : (Value.list vs).height < (Value.map es).height :=
            height_lt_of_perm order "members" (by simp)
          rw [Shape.unlabelled_union]
          refine readShape_union order (UpToOrder.forall₂_imp_of_mem members ?_) location
          intro w hw c hc hd
          exact ih (Nat.lt_trans (height_lt_of_mem_components (v := .list vs) hw) hlt) hd hc
      | @object l vs ps w a properties additional es each other hps ha order =>
          rw [readShape_object_of_describes (.object l each other hps ha order) ih, Shape.object?,
            Shape.repeatedName?_unlabelledField, show Shape.repeatedName? ps = none from hs.here,
            Shape.unlabelled_object]

/-! ## Tables -/

/-- The entry describes a named shape under its name. -/
def DescribesEntry (e : Value × Value) (f : String × Shape) : Prop :=
  e.1 = .text f.1 ∧ Describes e.2 f.2

/-- The value is a document of these named shapes, in their order. -/
inductive Documents : Value → NamedShapes → Prop
  | mk {entries : Entries} {fs : NamedShapes} (each : List.Forall₂ DescribesEntry entries fs) :
      Documents (.map [(.text "types", .map entries)]) fs

/-- The document that has every field of every shape. -/
def dumpTable (fs : NamedShapes) : Value :=
  .map [(.text "types", .map (fs.map fun f => (.text f.1, f.2.dump)))]

theorem documents_dumpTable (fs : NamedShapes) : Documents (dumpTable fs) fs := by
  refine .mk ?_
  rw [List.forall₂_map_left_iff, List.forall₂_same]
  exact fun f _ => ⟨rfl, describes_dump f.2⟩

theorem readTypes_of_describes {levels : Nat} {entries : Entries} {fs : NamedShapes}
    (h : List.Forall₂ DescribesEntry entries fs) (location : List Segment)
    (hfs : ∀ f ∈ fs, f.2.Everywhere Shape.NamesDistinct)
    (hheight : ∀ e ∈ entries, e.2.height < levels) :
    readTypes levels location entries =
      pure (some (fs.map fun f => (f.1, f.2.unlabelled))) := by
  induction h with
  | nil => rfl
  | @cons e f entries fs he _ ih =>
      obtain ⟨k, v⟩ := e
      obtain ⟨rfl, hv⟩ := he
      have htail := ih (fun f hf => hfs f (List.mem_cons_of_mem _ hf))
        fun e he => hheight e (List.mem_cons_of_mem _ he)
      have hshape := readShape_of_describes levels hv (hfs f List.mem_cons_self)
        (hheight _ List.mem_cons_self)
      simp only [readTypes, readText_text, hshape, htail, pure_bind, Option.bind_some,
        Option.map_some, List.map_cons]

theorem readDocument_of_describes {entries : Entries} {fs : NamedShapes}
    (h : List.Forall₂ DescribesEntry entries fs)
    (hfs : ∀ f ∈ fs, f.2.Everywhere Shape.NamesDistinct) :
    readDocument [(.text "types", .map entries)] =
      pure (some (fs.map fun f => (f.1, f.2.unlabelled))) := by
  have hheight : ∀ e ∈ entries, e.2.height <
      (Value.map [(.text "types", .map entries)]).height + 1 := by
    intro e he
    have hentry := height_lt_of_mem_components (value_mem_components he)
    have htypes : (Value.map entries).height < (Value.map [(.text "types", .map entries)]).height :=
      height_lt_of_mem_components (value_mem_components (e := (.text "types", .map entries))
        List.mem_cons_self)
    omega
  have hread := readTypes_of_describes h [.key "types"] hfs hheight
  have hextras : reportExtras [] ["types"] [(.text "types", .map entries)] = pure () :=
    reportExtras_of_declared [] (by simp)
  rw [readDocument, readField, get?_cons_self]
  simp only [List.nil_append, hread, hextras, pure_bind]

/-- Named shapes whose labels are taken away are labelled anew: only labels change. -/
theorem related_labelAll (fs : NamedShapes) : ∀ n, NamedShapes.Related Shape.SameUpToLabels fs
    (labelAll n (fs.map fun f => (f.1, f.2.unlabelled))) := by
  induction fs with
  | nil => exact fun _ => .nil
  | cons f fs ih =>
      intro n
      refine .cons ⟨rfl, ?_⟩ (ih _)
      exact f.2.sameUpToLabels_unlabelled.trans (Shape.sameUpToLabels_label _ n)

end TableDocument

namespace Table

/-- The same names in the same order, with the same shapes but for labels. -/
def SameUpToLabels (t t' : Table) : Prop :=
  NamedShapes.Related Shape.SameUpToLabels t.entries t'.entries

/-- Named shapes that differ from those of a table in labels only make a table. -/
theorem exists_build_of_related (t : Table) {fs : NamedShapes}
    (h : NamedShapes.Related Shape.SameUpToLabels t.entries fs) :
    ∃ t', build fs = .ok t' ∧ t.SameUpToLabels t' := by
  have hrefs : ∀ s s', Shape.SameUpToLabels s s' → s'.references ⊆ s.references := by
    intro s s' hs
    rw [hs.references_eq]
    exact List.Subset.refl _
  have hbare : ∀ s name, Shape.SameUpToLabels s (.ref name) → s = .ref name :=
    fun _ _ hs => hs.eq_ref
  let t' : Table :=
    ⟨fs, h.names_eq ▸ t.distinct, h.closed hrefs t.closed, h.grounded hbare t.grounded⟩
  exact ⟨t', build_entries t', h⟩

open TableDocument in
/-- A document of a table, such as the one that has every field of every shape, gives the table
again, if the names in its objects are distinct as they are in what is built or read. -/
theorem ofTree_document (t : Table)
    (ht : t.Everywhere Shape.NamesDistinct ∨ ∃ tree, ofTree tree = .ok t) :
    Documents (dumpTable t.entries) t.entries ∧ ∀ tree, Documents tree t.entries →
      ∃ t', ofTree tree = .ok t' ∧ t.SameUpToLabels t' := by
  refine ⟨documents_dumpTable t.entries, ?_⟩
  rintro _ ⟨each⟩
  have hnames : t.Everywhere Shape.NamesDistinct :=
    ht.elim id fun ⟨_, htree⟩ => namesDistinct_of_ofTree htree
  obtain ⟨t', hbuild, hsame⟩ := exists_build_of_related t (related_labelAll t.entries 0)
  refine ⟨t', ?_, hsame⟩
  rw [ofTree, readDocument_of_describes each hnames]
  show (build (labelAll 0 _)).mapError _ = _
  rw [hbuild]
  rfl

/-- One object with a field whose typed name is derived from its serialized one. -/
def lengths : Table where
  entries := [("Length", .object 3 [⟨"maxLength", "max_length", .primitive .number, none⟩] .never)]
  distinct := by decide
  closed := rfl
  grounded := rfl

open TableDocument in
/-- A document with the keys in another order and without the fields that have their default. -/
theorem ofTree_document_lengths :
    ∃ t, ofTree (.map [(.text "types", .map [(.text "Length", .map [
        (.text "properties", .list [.map [
          (.text "type", .map [(.text "primitive", .text "number"), (.text "kind", .text "primitive")]),
          (.text "serialized_name", .text "maxLength")]]),
        (.text "kind", .text "object")])])]) = .ok t ∧ lengths.SameUpToLabels t := by
  have hnames : lengths.Everywhere Shape.NamesDistinct := by
    simp only [Everywhere, lengths, Shape.Everywhere, Shape.parts, Shape.partsOfProperties,
      List.forall_mem_cons, List.cons_append, List.nil_append, List.append_nil]
    exact ⟨⟨rfl, trivial, trivial, List.forall_mem_nil _⟩, List.forall_mem_nil _⟩
  refine (ofTree_document lengths (Or.inl hnames)).2 _ (.mk (.cons ⟨rfl, ?_⟩ .nil))
  refine .object 3 (.cons ?_ .nil) (describes_dump .never) .written (.leftOut rfl)
    (.swap _ _ _)
  exact .mk (.primitive .number (.swap _ _ _)) (.leftOut (by decide +kernel)) (.leftOut rfl)
    (.swap _ _ _)

end Table

end Conform
