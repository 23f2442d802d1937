import Conform.Proofs.FieldMap
import Conform.Proofs.Shape.Built
import Conform.Proofs.Table.Document

/-!
# Field maps undo each other

An object is made of any list of fields in which all serialized names are distinct, and all typed
names, too; of another list it is not, and the first name that is repeated is reported.  What this
buys is that no field is written over when the field maps of the object are computed.  Each of them
has one entry for each field, in the order of declaration, and what one of them maps to a name, the
other maps back (`inverse_of_built`).

Shapes come from being made step by step or from table documents.  What is read from a document could
have been made step by step (`built_of_ofText`), and a document that describes an object with a
repeated name has exactly that problem (`ofTree_object`).
-/

namespace Conform

namespace FieldMap

/-- The field maps of an object show its fields and undo each other. -/
structure Inverse (o : ObjectShape) : Prop where
  /-- There is an entry for each field, in the order of declaration. -/
  entries : ∀ d, ofObject o d = o.properties.map (entry d)
  /-- No input name has two entries. -/
  distinct : ∀ d, (ofObject o d).names.Nodup
  /-- Decoding takes a name to another exactly if encoding takes that one back. -/
  lookup_iff : ∀ x y shape, (ofObject o .decode).lookup x = some ⟨y, shape⟩ ↔
    (ofObject o .encode).lookup y = some ⟨x, shape⟩

theorem lookup_eq_some_iff {fields : FieldMap} (h : fields.names.Nodup) {name : String}
    {target : FieldTarget} : fields.lookup name = some target ↔ (name, target) ∈ fields := by
  rw [List.lookup_eq_some_iff]
  constructor
  · rintro ⟨before, after, rfl, -⟩
    exact List.mem_append_right _ List.mem_cons_self
  · intro hm
    obtain ⟨before, after, rfl⟩ := List.append_of_mem hm
    refine ⟨before, after, rfl, fun e he => ?_⟩
    rw [names, List.map_append] at h
    have hne := (List.nodup_append.mp h).2.2 e.1 (List.mem_map_of_mem he) name List.mem_cons_self
    simpa using Ne.symm hne

theorem mem_ofObject_iff {o : ObjectShape} (h : Shape.repeatedName? o.properties = none)
    {d : Direction} {x y : String} {shape : Shape} :
    (x, ⟨y, shape⟩) ∈ ofObject o d ↔ ∃ p ∈ o.properties,
      Shape.nameIn d.source p = x ∧ Shape.nameIn d.target p = y ∧ p.shape = shape := by
  simp only [ofObject_eq_map h, List.mem_map, entry_eq, Prod.mk.injEq, FieldTarget.mk.injEq]

theorem inverse_of_distinct {o : ObjectShape} (h : Shape.repeatedName? o.properties = none) :
    Inverse o := by
  have hnames (d : Direction) : (ofObject o d).names.Nodup := by
    rw [names_ofObject h]
    exact Shape.repeatedName?_eq_none_iff.mp h d.source
  refine ⟨ofObject_eq_map h, hnames, fun x y shape => ?_⟩
  rw [lookup_eq_some_iff (hnames .decode), lookup_eq_some_iff (hnames .encode),
    mem_ofObject_iff h, mem_ofObject_iff h]
  -- The two sides name the source and the target of a field the other way round.
  exact exists_congr fun p => and_congr_right fun _ => and_left_comm

end FieldMap

/-! ## Table documents -/

namespace Table

open TableDocument Value

theorem built_of_ofTree {tree : Value} {t : Table} (h : ofTree tree = .ok t)
    {e : String × Shape} (he : e ∈ t.entries) : e.2.Built :=
  Shape.built_iff.mpr (namesDistinct_of_ofTree h e he)

theorem built_of_ofText {text : String} {t : Table} (h : ofText text = .ok t)
    {e : String × Shape} (he : e ∈ t.entries) : e.2.Built := by
  rw [ofText] at h
  cases hparse : Yaml.parse text.toList with
  | error fault =>
      rw [hparse] at h
      cases h
  | ok tree =>
      rw [hparse] at h
      exact built_of_ofTree h he

def documentOf (name : String) (descriptor : Value) : Value :=
  .map [(.text "types", .map [(.text name, descriptor)])]

theorem readDocument_single (name : String) (v : Value) :
    readDocument [(.text "types", .map [(.text name, v)])] = do
      let shape ← readShape ((documentOf name v).height + 1) [.key "types", .key name] v
      return shape.map fun s => [(name, s)] := by
  have hextras : reportExtras [] ["types"] [(.text "types", .map [(.text name, v)])] = pure () :=
    reportExtras_of_declared [] (by simp)
  rw [readDocument, readField, get?_cons_self]
  simp only [List.nil_append, readTypes, readText_text, hextras, pure_bind, bind_assoc,
    Option.bind_some, Option.map_eq_bind]
  rfl

/-- A document that describes one object of well-made parts has a problem exactly if the object
cannot be made, and then that of the repeated name. -/
theorem ofTree_object {l : Nat} {ps : List (Property Shape)} {a : Shape} {v : Value}
    (hv : Describes v (.object l ps a)) (hparts : ∀ c ∈ (Shape.object l ps a).children, c.Built)
    (name : String) :
    ofTree (documentOf name v) =
      match Shape.object? l ps a with
      | .ok shape => (build (labelAll 0 [(name, shape.unlabelled)])).mapError .table
      | .error repeated => .error (.invalid
          [⟨[.key "types", .key name, .key "object"], .repeatedName repeated⟩]) := by
  have htypes : (Value.map [(.text name, v)]).height < (documentOf name v).height :=
    height_lt_of_mem_components (value_mem_components (e := (.text "types", _)) List.mem_cons_self)
  have hentry : v.height < (Value.map [(.text name, v)]).height :=
    height_lt_of_mem_components (value_mem_components (e := (.text name, v)) List.mem_cons_self)
  have hread := readShape_object_of_describes (n := (documentOf name v).height) hv
    (fun hw hd hc => readShape_of_describes _ hd (Shape.built_iff.mp (hparts _ hc)) (by omega))
    [.key "types", .key name]
  rw [documentOf, ofTree, readDocument_single, hread, Shape.object?, Shape.object?,
    Shape.repeatedName?_unlabelledField]
  cases Shape.repeatedName? ps with
  | some repeated => rfl
  | none =>
      rw [← Shape.unlabelled_object l]
      rfl

end Table

namespace FieldMap

open TableDocument
open Shape (FirstRepeated object?)

/-- An object is made exactly if all serialized names of its fields are distinct and all typed names
are; otherwise the first repeated serialized name is reported, or, if none is repeated, the first
repeated typed one.  The objects in what is made, and in what is read from a table document, have
field maps that undo each other, each with one entry for each field in the order of declaration.  A
document that describes an object with a repeated name has the same problem. -/
theorem inverse_of_built :
    (∀ l ps a,
      ((∃ s, object? l ps a = .ok s) ↔
        (ps.map (·.serialized)).Nodup ∧ (ps.map (·.typed)).Nodup) ∧
      (∀ name, object? l ps a = .error ⟨.serialized, name⟩ ↔
        FirstRepeated (ps.map (·.serialized)) name) ∧
      (∀ name, object? l ps a = .error ⟨.typed, name⟩ ↔
        (ps.map (·.serialized)).Nodup ∧ FirstRepeated (ps.map (·.typed)) name)) ∧
    (∀ s : Shape, s.Built → ∀ o ∈ s.objects, Inverse o) ∧
    (∀ text t, Table.ofText text = .ok t → ∀ e ∈ t.entries, ∀ o ∈ e.2.objects, Inverse o) ∧
    (∀ l ps a v name repeated, Describes v (.object l ps a) →
      (∀ c ∈ (Shape.object l ps a).children, c.Built) → object? l ps a = .error repeated →
        Table.ofTree (Table.documentOf name v) = .error (.invalid
          [⟨[.key "types", .key name, .key "object"], .repeatedName repeated⟩])) := by
  refine ⟨fun l ps a => ⟨?_, fun name => ?_, fun name => ?_⟩, fun s hs o ho => ?_,
    fun text t ht e he o ho => ?_, fun l ps a v name repeated hv hparts hrepeated => ?_⟩
  · exact Shape.exists_object?_iff
  · rw [Shape.object?_eq_error_iff]
    exact and_iff_left nofun
  · rw [Shape.object?_eq_error_iff]
    exact ⟨fun ⟨h, hn⟩ => ⟨hn rfl, h⟩, fun ⟨hn, h⟩ => ⟨h, fun _ => hn⟩⟩
  · exact inverse_of_distinct (hs.repeatedName?_eq_none ho)
  · exact inverse_of_distinct ((Table.built_of_ofText ht he).repeatedName?_eq_none ho)
  · rw [Table.ofTree_object hv hparts, hrepeated]

/-- Fields whose typed names are derived. -/
def derived (names : List String) : List (Property Shape) :=
  names.map fun name => ⟨name, TypedName.ofSerialized name, .any, none⟩

/-- The descriptor of an object with two such fields, whose typed names are left out. -/
def derivedDescriptor (x y : String) : Value :=
  .map (entriesOf [("kind", .text "object"), ("properties", .list [
    .map (entriesOf [("serialized_name", .text x), ("type", Shape.any.dump)]),
    .map (entriesOf [("serialized_name", .text y), ("type", Shape.any.dump)])])])

theorem describes_derived (x y : String) :
    Describes (derivedDescriptor x y) (.object 0 (derived [x, y]) .never) := by
  have hfield (name : String) : DescribesField
      (.map (entriesOf [("serialized_name", .text name), ("type", Shape.any.dump)]))
      ⟨name, TypedName.ofSerialized name, .any, none⟩ :=
    .mk (describes_dump .any) (.leftOut rfl) (.leftOut rfl) (.refl _)
  exact .object 0 (.cons (hfield x) (.cons (hfield y) .nil)) (describes_dump .never) .written
    (.leftOut rfl) (.refl _)

/-- Different serialized names may have the same typed name derived from them, and then there is no
object; two fields in an array that swap their names make one. -/
theorem inverse_of_built_derived :
    object? 0 (derived ["maxLength", "max_length"]) .never = .error ⟨.typed, "max_length"⟩ ∧
    Table.ofTree (Table.documentOf "Length" (derivedDescriptor "maxLength" "max_length")) =
      .error (.invalid [⟨[.key "types", .key "Length", .key "object"],
        .repeatedName ⟨.typed, "max_length"⟩⟩]) ∧
    Inverse ⟨0, [⟨"from", "to", .any, none⟩, ⟨"to", "from", .null, none⟩], .never⟩ := by
  have hrepeated : object? 0 (derived ["maxLength", "max_length"]) .never =
      .error ⟨.typed, "max_length"⟩ := by
    refine ((inverse_of_built.1 0 _ .never).2.2 "max_length").mpr ⟨by decide, ?_⟩
    exact ⟨["max_length"], [], by decide +kernel, by decide, by decide⟩
  have hparts : ∀ c ∈ (Shape.object 0 (derived ["maxLength", "max_length"]) .never).children,
      c.Built := by
    simp [Shape.children, derived, Shape.Built.any, Shape.Built.never]
  have hswapped : (Shape.array (.object 0
      [⟨"from", "to", .any, none⟩, ⟨"to", "from", .null, none⟩] .never)).Built := by
    refine .array (.object ?_ .never (Shape.object?_eq_ok_iff.mpr
      ⟨rfl, Shape.repeatedName?_eq_none_iff.mp (by decide)⟩))
    simp [Shape.Built.any, Shape.Built.null]
  exact ⟨hrepeated, inverse_of_built.2.2.2 0 _ .never _ "Length" _ (describes_derived _ _) hparts
    hrepeated, inverse_of_built.2.1 _ hswapped _ (by decide)⟩

end FieldMap

end Conform
