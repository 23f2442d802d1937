import Conform.Proofs.Conversion.Conformance
import Conform.Proofs.Outcome
import Conform.Proofs.Shape.Unlabelled
import Conform.Proofs.Table.Build
import Conform.Proofs.Value.Nesting
import Conform.Table.Document

/-!
# What reading a table document comes to

A reading `Meets` a condition on its results and one on the faults that end it, whatever problems
were noted before.  Conditions are passed on from the parts of a reading to the whole
(`Runs.bind`), so each function of the reader gets one lemma, and the shapes are gone through once,
level by level (`meets_readShape`).

Two facts come out of that.  In a shape that is read the names of every object are distinct.  And
the reading is ended only by a field of an object that has no typed name, and whose serialized name
is no text (`NamesText`).
-/

namespace Conform

namespace TableDocument

open Value

variable {α β : Type}

/-- The reading ends in a result with the one property or a fault with the other, whatever problems
were noted before. -/
abbrev Meets (r : Reading α) (P : α → Prop) (Q : NameFault → Prop) : Prop :=
  Runs (fun _ => True) r P Q

/-- Something holds of the result if there is one. -/
def IfAny (P : α → Prop) (result : Option α) : Prop := ∀ a, result = some a → P a

variable {P : α → Prop} {Q : NameFault → Prop}

namespace Meets

theorem none : Meets (Pure.pure Option.none) (IfAny P) Q := .pure nofun

theorem some {a : α} (h : P a) : Meets (Pure.pure (Option.some a)) (IfAny P) Q :=
  .pure fun _ ha => Option.some.inj ha ▸ h

end Meets

/-! ## The parts of a reader -/

theorem meets_report (location : List Segment) (kind : ProblemKind) :
    Meets (report location kind) (IfAny P) Q :=
  fun _ _ => ⟨nofun, trivial⟩

theorem meets_get : Meets (get : Reading (List Problem)) (fun _ => True) Q := .get

theorem meets_reportExtras (location : List Segment) (declared : List String) (es : Entries) :
    Meets (reportExtras location declared es) (fun _ => True) Q := by
  induction es with
  | nil => exact .pure trivial
  | cons e es ih =>
      obtain ⟨k, v⟩ := e
      cases k with
      | text s =>
          simp only [reportExtras]
          split
          · exact ih
          · exact (meets_report (P := fun _ => True) _ _).bind fun _ _ => ih
      | _ =>
          simp only [reportExtras]
          exact (meets_report (P := fun _ => True) _ _).bind fun _ _ => ih

theorem meets_readText (location : List Segment) (v : Value) :
    Meets (readText location v) (fun _ => True) Q := by
  unfold readText
  split
  · exact .pure trivial
  · split
    · exact .pure trivial
    · exact (meets_report (P := fun _ => True) _ _).imp fun _ _ => trivial
  · exact (meets_report (P := fun _ => True) _ _).imp fun _ _ => trivial

theorem meets_finish {location : List Segment} {declared : List String} {es : Entries}
    {result : Option α} (h : IfAny P result) :
    Meets (finish location declared es result) (IfAny P) Q := by
  refine meets_get.bind fun _ _ => (meets_reportExtras _ _ _).bind fun _ _ =>
    meets_get.bind fun _ _ => .pure ?_
  split
  · exact h
  · exact nofun

section

variable {read : List Segment → Value → Reading (Option α)} {location : List Segment}

theorem meets_readEach : ∀ {vs : List Value} (i : Nat),
    (∀ v ∈ vs, ∀ location, Meets (read location v) (IfAny P) Q) →
      Meets (readEach read location i vs) (IfAny fun as => ∀ a ∈ as, P a) Q
  | [], _, _ => .some nofun
  | v :: vs, i, h => by
      rw [readEach]
      refine (h v List.mem_cons_self _).bind fun head hhead =>
        (meets_readEach (i + 1) fun w hw => h w (List.mem_cons_of_mem v hw)).bind
          fun tail htail => .pure ?_
      intro as has
      obtain ⟨a, rfl, has⟩ := Option.bind_eq_some_iff.mp has
      obtain ⟨bs, rfl, rfl⟩ := Option.map_eq_some_iff.mp has
      intro b hb
      rcases List.mem_cons.mp hb with rfl | hb
      · exact hhead _ rfl
      · exact htail bs rfl b hb

theorem meets_readList {v : Value}
    (h : ∀ w ∈ v.components, ∀ location, Meets (read location w) (IfAny P) Q) :
    Meets (readList read location v) (IfAny fun as => ∀ a ∈ as, P a) Q := by
  cases v with
  | list xs | tuple xs | set xs => exact meets_readEach 0 h
  | _ => exact meets_report _ _

theorem meets_readField {R : Option α → Prop} {es : Entries} {name : String} (hnone : R none)
    (h : ∀ v, get? es (.text name) = some v → ∀ location, Meets (read location v) R Q) :
    Meets (readField read location es name) R Q := by
  rw [readField]
  split
  · rename_i v hget
    exact h v hget _
  · exact fun _ _ => ⟨hnone, trivial⟩

theorem meets_readOptional {default : α} {es : Entries} {name : String} (hdefault : P default)
    (h : ∀ v, get? es (.text name) = some v → ∀ location, Meets (read location v) (IfAny P) Q) :
    Meets (readOptional read default location es name) (IfAny P) Q := by
  rw [readOptional]
  split
  · rename_i v hget
    exact h v hget _
  · exact .some hdefault

end

theorem meets_name (location : List Segment) (es : Entries) (name : String) :
    Meets (readField readText location es name) (fun _ => True) Q :=
  meets_readField trivial fun v _ location => meets_readText location v

theorem meets_names (location : List Segment) (v : Value) :
    Meets (readList readText location v) (fun _ => True) Q := by
  refine (meets_readList (P := fun _ => True) fun w _ location => ?_).imp fun _ _ => trivial
  exact (meets_readText location w).imp fun _ _ _ _ => trivial

theorem meets_readPrimitive (location : List Segment) (v : Value) :
    Meets (readPrimitive location v) (fun _ => True) Q := by
  unfold readPrimitive
  dsimp only
  split
  · exact .pure trivial
  · exact fun _ _ => ⟨trivial, trivial⟩

theorem meets_remark (location : List Segment) (es : Entries) (name : String) :
    Meets (readOptional readRemark none location es name) (fun _ => True) Q := by
  refine (meets_readOptional (P := fun _ => True) trivial ?_).imp fun _ _ => trivial
  intro v _ location
  cases v with
  | null => exact .some trivial
  | _ => exact (meets_readText location _).bind fun _ _ => .pure fun _ _ => trivial

/-! ## Fields and shapes -/

/-- If the value is the map of a field without a typed name, then its serialized name is a text. -/
def NamesText (v : Value) : Prop :=
  ∀ es, v = .map es → has es (.text "typed_name") = false →
    ∀ name, get? es (.text "serialized_name") = some name → ∃ s, name = .text s

/-- The fields of a map with its typed name filled in. -/
theorem withTypedName_eq_error {es : Entries} {fault : NameFault}
    (h : withTypedName es = .error fault) : ¬ NamesText (.map es) := by
  intro hn
  rw [withTypedName] at h
  split at h
  · cases h
  · rename_i hhas
    have htext := hn es rfl (by simpa using hhas)
    cases hget : get? es (.text "serialized_name") with
    | none =>
        rw [hget] at h
        cases h
    | some name =>
        obtain ⟨s, rfl⟩ := htext name hget
        rw [hget] at h
        cases h

theorem withTypedName_eq_ok {es fs : Entries} (h : withTypedName es = .ok fs) :
    fs = es ∨ ∃ s, fs = es ++ [(.text "typed_name", .text s)] := by
  rw [withTypedName] at h
  split at h
  · exact Or.inl (Except.ok.inj h).symm
  · split at h
    · exact Or.inl (Except.ok.inj h).symm
    · exact Or.inr ⟨_, (Except.ok.inj h).symm⟩
    · cases h
    · cases h

theorem meets_withTypedName {es : Entries} (hQ : ∀ fault, ¬ NamesText (.map es) → Q fault) :
    Meets (liftM (withTypedName es) : Reading Entries) (fun fs => withTypedName es = .ok fs) Q := by
  intro problems _
  cases h : withTypedName es with
  | ok fs => exact ⟨rfl, trivial⟩
  | error fault => exact hQ fault (withTypedName_eq_error h)

theorem mem_of_get?_withTypedName {es fs : Entries} (h : withTypedName es = .ok fs) {v : Value}
    (hget : get? fs (.text "type") = some v) : (.text "type", v) ∈ es := by
  rcases withTypedName_eq_ok h with rfl | ⟨s, rfl⟩
  · exact mem_of_get? hget
  · rw [get?_append, get?_cons_of_ne (by simp)] at hget
    exact mem_of_get? (by simpa [get?] using hget)

theorem meets_readProperty {P : Shape → Prop} {read : List Segment → Value → Reading (Option Shape)}
    {v : Value} (hQ : ∀ fault, ¬ NamesText v → Q fault)
    (h : ∀ w ∈ v.components, ∀ location, Meets (read location w) (IfAny P) Q)
    (location : List Segment) :
    Meets (readProperty read location v) (IfAny fun p => P p.shape) Q := by
  cases v with
  | map es =>
      rw [readProperty]
      refine (meets_withTypedName hQ).bind fun fs hfs => ?_
      refine (meets_name _ _ _).bind fun x _ => (meets_name _ _ _).bind fun y _ => ?_
      have hshape : Meets (readField read location fs "type") (IfAny P) Q :=
        meets_readField nofun fun w hw =>
          h w (value_mem_components (mem_of_get?_withTypedName hfs hw))
      refine hshape.bind fun shape hshape => (meets_remark _ _ _).bind fun d _ =>
        meets_get.bind fun _ _ => (meets_reportExtras _ _ _).bind fun _ _ =>
          meets_get.bind fun _ _ => ?_
      dsimp only
      split
      · exact Meets.some (hshape _ rfl)
      · exact Meets.none
  | _ => exact meets_report _ _

/-- The shape has distinct names in all its objects. -/
abbrev IsDistinct (s : Shape) : Prop := s.Everywhere Shape.NamesDistinct

theorem meets_finish_map {result : Option β} {f : β → Shape} {location : List Segment}
    {declared : List String} {es : Entries}
    (h : ∀ b, result = some b → (f b).NamesDistinct ∧ ∀ c ∈ (f b).children, IsDistinct c) :
    Meets (finish location declared es (result.map f)) (IfAny IsDistinct) Q := by
  refine meets_finish ?_
  intro s hs
  obtain ⟨b, hb, rfl⟩ := Option.map_eq_some_iff.mp hs
  exact Shape.everywhere_of_children (h b hb).1 (h b hb).2

theorem meets_finish_bare {s : Shape} (hs : s.NamesDistinct) (hc : s.children = [])
    {location : List Segment} {declared : List String} {es : Entries} :
    Meets (finish location declared es (some s)) (IfAny IsDistinct) Q := by
  refine meets_finish ?_
  intro t ht
  rw [← Option.some.inj ht]
  exact Shape.everywhere_of_children hs (by simp [hc])

theorem meets_object {ps : List (Property Shape)} {a : Shape} (hps : ∀ p ∈ ps, IsDistinct p.shape)
    (ha : IsDistinct a) (location : List Segment) :
    Meets (match Shape.object? 0 ps a with
      | .ok shape => pure (some shape)
      | .error repeated => report location (.repeatedName repeated)) (IfAny IsDistinct) Q := by
  rw [Shape.object?]
  cases hnames : Shape.repeatedName? ps with
  | some repeated => exact meets_report _ _
  | none =>
      refine .some (Shape.everywhere_of_children hnames fun c hc => ?_)
      rcases List.mem_append.mp hc with hc | hc
      · obtain ⟨p, hp, rfl⟩ := List.mem_map.mp hc
        exact hps p hp
      · rw [List.mem_singleton.mp hc]
        exact ha

section

variable {es : Entries} {read : List Segment → Value → Reading (Option Shape)}
  (h : ∀ w : Value, ((map es).Everywhere NamesText → w.Everywhere NamesText) → ∀ location,
    Meets (read location w) (IfAny IsDistinct) fun _ => ¬ (map es).Everywhere NamesText)

theorem mem_components_of_get? {name : String} {w : Value} (hget : get? es (.text name) = some w) :
    w ∈ (map es).components :=
  value_mem_components (mem_of_get? hget)

include h

theorem meets_arrayShape (location : List Segment) :
    Meets (do
      let items ← readField read location es "items"
      finish location ["items"] es (items.map .array)) (IfAny IsDistinct)
      fun _ => ¬ (map es).Everywhere NamesText := by
  have hitems : Meets (readField read location es "items") (IfAny IsDistinct)
      fun _ => ¬ (map es).Everywhere NamesText :=
    meets_readField nofun fun w hw => h w (·.component (mem_components_of_get? hw))
  refine hitems.bind fun items hitems => meets_finish_map fun s hs => ⟨trivial, ?_⟩
  intro c hc
  rw [List.mem_singleton.mp hc]
  exact hitems s hs

theorem meets_unionShape (location : List Segment) :
    Meets (do
      let members ← readField (readList read) location es "members"
      finish location ["members"] es (members.map .union)) (IfAny IsDistinct)
      fun _ => ¬ (map es).Everywhere NamesText := by
  have hmembers : Meets (readField (readList read) location es "members")
      (IfAny fun ss => ∀ s ∈ ss, IsDistinct s) fun _ => ¬ (map es).Everywhere NamesText :=
    meets_readField nofun fun w hw _ => meets_readList fun u hu =>
      h u fun hv => (hv.component (mem_components_of_get? hw)).component hu
  exact hmembers.bind fun members hmembers =>
    meets_finish_map fun ss hss => ⟨trivial, hmembers ss hss⟩

theorem meets_objectShape (location : List Segment) :
    Meets (do
      let properties ← readOptional (readList (readProperty read)) [] location es "properties"
      let additional ← readOptional read .never location es "additional"
      let parts := properties.bind fun ps => additional.map fun a => (ps, a)
      match ← finish location ["properties", "additional"] es parts with
      | none => return none
      | some (ps, a) =>
        match Shape.object? 0 ps a with
        | .ok shape => return some shape
        | .error repeated => report location (.repeatedName repeated)) (IfAny IsDistinct)
      fun _ => ¬ (map es).Everywhere NamesText := by
  have hproperties : Meets (readOptional (readList (readProperty read)) [] location es "properties")
      (IfAny fun ps => ∀ p ∈ ps, IsDistinct p.shape) fun _ => ¬ (map es).Everywhere NamesText := by
    refine meets_readOptional nofun fun w hw _ => meets_readList fun u hu => ?_
    have hmap : (map es).Everywhere NamesText → u.Everywhere NamesText :=
      fun hv => (hv.component (mem_components_of_get? hw)).component hu
    exact meets_readProperty (fun _ => mt fun hv => (hmap hv).here)
      fun x hx => h x fun hv => (hmap hv).component hx
  have hadditional : Meets (readOptional read .never location es "additional")
      (IfAny IsDistinct) fun _ => ¬ (map es).Everywhere NamesText :=
    meets_readOptional (Shape.everywhere_of_children trivial nofun)
      fun w hw => h w (·.component (mem_components_of_get? hw))
  refine hproperties.bind fun properties hproperties =>
    hadditional.bind fun additional hadditional => ?_
  refine (meets_finish (P := fun x => (∀ p ∈ x.1, IsDistinct p.shape) ∧ IsDistinct x.2) ?_).bind
    fun parts hparts => ?_
  · intro x hx
    obtain ⟨ps, hps, hx⟩ := Option.bind_eq_some_iff.mp hx
    obtain ⟨a, ha, rfl⟩ := Option.map_eq_some_iff.mp hx
    exact ⟨hproperties ps hps, hadditional a ha⟩
  · split
    · exact Meets.none
    · exact meets_object (hparts _ rfl).1 (hparts _ rfl).2 _

end

/-- The names of every object of a shape that is read are distinct, and a reading is ended only by a
value in which a serialized name is no text and would have to be one. -/
theorem meets_readShape : ∀ (n : Nat) (v : Value) (location : List Segment),
    Meets (readShape n location v) (IfAny IsDistinct) fun _ => ¬ v.Everywhere NamesText
  | 0, _, location => meets_report location _
  | n + 1, v, location => by
      have ih : ∀ w : Value, (v.Everywhere NamesText → w.Everywhere NamesText) → ∀ location,
          Meets (readShape n location w) (IfAny IsDistinct) fun _ => ¬ v.Everywhere NamesText :=
        fun w hw location => (meets_readShape n w location).fault fun _ => mt hw
      cases v with
      | map es =>
          rw [readShape]
          split
          · exact meets_report _ _
          · dsimp only
            -- The kinds in the order of the reader: first those that have fields of their own.
            split
            · refine (meets_readField trivial fun v _ location =>
                meets_readPrimitive location v).bind fun _ _ => meets_finish_map fun _ _ => ?_
              exact ⟨trivial, nofun⟩
            · refine (meets_readField trivial fun v _ location =>
                meets_names location v).bind fun _ _ => meets_finish_map fun _ _ => ?_
              exact ⟨trivial, nofun⟩
            · exact meets_arrayShape ih _
            · exact meets_unionShape ih _
            · exact meets_objectShape ih _
            · refine (meets_name _ _ _).bind fun _ _ => meets_finish_map fun _ _ => ?_
              exact ⟨trivial, nofun⟩
            · exact meets_finish_bare (s := .date) trivial rfl
            · exact meets_finish_bare (s := .any) trivial rfl
            · exact meets_finish_bare (s := .null) trivial rfl
            · exact meets_finish_bare (s := .absent) trivial rfl
            · exact meets_finish_bare (s := .never) trivial rfl
            · exact meets_report _ _
          · exact meets_report _ _
      | _ => exact meets_report location _

/-! ## Documents -/

theorem meets_readTypes (levels : Nat) (location : List Segment) : ∀ es : Entries,
    (∀ e ∈ es, ∀ fault, ¬ e.2.Everywhere NamesText → Q fault) →
      Meets (readTypes levels location es) (IfAny fun fs => ∀ f ∈ fs, IsDistinct f.2) Q
  | [], _ => .some nofun
  | (key, v) :: es, hQ => by
      have hv := hQ _ List.mem_cons_self
      have ih := meets_readTypes levels location es fun e he => hQ e (List.mem_cons_of_mem _ he)
      rw [readTypes]
      refine (meets_readText _ _).bind fun name _ => ((meets_readShape levels v _).fault hv).bind
        fun shape hshape => ih.bind fun tail htail => .pure ?_
      intro fs hfs
      obtain ⟨x, rfl, hfs'⟩ := Option.bind_eq_some_iff.mp hfs
      obtain ⟨s, rfl, hfs''⟩ := Option.bind_eq_some_iff.mp hfs'
      obtain ⟨rest, rfl, rfl⟩ := Option.map_eq_some_iff.mp hfs''
      intro f hf
      rcases List.mem_cons.mp hf with rfl | hf
      · exact hshape _ rfl
      · exact htail _ rfl f hf

theorem meets_readDocument (es : Entries) :
    Meets (readDocument es) (IfAny fun fs => ∀ f ∈ fs, IsDistinct f.2)
      fun _ => ¬ (map es).Everywhere NamesText := by
  rw [readDocument]
  refine (meets_readField nofun fun w hw location => ?_).bind fun types htypes =>
    (meets_reportExtras _ _ _).bind fun _ _ => .pure htypes
  have hmem : w ∈ (map es).components := value_mem_components (mem_of_get? hw)
  cases w with
  | map fs =>
      exact meets_readTypes _ _ fs fun e he _ => mt fun h =>
        (h.component hmem).component (value_mem_components he)
  | _ => exact meets_report _ _

/-- Labelling changes neither the names of fields nor the number of shapes. -/
theorem exists_of_mem_labelAll : ∀ {n : Nat} {fs : NamedShapes} {e : String × Shape},
    e ∈ labelAll n fs → ∃ f ∈ fs, ∃ k, e = (f.1, (f.2.label k).1)
  | n, f :: fs, e, h => by
      rcases List.mem_cons.mp h with rfl | h
      · exact ⟨f, List.mem_cons_self, n, rfl⟩
      · obtain ⟨g, hg, k, rfl⟩ := exists_of_mem_labelAll h
        exact ⟨g, List.mem_cons_of_mem f hg, k, rfl⟩

end TableDocument

theorem Shape.namesDistinct_unlabelled (s : Shape) :
    s.unlabelled.NamesDistinct ↔ s.NamesDistinct := by
  cases s with
  | object l ps a =>
      rw [unlabelled_object, NamesDistinct, NamesDistinct, repeatedName?_unlabelledField]
  | union ss => simp [NamesDistinct]
  | _ => exact Iff.rfl

namespace Table

open TableDocument

/-- All that can be wrong with a tree is a fault of documents, but for a serialized name that would
have to be a text. -/
theorem ends_ofTree (tree : Value) : EndsIn (ofTree tree) (fun _ => True) fun fault =>
    fault.isOfDocument = true ∨ ∃ f, fault = .name f ∧ ¬ tree.Everywhere NamesText := by
  cases tree with
  | map es =>
      have hread := meets_readDocument es [] trivial
      simp only [ofTree]
      split
      · rename_i f heq
        exact .inr ⟨f, rfl, hread.of_error heq⟩
      · rename_i fs _
        cases build (labelAll 0 fs) with
        | error fault => exact .inl rfl
        | ok t => exact trivial
      · exact .inl rfl
  | _ => exact .inl rfl

theorem namesDistinct_of_ofTree {tree : Value} {t : Table} (h : ofTree tree = .ok t) :
    t.Everywhere Shape.NamesDistinct := by
  cases tree with
  | map es =>
      have hread := meets_readDocument es [] trivial
      simp only [ofTree] at h
      split at h
      · cases h
      · rename_i fs heq
        have hfs := (hread.of_ok heq).1
        have hbuild : build (labelAll 0 fs) = .ok t := by
          cases hb : build (labelAll 0 fs) with
          | error fault => rw [hb] at h; cases h
          | ok t' =>
              rw [hb] at h
              rw [show t' = t from Except.ok.inj h]
        intro e he
        rw [entries_of_build hbuild] at he
        obtain ⟨f, hf, k, rfl⟩ := exists_of_mem_labelAll (NamedShapes.mem_ofList he)
        exact (Shape.sameUpToLabels_label f.2 k).everywhere Shape.namesDistinct_unlabelled
          (hfs fs rfl f hf)
      · cases h
  | _ => cases h

end Table

end Conform
