import Conform.Proofs.Conversion.Conformance

/-!
# How shapes are made

A shape is made from smaller ones, and an object by `Shape.object?`, which refuses fields of which
two have a name in common.  What comes about in this way (`Shape.Built`) are the shapes in whose
objects all names are distinct (`built_iff`).

`Shape.object?` looks for serialized names that occur twice before it looks for typed ones.  It
reports the name at which the search from the front first meets one that it has met before
(`FirstRepeated`).
-/

namespace Conform.Shape

/-! ## Repeated names -/

/-- The name has occurred before, and it is the first of which that can be said. -/
def FirstRepeated (names : List String) (name : String) : Prop :=
  ∃ before after, names = before ++ name :: after ∧ before.Nodup ∧ name ∈ before

theorem FirstRepeated.not_nodup {names : List String} {name : String}
    (h : FirstRepeated names name) : ¬ names.Nodup := by
  obtain ⟨before, after, rfl, -, hname⟩ := h
  intro hn
  exact (List.nodup_append.mp hn).2.2 name hname name List.mem_cons_self rfl

/-- Among names that are not distinct, one is the first to occur again. -/
theorem exists_firstRepeated {names : List String} :
    ¬ names.Nodup → ∃ name, FirstRepeated names name := by
  -- The induction is on the names from the last on: a name that is first stays first.
  induction names using List.reverseRecOn with
  | nil =>
      intro h
      exact absurd List.nodup_nil h
  | append_singleton names last ih =>
      intro h
      by_cases hn : names.Nodup
      · have hlast : last ∈ names := by
          by_contra hlast
          rw [← List.concat_eq_append] at h
          exact h (hn.concat hlast)
        exact ⟨last, names, [], rfl, hn, hlast⟩
      · obtain ⟨name, before, after, rfl, hbefore, hname⟩ := ih hn
        exact ⟨name, before, after ++ [last], by simp, hbefore, hname⟩

/-- The search goes past names that it has not met before. -/
theorem firstRepeated?_append {before : List String} : ∀ {seen : List String}, before.Nodup →
    (∀ name ∈ before, name ∉ seen) → ∀ rest : List String,
      firstRepeated? seen (before ++ rest) = firstRepeated? (before.reverse ++ seen) rest := by
  induction before with
  | nil =>
      intro seen _ _ rest
      rfl
  | cons name before ih =>
      intro seen hn hseen rest
      obtain ⟨hname, hn⟩ := List.nodup_cons.mp hn
      have hfresh : ∀ other ∈ before, other ∉ name :: seen := by
        intro other hother
        refine List.not_mem_cons_of_ne_of_not_mem ?_ (hseen other (List.mem_cons_of_mem _ hother))
        rintro rfl
        exact hname hother
      rw [List.cons_append, firstRepeated?, if_neg (hseen name List.mem_cons_self),
        ih hn hfresh, List.reverse_cons, List.append_assoc, List.singleton_append]

theorem firstRepeated?_eq_some_iff {names : List String} {name : String} :
    firstRepeated? [] names = some name ↔ FirstRepeated names name := by
  have hfound {first : String} (h : FirstRepeated names first) :
      firstRepeated? [] names = some first := by
    obtain ⟨before, after, rfl, hn, hfirst⟩ := h
    rw [firstRepeated?_append hn fun _ _ => List.not_mem_nil, firstRepeated?, if_pos]
    exact List.mem_append_left _ (List.mem_reverse.mpr hfirst)
  refine ⟨fun h => ?_, hfound⟩
  have hrepeats : ¬ names.Nodup := by
    intro hn
    rw [firstRepeated?_eq_none_iff.mpr ⟨hn, fun _ _ => List.not_mem_nil⟩] at h
    cases h
  obtain ⟨first, hfirst⟩ := exists_firstRepeated hrepeats
  obtain rfl := Option.some.inj ((hfound hfirst).symm.trans h)
  exact hfirst

/-! ## Objects -/

section

variable {l : Nat} {ps : List (Property Shape)} {a : Shape}

theorem object?_eq_ok_iff {s : Shape} :
    object? l ps a = .ok s ↔ s = .object l ps a ∧ ∀ role, (ps.map (nameIn role)).Nodup := by
  rw [object?, ← repeatedName?_eq_none_iff]
  cases repeatedName? ps with
  | none => simp [eq_comm]
  | some repeated => simp

theorem exists_object?_iff : (∃ s, object? l ps a = .ok s) ↔
    (ps.map (·.serialized)).Nodup ∧ (ps.map (·.typed)).Nodup := by
  simp only [object?_eq_ok_iff, exists_eq_left]
  constructor
  · intro h
    exact ⟨h .serialized, h .typed⟩
  · rintro ⟨hserialized, htyped⟩ role
    cases role with
    | serialized => exact hserialized
    | typed => exact htyped

/-- A serialized name is reported before any typed one. -/
theorem object?_eq_error_iff {role : NameRole} {name : String} :
    object? l ps a = .error ⟨role, name⟩ ↔
      FirstRepeated (ps.map (nameIn role)) name ∧
        (role = .typed → (ps.map (nameIn .serialized)).Nodup) := by
  have herror : object? l ps a = .error ⟨role, name⟩ ↔ repeatedName? ps = some ⟨role, name⟩ := by
    rw [object?]
    cases repeatedName? ps <;> simp
  rw [herror, repeatedName?, ← firstRepeated?_eq_some_iff]
  cases hserialized : firstRepeated? [] (ps.map (nameIn .serialized)) with
  | some first =>
      have hrepeats : ¬ (ps.map (nameIn .serialized)).Nodup :=
        (firstRepeated?_eq_some_iff.mp hserialized).not_nodup
      cases role with
      | serialized => simp [hserialized]
      | typed => simp [hrepeats]
  | none =>
      have hn : (ps.map (nameIn .serialized)).Nodup := (firstRepeated?_eq_none_iff.mp hserialized).1
      cases role with
      | serialized => simp [hserialized]
      | typed => simp [hn]

end

/-! ## Shapes -/

/-- The shape is made from smaller ones, the objects in it by `Shape.object?`. -/
inductive Built : Shape → Prop
  | primitive (kind : Primitive) : Built (.primitive kind)
  | literals (values : List String) : Built (.literals values)
  | array {items : Shape} (h : Built items) : Built (.array items)
  | union {members : List Shape} (h : ∀ s ∈ members, Built s) : Built (.union members)
  | object {l : Nat} {ps : List (Property Shape)} {a s : Shape} (hps : ∀ p ∈ ps, Built p.shape)
      (ha : Built a) (h : object? l ps a = .ok s) : Built s
  | ref (name : String) : Built (.ref name)
  | date : Built .date
  | any : Built .any
  | null : Built .null
  | absent : Built .absent
  | never : Built .never

theorem namesDistinct_of_built {s : Shape} (h : s.Built) : s.Everywhere NamesDistinct := by
  induction h with
  | array _ ih =>
      refine everywhere_of_children trivial fun c hc => ?_
      rw [List.mem_singleton.mp hc]
      exact ih
  | union _ ih => exact everywhere_of_children trivial ih
  | @object l ps a s _ _ h ihps iha =>
      obtain ⟨rfl, hn⟩ := object?_eq_ok_iff.mp h
      refine everywhere_of_children (repeatedName?_eq_none_iff.mpr hn) fun c hc => ?_
      rcases List.mem_append.mp hc with hc | hc
      · obtain ⟨p, hp, rfl⟩ := List.mem_map.mp hc
        exact ihps p hp
      · rw [List.mem_singleton.mp hc]
        exact iha
  | primitive | literals | ref | date | any | null | absent | never =>
      exact everywhere_of_children trivial nofun

theorem built_of_namesDistinct (s : Shape) : s.Everywhere NamesDistinct → s.Built := by
  induction s using byChildren with
  | step s ih =>
      intro h
      have hchildren : ∀ c ∈ s.children, c.Built := fun c hc => ih c hc (h.child hc)
      cases s with
      | array items => exact .array (hchildren items List.mem_cons_self)
      | union members => exact .union hchildren
      | object l ps a =>
          have hn : repeatedName? ps = none := h.here
          refine .object (fun p hp => ?_) ?_
            (object?_eq_ok_iff.mpr ⟨rfl, repeatedName?_eq_none_iff.mp hn⟩)
          · exact hchildren _ (List.mem_append_left _ (List.mem_map_of_mem hp))
          · exact hchildren _ (List.mem_append_right _ List.mem_cons_self)
      | primitive kind => exact .primitive kind
      | literals values => exact .literals values
      | ref name => exact .ref name
      | date => exact .date
      | any => exact .any
      | null => exact .null
      | absent => exact .absent
      | never => exact .never

theorem built_iff {s : Shape} : s.Built ↔ s.Everywhere NamesDistinct :=
  ⟨namesDistinct_of_built, built_of_namesDistinct s⟩

theorem Built.repeatedName?_eq_none {s : Shape} (h : s.Built) {o : ObjectShape}
    (ho : o ∈ s.objects) : repeatedName? o.properties = none :=
  built_iff.mp h _ (mem_objects_iff.mp ho)

end Conform.Shape
