import Conform.Value.Basic

/-!
# Nesting of values

`Value.components` are the values that a value is directly made of, the keys of a map among them.
They are less high than the value, so facts about all values are proved from components to wholes
(`Value.byComponents`), and `Value.Everywhere` says that something holds of a value and of all
values nested in it.

A value can be written exactly if no integer nested in it is overlong (`isWritable_iff`).
-/

namespace Conform.Value

/-- The values that a value is directly made of. -/
def components : Value → List Value
  | .list xs | .tuple xs | .set xs => xs
  | .map es => es.flatMap fun e => [e.1, e.2]
  | _ => []

theorem key_mem_components {es : Entries} {e : Value × Value} (h : e ∈ es) :
    e.1 ∈ (map es).components :=
  List.mem_flatMap.mpr ⟨e, h, List.mem_cons_self⟩

theorem value_mem_components {es : Entries} {e : Value × Value} (h : e ∈ es) :
    e.2 ∈ (map es).components :=
  List.mem_flatMap.mpr ⟨e, h, List.mem_cons_of_mem _ List.mem_cons_self⟩

/-! ## Heights -/

theorem height_le_of_mem {x : Value} : ∀ {xs : List Value}, x ∈ xs → x.height ≤ heightOfItems xs
  | y :: ys, h => by
      rw [heightOfItems]
      rcases List.mem_cons.mp h with rfl | h
      · exact Nat.le_max_left _ _
      · exact Nat.le_trans (height_le_of_mem h) (Nat.le_max_right _ _)

theorem height_le_of_mem_entries {e : Value × Value} : ∀ {es : Entries}, e ∈ es →
    max e.1.height e.2.height ≤ heightOfEntries es
  | f :: es, h => by
      rw [heightOfEntries]
      rcases List.mem_cons.mp h with rfl | h
      · exact Nat.le_max_left _ _
      · exact Nat.le_trans (height_le_of_mem_entries h) (Nat.le_max_right _ _)

theorem height_lt_of_mem_components {c v : Value} (h : c ∈ v.components) :
    c.height < v.height := by
  cases v with
  | list xs | tuple xs | set xs =>
      have : c.height ≤ heightOfItems xs := height_le_of_mem h
      rw [height]
      omega
  | map es =>
      obtain ⟨e, he, hc⟩ := List.mem_flatMap.mp h
      have := height_le_of_mem_entries he
      rw [height]
      rcases List.mem_cons.mp hc with rfl | hc
      · omega
      · rw [List.mem_singleton.mp hc]
        omega
  | _ => cases h

/-! ## From components to wholes -/

/-- What holds of a value if it holds of its components holds of all values. -/
@[elab_as_elim]
theorem byComponents {P : Value → Prop} (step : ∀ v, (∀ c ∈ v.components, P c) → P v) (v : Value) :
    P v :=
  step v fun c h => have := height_lt_of_mem_components h; byComponents step c
termination_by v.height

/-- Something holds of the value and of all values nested in it. -/
inductive Everywhere (P : Value → Prop) : Value → Prop
  | mk {v : Value} (here : P v) (inside : ∀ c ∈ v.components, Everywhere P c) : Everywhere P v

theorem Everywhere.here {P : Value → Prop} {v : Value} (h : v.Everywhere P) : P v := by
  cases h with
  | mk here _ => exact here

theorem Everywhere.component {P : Value → Prop} {c v : Value} (h : v.Everywhere P)
    (hc : c ∈ v.components) : c.Everywhere P := by
  cases h with
  | mk _ inside => exact inside c hc

/-! ## Writable values -/

theorem areWritable_iff : ∀ {xs : List Value},
    areWritable xs = true ↔ ∀ x ∈ xs, x.isWritable = true
  | [] => by simp [areWritable]
  | x :: xs => by simp [areWritable, areWritable_iff]

theorem entriesWritable_iff : ∀ {es : Entries},
    entriesWritable es = true ↔ ∀ e ∈ es, e.1.isWritable = true ∧ e.2.isWritable = true
  | [] => by simp [entriesWritable]
  | e :: es => by simp [entriesWritable, entriesWritable_iff]

/-- The value is not an integer with more digits than can be written. -/
def IsShort (v : Value) : Prop := ∀ n, v = .int n → Digits.withinLimit n = true

theorem isWritable_iff_components {v : Value} :
    v.isWritable = true ↔ v.IsShort ∧ ∀ c ∈ v.components, c.isWritable = true := by
  cases v with
  | list xs | tuple xs | set xs =>
      rw [isWritable, areWritable_iff]
      simp [IsShort, components]
  | map es =>
      rw [isWritable, entriesWritable_iff]
      simp only [IsShort, components, List.mem_flatMap, List.mem_cons, List.not_mem_nil, or_false]
      constructor
      · intro h
        refine ⟨(fun n hn => by cases hn), ?_⟩
        rintro c ⟨e, he, rfl | rfl⟩
        · exact (h e he).1
        · exact (h e he).2
      · rintro ⟨-, h⟩ e he
        exact ⟨h e.1 ⟨e, he, Or.inl rfl⟩, h e.2 ⟨e, he, Or.inr rfl⟩⟩
  | int n => simp [isWritable, IsShort, components]
  | _ => simp [isWritable, IsShort, components]

theorem isWritable_iff {v : Value} : v.isWritable = true ↔ v.Everywhere IsShort := by
  induction v using byComponents with
  | step v ih =>
      rw [isWritable_iff_components]
      constructor
      · rintro ⟨here, inside⟩
        exact .mk here fun c hc => (ih c hc).mp (inside c hc)
      · intro h
        exact ⟨h.here, fun c hc => (ih c hc).mpr (h.component hc)⟩

theorem isWritable_of_mem_components {c v : Value} (hv : v.isWritable = true)
    (h : c ∈ v.components) : c.isWritable = true :=
  (isWritable_iff_components.mp hv).2 c h

theorem entriesWritable_put {k v : Value} (hk : k.isWritable = true) (hv : v.isWritable = true) :
    ∀ {es : Entries}, entriesWritable es = true → entriesWritable (put es k v) = true
  | [], _ => by simp [put, entriesWritable, hk, hv]
  | (k', w) :: es, h => by
      simp only [entriesWritable, Bool.and_eq_true] at h
      rw [put]
      split
      · simp [entriesWritable, h, hv]
      · simp [entriesWritable, h, entriesWritable_put hk hv h.2]

theorem isWritable_ofEntries {es : Entries} (h : entriesWritable es = true) :
    (ofEntries es).isWritable = true := by
  have key : ∀ es : Entries, entriesWritable es = true → ∀ done : Entries,
      entriesWritable done = true →
        entriesWritable (es.foldl (fun d e => put d e.1 e.2) done) = true := by
    intro es
    induction es with
    | nil => exact fun _ _ hd => hd
    | cons e es ih =>
        intro h done hd
        obtain ⟨k, v⟩ := e
        simp only [entriesWritable, Bool.and_eq_true] at h
        exact ih h.2 _ (entriesWritable_put h.1.1 h.1.2 hd)
  exact key es h [] rfl

end Conform.Value
