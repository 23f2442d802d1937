import Conform.Table.Basic
import Mathlib.Data.List.Nodup

/-!
# Building tables

`Table.build` writes pairs of names and shapes one after the other and checks the result.  A table
that comes out has the names of the pairs (`mem_names_of_build`), and the entries of a table, being
checked already and under distinct names, build this very table (`build_entries`).
-/

namespace Conform

namespace NamedShapes

variable {es : NamedShapes}

theorem firstUnknown?_eq_none_iff :
    es.firstUnknown? = none ↔ ∀ e ∈ es, e.2.references ⊆ es.names := by
  rw [firstUnknown?, List.findSome?_eq_none_iff]
  refine forall₂_congr fun e _ => ?_
  rw [Option.map_eq_none_iff, List.find?_eq_none]
  exact forall₂_congr fun name _ => by simp

/-! ## Writing pairs -/

theorem put_of_fresh {name : String} (h : name ∉ es.names) (shape : Shape) :
    put es name shape = es ++ [(name, shape)] := by
  induction es with
  | nil => rfl
  | cons e es ih =>
      have hne : ¬ e.1 = name := fun heq => h (heq ▸ List.mem_cons_self)
      rw [put, if_neg (mt beq_iff_eq.mp hne), ih fun hm => h (List.mem_cons_of_mem _ hm),
        List.cons_append]

theorem ofList_eq (h : es.names.Nodup) : ofList es = es := by
  have key : ∀ es done : NamedShapes, (names (done ++ es)).Nodup →
      es.foldl (fun done e => put done e.1 e.2) done = done ++ es := by
    intro es
    induction es with
    | nil => intro done _; exact (List.append_nil done).symm
    | cons e es ih =>
        intro done hn
        have hfresh : e.1 ∉ names done := by
          rw [names, List.map_append, List.nodup_append] at hn
          exact fun hm => hn.2.2 _ hm _ List.mem_cons_self rfl
        rw [List.foldl_cons, put_of_fresh hfresh, List.append_cons done e es]
        rw [List.append_cons] at hn
        exact ih _ hn
  exact key es [] h

theorem mem_put {name : String} {shape : Shape} {e : String × Shape}
    (h : e ∈ put es name shape) : e ∈ es ∨ e = (name, shape) := by
  induction es with
  | nil => exact Or.inr (List.mem_singleton.mp h)
  | cons f es ih =>
      rw [put] at h
      split at h
      · rcases List.mem_cons.mp h with h | h
        · exact Or.inr h
        · exact Or.inl (List.mem_cons_of_mem f h)
      · rcases List.mem_cons.mp h with rfl | h
        · exact Or.inl List.mem_cons_self
        · exact (ih h).imp_left (List.mem_cons_of_mem f)

theorem mem_ofList {pairs : List (String × Shape)} {e : String × Shape} (h : e ∈ ofList pairs) :
    e ∈ pairs := by
  have key : ∀ pairs done : NamedShapes,
      e ∈ pairs.foldl (fun done e => put done e.1 e.2) done → e ∈ done ∨ e ∈ pairs := by
    intro pairs
    induction pairs with
    | nil => exact fun _ => Or.inl
    | cons f pairs ih =>
        intro done h
        rcases ih _ h with h | h
        · rcases mem_put h with h | rfl
          · exact Or.inl h
          · exact Or.inr List.mem_cons_self
        · exact Or.inr (List.mem_cons_of_mem f h)
  exact (key pairs [] h).resolve_left nofun

theorem mem_names_ofList {pairs : List (String × Shape)} {name : String} :
    name ∈ (ofList pairs).names ↔ name ∈ pairs.map (·.1) := by
  have key : ∀ (pairs : List (String × Shape)) (done : NamedShapes),
      name ∈ names (pairs.foldl (fun done e => put done e.1 e.2) done) ↔
        name ∈ done.names ∨ name ∈ pairs.map (·.1) := by
    intro pairs
    induction pairs with
    | nil => intro done; simp
    | cons e pairs ih =>
        intro done
        rw [List.foldl_cons, ih, names_put, List.map_cons, List.mem_cons, ← or_assoc]
        refine or_congr_left ?_
        by_cases h : e.1 ∈ done.names
        · rw [if_pos h]
          exact ⟨Or.inl, fun hm => hm.elim id fun heq => heq ▸ h⟩
        · rw [if_neg h, List.mem_append, List.mem_singleton]
  exact (key pairs []).trans ⟨fun h => h.resolve_left (by simp [names]), Or.inr⟩

end NamedShapes

namespace Table

theorem build_entries (t : Table) : build t.entries = .ok t := by
  have hentries := NamedShapes.ofList_eq t.distinct
  rw [build]
  split
  · rename_i h
    rw [hentries, t.closed] at h
    cases h
  · split
    · rename_i h
      rw [hentries, t.grounded] at h
      cases h
    · congr

/-- Building reports an unknown reference, else a cycle, else it gives a table. -/
theorem build_cases (pairs : List (String × Shape)) :
    (∃ name referrer, (NamedShapes.ofList pairs).firstUnknown? = some (name, referrer) ∧
      build pairs = .error (.unknownReference name referrer)) ∨
    (NamedShapes.ofList pairs).firstUnknown? = none ∧
      ((∃ chain, (NamedShapes.ofList pairs).firstCycle? = some chain ∧
        build pairs = .error (.cycle chain)) ∨
      (NamedShapes.ofList pairs).firstCycle? = none ∧ ∃ t, build pairs = .ok t) := by
  rw [build]
  split
  · exact Or.inl ⟨_, _, ‹_›, rfl⟩
  · split
    · exact Or.inr ⟨‹_›, Or.inl ⟨_, ‹_›, rfl⟩⟩
    · exact Or.inr ⟨‹_›, Or.inr ⟨‹_›, _, rfl⟩⟩

theorem entries_of_build {pairs : List (String × Shape)} {t : Table} (h : build pairs = .ok t) :
    t.entries = NamedShapes.ofList pairs := by
  rw [build] at h
  split at h
  · cases h
  · split at h
    · cases h
    · rw [← Except.ok.inj h]

theorem mem_names_of_build {pairs : List (String × Shape)} {t : Table} (h : build pairs = .ok t)
    {name : String} : name ∈ t.names ↔ name ∈ pairs.map (·.1) := by
  rw [names, entries_of_build h, NamedShapes.mem_names_ofList]

end Table

end Conform
