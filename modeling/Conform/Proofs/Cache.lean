import Conform.FieldMap
import Mathlib.Data.List.Nodup

/-!
# Faithful caches

A cache is faithful if it remembers nothing but what would be computed afresh, once for each object
and direction.  Looking a field map up and warming keep this, and a look-up in a faithful cache
gives the field map of the object.

`Yields P x a` says that `x` uses the cache for speed alone: from every cache of a kind, such as the
faithful ones, it gives `a` and leaves a cache of that kind.  What is composed of such computations
is such a computation.
-/

namespace Conform.Cache

/-- The cache holds for each key, once, the field map of the object in the direction. -/
structure Faithful (c : Cache) : Prop where
  fields : ∀ e ∈ c.entries, e.fields = FieldMap.ofObject e.object e.direction
  keys : (c.entries.map fun e => (e.object, e.direction)).Nodup

theorem faithful_empty : empty.Faithful := ⟨by simp [empty], List.nodup_nil⟩

/-! ## Computations for which the cache does not show -/

section

variable {P : Cache → Prop} {α β : Type}

/-- From every cache of a kind the computation gives this, and it leaves a cache of the kind. -/
def Yields (P : Cache → Prop) (x : StateM Cache α) (a : α) : Prop :=
  ∀ c : Cache, P c → (x c).1 = a ∧ P (x c).2

/-- What is given from one cache of the kind is given from all, if anything is. -/
theorem Yields.of_exists {x : StateM Cache α} (h : ∃ a, Yields P x a) {c : Cache} (hc : P c) :
    Yields P x (x c).1 := by
  obtain ⟨a, h⟩ := h
  rw [(h c hc).1]
  exact h

theorem Yields.pure (a : α) : Yields P (pure a) a := fun _ h => ⟨rfl, h⟩

theorem Yields.bind {x : StateM Cache α} {k : α → StateM Cache β} {a : α} {b : β}
    (hx : Yields P x a) (hk : Yields P (k a) b) : Yields P (x >>= k) b := by
  intro c hc
  obtain ⟨ha, hc'⟩ := hx c hc
  have hk := hk (x c).2 hc'
  rw [← ha] at hk
  exact hk

/-- Two computations that go on alike, the second without a cache. -/
theorem Yields.bind_run {x : StateM Cache α} {k : α → StateM Cache β} {y : Id α} {l : α → Id β}
    (hx : Yields P x y.run) (hk : ∀ a, Yields P (k a) (l a).run) :
    Yields P (x >>= k) (y >>= l).run :=
  hx.bind (hk y.run)

theorem Yields.map {x : StateM Cache α} {a : α} (hx : Yields P x a) (k : α → β) :
    Yields P (do return k (← x)) (k a) :=
  hx.bind (.pure _)

theorem Yields.mapM_of_mem {f : α → StateM Cache β} {g : α → β} :
    ∀ {xs : List α}, (∀ x ∈ xs, Yields P (f x) (g x)) → Yields P (xs.mapM f) (xs.map g)
  | [], _ => .pure []
  | x :: xs, h => by
      obtain ⟨hx, hxs⟩ := List.forall_mem_cons.mp h
      rw [List.mapM_cons, List.map_cons]
      exact hx.bind ((mapM_of_mem hxs).bind (.pure _))

theorem Yields.mapM {f : α → StateM Cache β} {g : α → β} (h : ∀ x, Yields P (f x) (g x))
    (xs : List α) : Yields P (xs.mapM f) (xs.map g) :=
  .mapM_of_mem fun x _ => h x

end

/-! ## Looking up and warming -/

theorem Faithful.of_find? {c : Cache} (h : c.Faithful) {object : ObjectShape}
    {direction : Direction} {fields : FieldMap} (hf : c.find? object direction = some fields) :
    fields = FieldMap.ofObject object direction := by
  obtain ⟨e, he, rfl⟩ := Option.map_eq_some_iff.mp hf
  have hkey := List.find?_some he
  rw [Bool.and_eq_true, decide_eq_true_iff, decide_eq_true_iff] at hkey
  rw [← hkey.1, ← hkey.2]
  exact h.fields e (List.mem_of_find?_eq_some he)

theorem not_mem_of_find?_eq_none {c : Cache} {object : ObjectShape} {direction : Direction}
    (hf : c.find? object direction = none) :
    (object, direction) ∉ c.entries.map fun e => (e.object, e.direction) := by
  intro hm
  obtain ⟨e, he, heq⟩ := List.mem_map.mp hm
  obtain ⟨rfl, rfl⟩ := Prod.mk.inj heq
  have := List.find?_eq_none.mp (Option.map_eq_none_iff.mp hf) e he
  simp at this

theorem Faithful.add {c : Cache} (h : c.Faithful) {object : ObjectShape} {direction : Direction}
    (hf : c.find? object direction = none) :
    Faithful ⟨c.entries ++ [⟨object, direction, FieldMap.ofObject object direction⟩]⟩ where
  fields e he := by
    rcases List.mem_append.mp he with he | he
    · exact h.fields e he
    · rw [List.mem_singleton.mp he]
  keys := by
    rw [List.map_append, List.nodup_append]
    refine ⟨h.keys, List.nodup_singleton _, fun a ha b hb hab => ?_⟩
    rw [hab, List.mem_singleton.mp hb] at ha
    exact not_mem_of_find?_eq_none hf ha

theorem yields_getOrAdd (object : ObjectShape) (direction : Direction) :
    Yields Faithful (getOrAdd object direction) (FieldMap.ofObject object direction) := by
  intro c hc
  rw [getOrAdd]
  cases hf : c.find? object direction with
  | some fields => exact ⟨hc.of_find? hf, hc⟩
  | none => exact ⟨rfl, hc.add hf⟩

theorem Faithful.warm {c : Cache} (h : c.Faithful) (table : Table) : (c.warm table).Faithful := by
  rw [Cache.warm]
  induction table.entries.flatMap fun e => e.2.objects generalizing c with
  | nil => exact h
  | cons object objects ih =>
      rw [List.foldl_cons]
      exact ih (yields_getOrAdd object .encode _ (yields_getOrAdd object .decode c h).2).2

end Conform.Cache
