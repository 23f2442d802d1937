import Conform.Proofs.Codec
import Conform.Proofs.Table.Productive

/-!
# What a warm cache remembers

Warming a cache in which nothing is remembered leaves the two field maps of each object that is
nested in an entry of the table, and from then on no operation within the table changes the cache
but the one that clears it (`warm_complete`).

Warming does not follow references, and a conversion does, also on behalf of members of a union that
reject in the end.  What a conversion meets is nested in the shape that it begins with or in an
entry, so it only asks for what is remembered already.
-/

namespace Conform

namespace Cache

def both (object : ObjectShape) : List CacheEntry :=
  [⟨object, .decode, .ofObject object .decode⟩, ⟨object, .encode, .ofObject object .encode⟩]

/-- The cache that remembers the two field maps of each of these objects. -/
def ofObjects (objects : List ObjectShape) : Cache := ⟨objects.flatMap both⟩

@[simp] theorem size_ofObjects (objects : List ObjectShape) :
    (ofObjects objects).size = 2 * objects.length := by
  induction objects with
  | nil => rfl
  | cons object objects ih =>
      rw [size, ofObjects, List.flatMap_cons, List.length_append, List.length_cons]
      rw [size, ofObjects] at ih
      rw [ih, both, List.length_cons, List.length_singleton]
      omega

/-! ## Looking up -/

theorem getOrAdd_of_find? {c : Cache} {object : ObjectShape} {direction : Direction}
    {fields : FieldMap} (h : c.find? object direction = some fields) :
    getOrAdd object direction c = (fields, c) := by
  rw [getOrAdd, h]

theorem getOrAdd_of_find?_eq_none {c : Cache} {object : ObjectShape} {direction : Direction}
    (h : c.find? object direction = none) :
    (getOrAdd object direction c).2 =
      ⟨c.entries ++ [⟨object, direction, .ofObject object direction⟩]⟩ := by
  rw [getOrAdd, h]

theorem find?_both (object : ObjectShape) (direction : Direction) :
    (⟨both object⟩ : Cache).find? object direction = some (.ofObject object direction) := by
  cases direction <;> simp [find?, both]

theorem find?_both_of_ne {object other : ObjectShape} (h : other ≠ object)
    (direction : Direction) : (⟨both other⟩ : Cache).find? object direction = none := by
  simp [find?, both, h]

theorem find?_append (es fs : List CacheEntry) (object : ObjectShape) (direction : Direction) :
    (⟨es ++ fs⟩ : Cache).find? object direction =
      ((⟨es⟩ : Cache).find? object direction).or ((⟨fs⟩ : Cache).find? object direction) := by
  rw [find?, find?, find?, List.find?_append, Option.map_or]

theorem find?_ofObjects (objects : List ObjectShape) (object : ObjectShape)
    (direction : Direction) : (ofObjects objects).find? object direction =
      if object ∈ objects then some (.ofObject object direction) else none := by
  induction objects with
  | nil => rfl
  | cons other objects ih =>
      rw [ofObjects] at ih ⊢
      rw [List.flatMap_cons, find?_append, ih]
      by_cases h : other = object
      · rw [h, find?_both, if_pos List.mem_cons_self]
        rfl
      · rw [find?_both_of_ne h, Option.none_or]
        exact if_congr (by simp [Ne.symm h]) rfl rfl

theorem getOrAdd_ofObjects {objects : List ObjectShape} {object : ObjectShape}
    (h : object ∈ objects) (direction : Direction) :
    getOrAdd object direction (ofObjects objects) =
      (.ofObject object direction, ofObjects objects) :=
  getOrAdd_of_find? (by rw [find?_ofObjects, if_pos h])

/-! ## Warming -/

theorem warmObject_ofObjects_of_mem {objects : List ObjectShape} {object : ObjectShape}
    (h : object ∈ objects) : (ofObjects objects).warmObject object = ofObjects objects := by
  rw [warmObject, getOrAdd_ofObjects h, getOrAdd_ofObjects h]

/-- An object that was not asked for before is asked for in both directions. -/
theorem warmObject_ofObjects_of_not_mem {objects : List ObjectShape} {object : ObjectShape}
    (h : object ∉ objects) :
    (ofObjects objects).warmObject object = ofObjects (objects ++ [object]) := by
  have hnone (direction : Direction) : (ofObjects objects).find? object direction = none := by
    rw [find?_ofObjects, if_neg h]
  rw [warmObject, getOrAdd_of_find?_eq_none (hnone .decode), getOrAdd_of_find?_eq_none]
  · simp [ofObjects, both]
  · rw [find?_append, hnone]
    simp [find?]

theorem foldl_warmObject_of_subset {seen : List ObjectShape} :
    ∀ {objects : List ObjectShape}, (∀ object ∈ objects, object ∈ seen) →
      objects.foldl warmObject (ofObjects seen) = ofObjects seen
  | [], _ => rfl
  | object :: objects, h => by
      obtain ⟨hobject, hobjects⟩ := List.forall_mem_cons.mp h
      rw [List.foldl_cons, warmObject_ofObjects_of_mem hobject]
      exact foldl_warmObject_of_subset hobjects

/-- After warming with some objects, these are remembered beside those before, each once. -/
theorem exists_foldl_warmObject : ∀ (objects : List ObjectShape) {seen : List ObjectShape},
    seen.Nodup → ∃ all : List ObjectShape, all.Nodup ∧
      (∀ object, object ∈ all ↔ object ∈ seen ∨ object ∈ objects) ∧
      objects.foldl warmObject (ofObjects seen) = ofObjects all
  | [], seen, hseen => ⟨seen, hseen, fun _ => by simp, rfl⟩
  | object :: objects, seen, hseen => by
      rw [List.foldl_cons]
      by_cases hobject : object ∈ seen
      · obtain ⟨all, hall, hmem, heq⟩ := exists_foldl_warmObject objects hseen
        refine ⟨all, hall, fun o => ?_, by rw [warmObject_ofObjects_of_mem hobject, heq]⟩
        rw [hmem, List.mem_cons]
        grind
      · have hnext : (seen ++ [object]).Nodup := List.nodup_append.mpr
          ⟨hseen, List.nodup_singleton _, fun a ha b hb hab =>
            hobject (List.mem_singleton.mp hb ▸ hab ▸ ha)⟩
        obtain ⟨all, hall, hmem, heq⟩ := exists_foldl_warmObject objects hnext
        refine ⟨all, hall, fun o => ?_, by rw [warmObject_ofObjects_of_not_mem hobject, heq]⟩
        rw [hmem, List.mem_append, List.mem_singleton, List.mem_cons, or_assoc]

end Cache

/-! ## The objects of a table -/

theorem Table.mem_objects_iff {table : Table} {object : ObjectShape} :
    object ∈ table.entries.flatMap (fun e => e.2.objects) ↔ object.shape ∈ table.parts := by
  simp only [parts, List.mem_flatMap, Shape.mem_objects_iff]

namespace Codec

open Cache

/-- An operation within remembered objects, those of the table among them, leaves the cache as it
is. -/
theorem exists_yields_perform_ofObjects {table : Table} {objects : List ObjectShape}
    (htable : ∀ object : ObjectShape, object.shape ∈ table.parts → object ∈ objects)
    {op : Operation} (hclear : op ≠ .clear) (hop : op.Within (· ∈ objects)) :
    ∃ a, Yields (· = ofObjects objects) (perform table op) a := by
  refine exists_yields_perform_of_within htable (fun object direction hobject => ?_) ?_ hop
    fun h => absurd h hclear
  · rintro _ rfl
    rw [getOrAdd_ofObjects hobject]
    exact ⟨rfl, rfl⟩
  · rintro _ rfl
    exact foldl_warmObject_of_subset fun object hobject =>
      htable object (Table.mem_objects_iff.mp hobject)

theorem performAll_ofObjects {table : Table} {objects : List ObjectShape}
    (htable : ∀ object : ObjectShape, object.shape ∈ table.parts → object ∈ objects)
    {ops : List Operation} (hops : ∀ op ∈ ops, op ≠ .clear ∧ op.Within (· ∈ objects)) :
    (performAll table ops (.ofObjects objects)).2 = .ofObjects objects := by
  have hstep (op : Operation) (hop : op ∈ ops) :
      Yields (· = ofObjects objects) (perform table op)
        (perform table op (.ofObjects objects)).1 :=
    .of_exists (exists_yields_perform_ofObjects htable (hops op hop).1 (hops op hop).2) rfl
  exact (Yields.mapM_of_mem hstep (.ofObjects objects) rfl).2

/-- Warming remembers the two field maps of each object nested in an entry of the table, and nothing
else.  From then on no operation changes the cache, be it answered with a value or not, unless it
clears the cache or brings objects of its own. -/
theorem warm_complete (table : Table) {ops : List Operation}
    (hops : ∀ op ∈ ops, op ≠ .clear ∧ op.Within (·.shape ∈ table.parts)) :
    ∃ objects : List ObjectShape,
      objects.Nodup ∧ (∀ object, object ∈ objects ↔ object.shape ∈ table.parts) ∧
        Cache.empty.warm table = .ofObjects objects ∧
        (Cache.empty.warm table).size = 2 * objects.length ∧
        (performAll table ops (Cache.empty.warm table)).2 = Cache.empty.warm table := by
  obtain ⟨objects, hnodup, hmem, hwarm⟩ :=
    exists_foldl_warmObject (table.entries.flatMap fun e => e.2.objects) List.nodup_nil
  have hobjects (object : ObjectShape) : object ∈ objects ↔ object.shape ∈ table.parts := by
    rw [hmem, Table.mem_objects_iff]
    simp
  have hwarm : Cache.empty.warm table = .ofObjects objects := hwarm
  refine ⟨objects, hnodup, hobjects, hwarm, by rw [hwarm, size_ofObjects], ?_⟩
  have hwithin : (fun object : ObjectShape => object.shape ∈ table.parts) = (· ∈ objects) :=
    funext fun object => propext (hobjects object).symm
  rw [hwithin] at hops
  rw [hwarm]
  exact performAll_ofObjects (fun object => (hobjects object).mpr) hops

/-- A tree that is decoded in vain, one that is encoded and one that is decoded in a list. -/
theorem warm_complete_binaryTrees :
    let ops : List Operation := [
      .decode "Tree" (.map [(.text "left", .map []), (.text "right", .int 1)]),
      .encode "Tree" (.map [(.text "right", .null), (.int 1, .map [])]),
      .convert .decode (.array (.ref "Branch")) (.list [.map [], .null]),
      .warm]
    (∀ op ∈ ops, op ≠ .clear ∧ op.Within (·.shape ∈ Table.binaryTrees.parts)) ∧
      ∃ objects : List ObjectShape,
        objects.Nodup ∧
          (∀ object, object ∈ objects ↔ object.shape ∈ Table.binaryTrees.parts) ∧
          Cache.empty.warm Table.binaryTrees = .ofObjects objects ∧
          (Cache.empty.warm Table.binaryTrees).size = 2 * objects.length ∧
          (performAll Table.binaryTrees ops (Cache.empty.warm Table.binaryTrees)).2 =
            Cache.empty.warm Table.binaryTrees := by
  intro ops
  have hops : ∀ op ∈ ops, op ≠ .clear ∧ op.Within (·.shape ∈ Table.binaryTrees.parts) := by
    simp [ops, Operation.Within, Shape.parts, ObjectShape.shape]
  exact ⟨hops, warm_complete Table.binaryTrees hops⟩

end Codec

end Conform
