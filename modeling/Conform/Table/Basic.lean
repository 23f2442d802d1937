import Conform.Shape.Basic
import Conform.Text.Quoted

/-!
# Tables of named shapes

A table gives shapes to names, in order.  Being a `Table` means that the names are distinct, that
every reference nested in an entry is a name of the table, and that no name leads back to itself
through bare references alone.  `Table.build` checks this once, in that order, and reports the
first fault, so that a look-up made later on behalf of an entry cannot fail.
-/

namespace Conform

abbrev NamedShapes := List (String × Shape)

namespace NamedShapes

def names (es : NamedShapes) : List String := es.map (·.1)

def get? (es : NamedShapes) (name : String) : Option Shape :=
  (es.find? fun e => e.1 == name).map (·.2)

/-- Writes a shape under a name: over the one of the same name, or at the end. -/
def put (es : NamedShapes) (name : String) (shape : Shape) : NamedShapes :=
  match es with
  | [] => [(name, shape)]
  | e :: rest => if e.1 == name then (name, shape) :: rest else e :: put rest name shape

/-- The names and shapes that result from writing pairs one after the other. -/
def ofList (pairs : List (String × Shape)) : NamedShapes :=
  pairs.foldl (fun es e => put es e.1 e.2) []

theorem names_put (es : NamedShapes) (name : String) (shape : Shape) :
    names (put es name shape) = if name ∈ names es then names es else names es ++ [name] := by
  induction es with
  | nil => simp [put, names]
  | cons e rest ih =>
    simp only [put]
    by_cases h : e.1 = name
    · simp [names, h]
    · simp only [beq_iff_eq, h, if_false]
      simp only [names, List.map_cons, List.mem_cons] at ih ⊢
      rw [ih]
      by_cases hm : name ∈ rest.map (·.1) <;> simp [hm, Ne.symm h]

theorem nodup_put {es : NamedShapes} (h : (names es).Nodup) (name : String) (shape : Shape) :
    (names (put es name shape)).Nodup := by
  rw [names_put]
  split
  · exact h
  · rename_i hn
    rw [List.nodup_append]
    refine ⟨h, by simp, ?_⟩
    intro a ha b hb hab
    simp only [List.mem_singleton] at hb
    exact hn (hb ▸ hab ▸ ha)

theorem nodup_foldl (pairs : List (String × Shape)) :
    ∀ es : NamedShapes, (names es).Nodup →
      (names (pairs.foldl (fun es e => put es e.1 e.2) es)).Nodup := by
  induction pairs with
  | nil => intro es h; exact h
  | cons e rest ih => intro es h; exact ih _ (nodup_put h e.1 e.2)

theorem nodup_ofList (pairs : List (String × Shape)) : (names (ofList pairs)).Nodup :=
  nodup_foldl pairs [] (by simp [names])

/-- The first reference that is no name, with the entry that holds it. -/
def firstUnknown? (es : NamedShapes) : Option (String × String) :=
  es.findSome? fun e =>
    (e.2.references.find? fun r => !(names es).contains r).map fun r => (r, e.1)

/-- Follows bare references from a shape on.  The result is the names on the way, if one of them
comes up again; it then stands at the end a second time. -/
def revisit? (es : NamedShapes) : Nat → List String → Shape → Option (List String)
  | steps + 1, chain, .ref name =>
    if name ∈ chain then some (chain ++ [name])
    else match get? es name with
      | some shape => revisit? es steps (chain ++ [name]) shape
      | none => none
  | _, _, _ => none

/-- The first chain of bare references that revisits a name, over the entries in order. -/
def firstCycle? (es : NamedShapes) : Option (List String) :=
  es.findSome? fun e => revisit? es (es.length + 1) [e.1] e.2

end NamedShapes

/-- Named shapes whose references can be resolved. -/
structure Table where
  entries : NamedShapes
  distinct : entries.names.Nodup
  closed : entries.firstUnknown? = none
  grounded : entries.firstCycle? = none

/-- Why named shapes make no table. -/
inductive TableFault where
  /-- An entry refers to a name that is not there. -/
  | unknownReference (name referrer : String)
  /-- Bare references lead from a name back to one of the chain. -/
  | cycle (chain : List String)
deriving DecidableEq

namespace Table

/-- The table of named shapes, or the first fault. -/
def build (pairs : List (String × Shape)) : Except TableFault Table :=
  let es := NamedShapes.ofList pairs
  match closed : es.firstUnknown? with
  | some (name, referrer) => .error (.unknownReference name referrer)
  | none =>
    match grounded : es.firstCycle? with
    | some chain => .error (.cycle chain)
    | none => .ok ⟨es, NamedShapes.nodup_ofList pairs, closed, grounded⟩

def empty : Table := ⟨[], by simp [NamedShapes.names], rfl, rfl⟩

def names (t : Table) : List String := t.entries.names

def get? (t : Table) (name : String) : Option Shape := t.entries.get? name

def size (t : Table) : Nat := t.entries.foldl (fun n e => n + e.2.size) 0

/-- The names in the order of their characters. -/
def sortedNames (t : Table) : List String := t.names.mergeSort fun a b => decide (a ≤ b)

/-- A line that lists the names. -/
def summary (t : Table) : String :=
  "DescriptorTable([" ++
    ", ".intercalate (t.sortedNames.map fun n => String.ofList (Text.quoted n.toList)) ++ "])"

end Table

/-- That a name is not in the table, and which entry refers to it, if one does. -/
def unknownReferenceMessage (name : String) (referrer : Option String) : String :=
  let place := match referrer with
    | some r => if r = "" then "" else " (referenced from '" ++ r ++ "')"
    | none => ""
  "Unknown type reference '" ++ name ++ "'" ++ place

def TableFault.message : TableFault → String
  | .unknownReference name referrer => unknownReferenceMessage name (some referrer)
  | .cycle chain =>
    "Reference cycle without a concrete descriptor: " ++ " -> ".intercalate chain

end Conform
