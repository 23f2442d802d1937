/-!
# Shapes

A shape says what a value has to look like: a scalar of some kind, one of several texts, an array,
one of several shapes, an object with declared fields, or the shape that a table holds under a name.

An object declares its fields with two names each, the one of the serialized tree and the one of
the typed value, and has a shape for the keys it does not declare.  It also carries a `label`.  Two
objects with the same fields but different labels are different objects: memory of what was
computed for one is not shared with the other.

`Shape.object?` is how objects are made; it refuses a list of fields in which a name occurs twice.
-/

namespace Conform

/-- The kinds of scalars. -/
inductive Primitive where
  | string | number | boolean
deriving DecidableEq

/-- A declared field: its two names, what its value looks like and a remark for the reader. -/
structure Property (σ : Type) where
  serialized : String
  typed : String
  shape : σ
  description : Option String
deriving DecidableEq

/-- What a value has to look like. -/
inductive Shape where
  /-- A scalar of a kind. -/
  | primitive (kind : Primitive)
  /-- One of these texts. -/
  | literals (values : List String)
  /-- A sequence of elements of one shape. -/
  | array (items : Shape)
  /-- The first of these shapes that fits. -/
  | union (members : List Shape)
  /-- A map with declared fields; any other key goes by the last shape. -/
  | object (label : Nat) (properties : List (Property Shape)) (additional : Shape)
  /-- The shape that the table holds under this name. -/
  | ref (name : String)
  /-- A point in time. -/
  | date
  /-- Anything. -/
  | any
  /-- Null alone. -/
  | null
  /-- A field that is not there. -/
  | absent
  /-- No value at all. -/
  | never

namespace Shape

/-- A field that may be missing. -/
def optional (s : Shape) : Shape := .union [.absent, s]

/-! ## Objects -/

/-- Which of its two names a field is called by. -/
inductive NameRole where
  | serialized | typed
deriving DecidableEq

/-- A name that occurs twice among the fields of an object. -/
structure RepeatedName where
  role : NameRole
  name : String
deriving DecidableEq

def nameIn (role : NameRole) (p : Property Shape) : String :=
  match role with
  | .serialized => p.serialized
  | .typed => p.typed

/-- The first name of a list that also occurs before. -/
def firstRepeated? (seen : List String) : List String → Option String
  | [] => none
  | name :: rest => if name ∈ seen then some name else firstRepeated? (name :: seen) rest

/-- The first repeated name of a list of fields, serialized names before typed ones. -/
def repeatedName? (properties : List (Property Shape)) : Option RepeatedName :=
  match firstRepeated? [] (properties.map (nameIn .serialized)) with
  | some name => some ⟨.serialized, name⟩
  | none => (firstRepeated? [] (properties.map (nameIn .typed))).map (⟨.typed, ·⟩)

/-- An object with these fields, if no name occurs twice. -/
def object? (label : Nat) (properties : List (Property Shape)) (additional : Shape) :
    Except RepeatedName Shape :=
  match repeatedName? properties with
  | some repeated => .error repeated
  | none => .ok (.object label properties additional)

def RepeatedName.message (r : RepeatedName) : String :=
  let role := match r.role with
    | .serialized => "serialized"
    | .typed => "typed"
  "Duplicate " ++ role ++ " name '" ++ r.name ++ "' in object descriptor"

/-! ## Equality -/

mutual
/-- Equality as a computation, labels included. -/
def beq : Shape → Shape → Bool
  | .primitive k, .primitive l => k == l
  | .literals xs, .literals ys => xs == ys
  | .array s, .array t => beq s t
  | .union ss, .union ts => beqList ss ts
  | .object l ps a, .object k qs b => l == k && beqProperties ps qs && beq a b
  | .ref x, .ref y => x == y
  | .date, .date | .any, .any | .null, .null | .absent, .absent | .never, .never => true
  | _, _ => false

def beqList : List Shape → List Shape → Bool
  | [], [] => true
  | s :: ss, t :: ts => beq s t && beqList ss ts
  | _, _ => false

def beqProperties : List (Property Shape) → List (Property Shape) → Bool
  | [], [] => true
  | ⟨s, t, sh, d⟩ :: ps, q :: qs =>
    s == q.serialized && t == q.typed && beq sh q.shape && d == q.description &&
      beqProperties ps qs
  | _, _ => false
end

mutual
theorem beq_iff : ∀ s t : Shape, beq s t = true ↔ s = t
  | .primitive k, t => by cases t <;> simp [beq]
  | .literals xs, t => by cases t <;> simp [beq]
  | .array s, t => by cases t <;> simp [beq, beq_iff s]
  | .union ss, t => by cases t <;> simp [beq, beqList_iff ss]
  | .object l ps a, t => by
    cases t <;> simp [beq, beqProperties_iff ps, beq_iff a, and_assoc]
  | .ref x, t => by cases t <;> simp [beq]
  | .date, t => by cases t <;> simp [beq]
  | .any, t => by cases t <;> simp [beq]
  | .null, t => by cases t <;> simp [beq]
  | .absent, t => by cases t <;> simp [beq]
  | .never, t => by cases t <;> simp [beq]

theorem beqList_iff : ∀ ss ts : List Shape, beqList ss ts = true ↔ ss = ts
  | [], ts => by cases ts <;> simp [beqList]
  | s :: ss, ts => by cases ts <;> simp [beqList, beq_iff s, beqList_iff ss]

theorem beqProperties_iff :
    ∀ ps qs : List (Property Shape), beqProperties ps qs = true ↔ ps = qs
  | [], qs => by cases qs <;> simp [beqProperties]
  | ⟨s, t, sh, d⟩ :: ps, qs => by
    cases qs with
    | nil => simp [beqProperties]
    | cons q qs =>
      cases q
      simp [beqProperties, beq_iff sh, beqProperties_iff ps, and_assoc]
end

instance : DecidableEq Shape := fun s t => decidable_of_iff (beq s t = true) (beq_iff s t)

/-! ## Parts -/

mutual
/-- The names that a shape refers to, depth first; references are not followed. -/
def references : Shape → List String
  | .ref name => [name]
  | .array s => s.references
  | .union ss => referencesOfList ss
  | .object _ ps a => referencesOfProperties ps ++ a.references
  | _ => []

def referencesOfList : List Shape → List String
  | [] => []
  | s :: ss => s.references ++ referencesOfList ss

def referencesOfProperties : List (Property Shape) → List String
  | [] => []
  | ⟨_, _, s, _⟩ :: ps => s.references ++ referencesOfProperties ps
end

mutual
/-- The number of shapes in a shape, itself included. -/
def size : Shape → Nat
  | .array s => 1 + s.size
  | .union ss => 1 + sizeOfList ss
  | .object _ ps a => 1 + sizeOfProperties ps + a.size
  | _ => 1

def sizeOfList : List Shape → Nat
  | [] => 0
  | s :: ss => s.size + sizeOfList ss

def sizeOfProperties : List (Property Shape) → Nat
  | [] => 0
  | ⟨_, _, s, _⟩ :: ps => s.size + sizeOfProperties ps
end

end Shape

/-- An object apart from the other shapes: its label, fields and shape for other keys. -/
structure ObjectShape where
  label : Nat
  properties : List (Property Shape)
  additional : Shape
deriving DecidableEq

namespace Shape

mutual
/-- The objects nested in a shape, outer before inner; references are not followed. -/
def objects : Shape → List ObjectShape
  | .object l ps a => ⟨l, ps, a⟩ :: (objectsOfProperties ps ++ a.objects)
  | .array s => s.objects
  | .union ss => objectsOfList ss
  | _ => []

def objectsOfList : List Shape → List ObjectShape
  | [] => []
  | s :: ss => s.objects ++ objectsOfList ss

def objectsOfProperties : List (Property Shape) → List ObjectShape
  | [] => []
  | ⟨_, _, s, _⟩ :: ps => s.objects ++ objectsOfProperties ps
end

mutual
/-- The same shape with its objects labelled in order from a number on, and the next number. -/
def label (next : Nat) : Shape → Shape × Nat
  | .object _ ps a =>
    let (ps, n) := labelProperties (next + 1) ps
    let (a, n) := label n a
    (.object next ps a, n)
  | .array s =>
    let (s, n) := label next s
    (.array s, n)
  | .union ss =>
    let (ss, n) := labelList next ss
    (.union ss, n)
  | s => (s, next)

def labelList (next : Nat) : List Shape → List Shape × Nat
  | [] => ([], next)
  | s :: ss =>
    let (s, n) := label next s
    let (ss, n) := labelList n ss
    (s :: ss, n)

def labelProperties (next : Nat) : List (Property Shape) → List (Property Shape) × Nat
  | [] => ([], next)
  | ⟨x, y, s, d⟩ :: ps =>
    let (s, n) := label next s
    let (ps, n) := labelProperties n ps
    (⟨x, y, s, d⟩ :: ps, n)
end

end Shape

end Conform
