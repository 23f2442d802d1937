import Conform.Path
import Conform.Value.Display

/-!
# Places and rejections

A `Place` is where in its input a conversion stands: the path from the value it was given, the key
of the field that holds the value and the name of the type that declares the field.  A `Rejection`
is a value at a place that does not have the shape expected of it.
-/

namespace Conform

/-- Where the value being converted stands.  Inside a sequence, the key and the parent stay those
of the field that holds the sequence. -/
structure Place where
  key : Option Value
  parent : String
  path : List Segment

namespace Place

/-- The place of the value that a conversion is given. -/
def top : Place := ⟨none, "", []⟩

def atIndex (p : Place) (i : Nat) : Place := ⟨p.key, p.parent, p.path ++ [.index i]⟩

def atField (p : Place) (name parent : String) : Place :=
  ⟨some (.text name), parent, p.path ++ [.key name]⟩

/-- The place under a key of a map, if the key can be written. -/
def atKey? (p : Place) (key : Value) (parent : String) : Option Place :=
  key.keyText?.map fun text => ⟨some key, parent, p.path ++ [.key text]⟩

end Place

/-- A value that does not have the expected shape. -/
structure Rejection where
  expected : String
  actual : Value
  key : Option Value
  parent : String
  path : List Segment

namespace Rejection

def pathText (r : Rejection) : String := formatPath r.path

/-- The key in words, unless there is none or it is null. -/
def keyPart (r : Rejection) : List Char :=
  match r.key with
  | none | some .null => []
  | some key => " for key \"".toList ++ key.keyChars ++ ['"']

/-- The type in words, if there is one. -/
def parentPart (r : Rejection) : List Char :=
  if r.parent = "" then [] else " on ".toList ++ r.parent.toList

/-- The path in words, if it has a step. -/
def pathPart (r : Rejection) : List Char :=
  if r.path = [] then [] else " at ".toList ++ r.pathText.toList

def message (r : Rejection) : String :=
  String.ofList ("Invalid value".toList ++ r.keyPart ++ r.parentPart ++ r.pathPart ++
    ". Expected ".toList ++ r.expected.toList ++ " but got ".toList ++ r.actual.displayText)

/-- Can the rejection be put into words? -/
def isWritable (r : Rejection) : Bool :=
  r.actual.isWritable && (r.key.map Value.isWritable).getD true

end Rejection

end Conform
