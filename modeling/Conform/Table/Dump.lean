import Conform.Shape.Describe
import Conform.Value.Basic

/-!
# Shapes as plain trees

`Shape.dump` writes a shape as the tree that a table document has for it: a map with the kind and
all declared fields, defaults included.  Labels are not part of it.
-/

namespace Conform

namespace Shape

/-- A map with text keys. -/
def record (fields : List (String × Value)) : Value := .map (fields.map fun f => (.text f.1, f.2))

mutual
/-- A shape as a plain tree. -/
def dump : Shape → Value
  | .primitive kind => record [("kind", .text "primitive"), ("primitive", .text kind.name)]
  | .literals values =>
    record [("kind", .text "literal-set"), ("values", .list (values.map .text))]
  | .array s => record [("kind", .text "array"), ("items", s.dump)]
  | .union ss => record [("kind", .text "union"), ("members", .list (dumpAll ss))]
  | .object _ ps a =>
    record [("kind", .text "object"), ("properties", .list (dumpProperties ps)),
      ("additional", a.dump)]
  | .ref name => record [("kind", .text "ref"), ("name", .text name)]
  | .date => record [("kind", .text "date")]
  | .any => record [("kind", .text "any")]
  | .null => record [("kind", .text "null")]
  | .absent => record [("kind", .text "absent")]
  | .never => record [("kind", .text "never")]

def dumpAll : List Shape → List Value
  | [] => []
  | s :: ss => s.dump :: dumpAll ss

def dumpProperties : List (Property Shape) → List Value
  | [] => []
  | ⟨x, y, s, d⟩ :: ps =>
    record [("serialized_name", .text x), ("typed_name", .text y), ("type", s.dump),
      ("description", (d.map Value.text).getD .null)] :: dumpProperties ps
end

end Shape

end Conform
