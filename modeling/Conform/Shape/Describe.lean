import Conform.Shape.Basic

/-!
# What a shape expects, in words

`Shape.describe` names the shape for a message.  A reference goes by its name, and a choice between
nothing and one shape is called optional.
-/

namespace Conform

def Primitive.name : Primitive → String
  | .string => "string"
  | .number => "number"
  | .boolean => "boolean"

def Primitive.ofName? : String → Option Primitive
  | "string" => some .string
  | "number" => some .number
  | "boolean" => some .boolean
  | _ => none

namespace Shape

mutual
/-- What a shape expects, in words. -/
def describe : Shape → String
  | .ref name => name
  | .primitive kind => kind.name
  | .literals values =>
    "one of [" ++ ", ".intercalate (values.map fun v => "\"" ++ v ++ "\"") ++ "]"
  | .union [.absent, s] => "an optional " ++ s.describe
  | .union ss => "one of [" ++ ", ".intercalate (describeAll ss) ++ "]"
  | .array _ => "array"
  | .object .. => "object"
  | .date => "Date"
  | .null => "null"
  | .absent => "nothing (field must be absent)"
  | .never => "nothing"
  | .any => "any value"

def describeAll : List Shape → List String
  | [] => []
  | s :: ss => s.describe :: describeAll ss
end

end Shape

end Conform
