import Conform.Conversion.Rejection
import Conform.FieldMap
import Conform.Shape.Describe
import Conform.Text.Blank
import Conform.Text.Pattern
import Conform.Calendar.Iso

/-!
# Conversion of values

`Conversion.run` takes a value and a shape side by side and gives the converted value or the first
reason why there is none.  Fields are taken in the order in which the object declares them, then
other keys in the order of the input; the members of a union are tried in order, and a rejection of
one of them only leads to the next.

The computation is written for any way of looking up field maps: `FieldMap.ofObject` computes them
afresh, `Cache.getOrAdd` remembers them.

Recursion through references is bounded by `Conversion.budget`, which is larger than the number of
steps of any conversion that ends: on one value no part of a shape comes up twice, and going into a
value makes it less high.  A conversion that uses up its budget would never have ended.
-/

namespace Conform

/-- Why a conversion gives no value. -/
inductive Stop where
  /-- A value does not have the expected shape. -/
  | rejected (r : Rejection)
  /-- A reference to a name that the table does not have. -/
  | unknownType (name : String)
  /-- The shape refers to itself without end. -/
  | unbounded
  /-- A value with an overlong integer would have to be put into words. -/
  | numeral

namespace Conversion

/-! ## Scalars and dates -/

/-- Is the value a scalar of the kind?  Truth values are no numbers. -/
def isPrimitive : Primitive → Value → Bool
  | .string, .text _ => true
  | .number, .int _ => true
  | .number, .float _ => true
  | .boolean, .bool _ => true
  | _, _ => false

/-- One decimal digit of any script, at least once. -/
def someDigits : Pattern := .plus (.one Text.isDecimal)

def optionalSign : Pattern := .opt (.one fun c => c == '-' || c == '+')

def point : Pattern := .one (· == '.')

/-- The texts that read as a number, with white space around it. -/
def numericText : Pattern :=
  .all [
    .star (.one Text.isBlank),
    optionalSign,
    .alt (.all [someDigits, .opt point, .star (.one Text.isDecimal)]) (.seq point someDigits),
    .opt (.all [.one (fun c => c == 'e' || c == 'E'), optionalSign, someDigits]),
    .star (.one Text.isBlank)]

/-- The point in time that a value stands for.  A number is none, not even as text. -/
def momentOf? : Value → Option Moment
  | .moment m => some m
  | .date d => some (.ofDate d)
  | .text s => if numericText.fits s.toList then none else Moment.ofIso? s.toList
  | _ => none

/-- A point in time on the far side of a conversion. -/
def convertMoment (direction : Direction) (m : Moment) : Value :=
  match direction with
  | .decode => .moment m
  | .encode => .text (String.ofList m.iso)

/-! ## Parts of sequences, unions and objects -/

abbrev Outcome := Except Stop Value

/-- The outcome for a value that does not have the expected shape. -/
def reject (place : Place) (expected : String) (actual : Value) : Stop :=
  if actual.isWritable then
    .rejected ⟨expected, actual, place.key, place.parent, place.path⟩
  else .numeral

variable {m : Type → Type} [Monad m]

/-- Converts the elements of a sequence in order, counting positions from `i` on. -/
def convertItems (step : Nat → Value → m Outcome) : Nat → List Value → m (Except Stop (List Value))
  | _, [] => pure (.ok [])
  | i, x :: xs => do
    match ← step i x with
    | .error stop => pure (.error stop)
    | .ok y =>
      match ← convertItems step (i + 1) xs with
      | .error stop => pure (.error stop)
      | .ok ys => pure (.ok (y :: ys))

/-- Tries shapes in order and takes the first that accepts; `none` if all of them reject. -/
def convertFirst (step : Shape → m Outcome) : List Shape → m (Except Stop (Option Value))
  | [] => pure (.ok none)
  | s :: ss => do
    match ← step s with
    | .ok y => pure (.ok (some y))
    | .error (.rejected _) => convertFirst step ss
    | .error stop => pure (.error stop)

/-- Converts the declared fields in order.  A field that its map does not have is converted as
`missing`, and a result `missing` is left out. -/
def convertDeclared (step : Place → Value → Shape → m Outcome) (place : Place) (parent : String)
    (input : Value.Entries) : Value.Entries → FieldMap → m (Except Stop Value.Entries)
  | done, [] => pure (.ok done)
  | done, (name, target) :: rest => do
    let value := (Value.get? input (.text name)).getD .missing
    match ← step (place.atField name parent) value target.shape with
    | .error stop => pure (.error stop)
    | .ok .missing => convertDeclared step place parent input done rest
    | .ok y =>
      convertDeclared step place parent input (Value.put done (.text target.name) y) rest

/-- Converts the entries whose keys are not declared, in order, under their own keys. -/
def convertOthers (step : Place → Value → m Outcome) (place : Place) (parent : String)
    (fields : FieldMap) : Value.Entries → Value.Entries → m (Except Stop Value.Entries)
  | done, [] => pure (.ok done)
  | done, (key, value) :: rest =>
    if fields.declares key then convertOthers step place parent fields done rest
    else match place.atKey? key parent with
      | none => pure (.error .numeral)
      | some inner => do
        match ← step inner value with
        | .error stop => pure (.error stop)
        | .ok y => convertOthers step place parent fields (Value.put done key y) rest

/-! ## The whole -/

/-- Converts a value at a place to a shape in at most so many nested steps.  `via` is the name by
which the shape was reached, if it was reached by reference. -/
def convert (lookUp : ObjectShape → Direction → m FieldMap) (table : Table)
    (direction : Direction) :
    Nat → Option String → Place → Value → Shape → m Outcome
  | 0, _, _, _, _ => pure (.error .unbounded)
  | steps + 1, via, place, value, shape =>
    let inner := convert lookUp table direction steps none
    match shape with
    | .ref name =>
      match table.get? name with
      | some target => convert lookUp table direction steps (some name) place value target
      | none => pure (.error (.unknownType name))
    | .any => pure (.ok value)
    | .primitive kind =>
      if isPrimitive kind value then pure (.ok value)
      else pure (.error (reject place shape.describe value))
    | .literals values =>
      match value with
      | .text s =>
        if s ∈ values then pure (.ok value) else pure (.error (reject place shape.describe value))
      | _ => pure (.error (reject place shape.describe value))
    | .null =>
      match value with
      | .null => pure (.ok .null)
      | _ => pure (.error (reject place shape.describe value))
    | .absent =>
      match value with
      | .missing => pure (.ok .missing)
      | _ => pure (.error (reject place shape.describe value))
    | .never => pure (.error (reject place shape.describe value))
    | .date =>
      match value with
      | .null => pure (.ok .null)
      | _ =>
        match momentOf? value with
        | some moment => pure (.ok (convertMoment direction moment))
        | none => pure (.error (reject place shape.describe value))
    | .array items =>
      match value with
      | .list xs | .tuple xs => do
        let converted ← convertItems (fun i x => inner (place.atIndex i) x items) 0 xs
        pure (converted.map .list)
      | _ => pure (.error (reject place shape.describe value))
    | .union members => do
      match ← convertFirst (fun s => inner place value s) members with
      | .error stop => pure (.error stop)
      | .ok (some y) => pure (.ok y)
      | .ok none => pure (.error (reject place shape.describe value))
    | .object label properties additional =>
      match value with
      | .map entries => do
        let parent := via.getD ""
        let fields ← lookUp ⟨label, properties, additional⟩ direction
        match ← convertDeclared inner place parent entries [] fields with
        | .error stop => pure (.error stop)
        | .ok done => do
          let whole ←
            convertOthers (fun p v => inner p v additional) place parent fields done entries
          pure (whole.map .map)
      | _ =>
        pure (.error (reject place (match via with
          | some name => if name = "" then "object" else name
          | none => "object") value))

/-- A number of nested steps that no conversion which ends can exceed. -/
def budget (table : Table) (value : Value) (shape : Shape) : Nat :=
  (value.height + 2) * (table.size + shape.size + 1)

/-- Converts a value to a shape, looking up field maps in a given way. -/
def runWith (lookUp : ObjectShape → Direction → m FieldMap) (table : Table) (direction : Direction)
    (value : Value) (shape : Shape) : m Outcome :=
  convert lookUp table direction (budget table value shape) none .top value shape

/-- Converts a value to a shape. -/
def run (table : Table) (direction : Direction) (value : Value) (shape : Shape) : Outcome :=
  Id.run (runWith (fun o d => pure (FieldMap.ofObject o d)) table direction value shape)

end Conversion

def Stop.message? : Stop → Option String
  | .rejected r => some r.message
  | .unknownType name => some (unknownReferenceMessage name none)
  | .unbounded | .numeral => none

end Conform
