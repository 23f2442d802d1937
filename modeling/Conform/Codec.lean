import Conform.Conversion.Basic
import Conform.Document
import Conform.Json.Printer

/-!
# Codecs

A codec converts between texts, trees and typed values by the types of one table, and remembers
field maps from one operation to the next.  `Codec.perform` does one operation; what it answers
depends on the table alone, and what it remembers is the new cache.

A type has to be in the table before anything is converted.  Text is read before that is looked up.
-/

namespace Conform

/-- Why an operation gives no value. -/
inductive Failure where
  /-- The text has no value. -/
  | unreadable (fault : Document.Fault)
  /-- The conversion stopped. -/
  | stopped (stop : Stop)
  /-- The value has no text with this indentation. -/
  | unwritable (indent : Option Int) (reason : Json.Unwritable)

/-- Why there is no value, unless it is a limit of the program. -/
def Failure.message? : Failure → Option String
  | .unreadable fault => if fault.isMalformed then some fault.message else none
  | .stopped stop => stop.message?
  | .unwritable indent reason => reason.message? indent

namespace Codec

def parseText (format : Format) (text : String) : Except Failure Value :=
  (Document.read format text).mapError .unreadable

def renderText (indent : Option Int) (v : Value) : Except Failure String :=
  (Json.render indent v).mapError (.unwritable indent)

/-- Converts a value by a named type, which has to be in the table. -/
def convertAs (table : Table) (direction : Direction) (type : String) (v : Value) :
    StateM Cache Conversion.Outcome :=
  match table.get? type with
  | none => pure (.error (.unknownType type))
  | some _ => Conversion.runWith Cache.getOrAdd table direction v (.ref type)

inductive Operation where
  | decode (type : String) (v : Value)
  | encode (type : String) (v : Value)
  | decodeText (type : String) (format : Format) (text : String)
  | encodeText (type : String) (indent : Option Int) (v : Value)
  /-- Convert by a shape. -/
  | convert (direction : Direction) (shape : Shape) (v : Value)
  /-- The field map of an object. -/
  | fieldMap (direction : Direction) (object : ObjectShape)
  /-- Remember the field maps of all objects of the table. -/
  | warm
  /-- Forget all field maps. -/
  | clear

inductive Answer where
  | value (result : Except Failure Value)
  | text (result : Except Failure String)
  | fields (map : FieldMap)
  | done

/-- Does one operation by the types of a table. -/
def perform (table : Table) : Operation → StateM Cache Answer
  | .decode type v => do
    return .value ((← convertAs table .decode type v).mapError .stopped)
  | .encode type v => do
    return .value ((← convertAs table .encode type v).mapError .stopped)
  | .decodeText type format text =>
    match parseText format text with
    | .error failure => return .value (.error failure)
    | .ok v => do return .value ((← convertAs table .decode type v).mapError .stopped)
  | .encodeText type indent v => do
    match ← convertAs table .encode type v with
    | .error stop => return .text (.error (.stopped stop))
    | .ok tree => return .text (renderText indent tree)
  | .convert direction shape v => do
    return .value ((← Conversion.runWith Cache.getOrAdd table direction v shape).mapError .stopped)
  | .fieldMap direction object => do return .fields (← Cache.getOrAdd object direction)
  | .warm => do
    modify fun c => c.warm table
    return .done
  | .clear => do
    set Cache.empty
    return .done

def performAll (table : Table) (operations : List Operation) : StateM Cache (List Answer) :=
  operations.mapM (perform table)

end Codec

end Conform
