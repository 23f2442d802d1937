import Conform.Shape.Basic
import Conform.Value.Basic
import Conform.Table.Basic

/-!
# Field maps and their memory

A field map tells for each input name of an object under which output name its value goes and what
shape the value has.  Decoding reads serialized names and writes typed ones, encoding the reverse.

A `Cache` remembers field maps.  It is keyed by the object, label included, and the direction, and
it is in the order in which the maps were asked for first.  `Cache.warm` asks for both directions of
every object of a table.
-/

namespace Conform

inductive Direction where
  /-- From the serialized tree to the typed value. -/
  | decode
  /-- From the typed value to the serialized tree. -/
  | encode
deriving DecidableEq

def Direction.name : Direction → String
  | .decode => "decode"
  | .encode => "encode"

/-- Where the value of an input field goes, and its shape. -/
structure FieldTarget where
  name : String
  shape : Shape
deriving DecidableEq

/-- The targets of input names, in order of declaration. -/
abbrev FieldMap := List (String × FieldTarget)

namespace FieldMap

/-- Writes a target under a name: over the one of the same name, or at the end. -/
def put (fields : FieldMap) (name : String) (target : FieldTarget) : FieldMap :=
  match fields with
  | [] => [(name, target)]
  | e :: rest => if e.1 == name then (e.1, target) :: rest else e :: put rest name target

/-- The input name of a field and its target in a direction. -/
def entry (direction : Direction) (p : Property Shape) : String × FieldTarget :=
  match direction with
  | .decode => (p.serialized, ⟨p.typed, p.shape⟩)
  | .encode => (p.typed, ⟨p.serialized, p.shape⟩)

def ofObject (object : ObjectShape) (direction : Direction) : FieldMap :=
  object.properties.foldl
    (fun fields p => put fields (entry direction p).1 (entry direction p).2) []

/-- Is the key the input name of a declared field? -/
def declares (fields : FieldMap) (key : Value) : Bool :=
  match key with
  | .text s => fields.any fun e => e.1 == s
  | _ => false

end FieldMap

structure CacheEntry where
  object : ObjectShape
  direction : Direction
  fields : FieldMap
deriving DecidableEq

/-- Field maps that were asked for, the oldest first. -/
structure Cache where
  entries : List CacheEntry
deriving DecidableEq

namespace Cache

def empty : Cache := ⟨[]⟩

def size (c : Cache) : Nat := c.entries.length

/-- The remembered field map of an object in a direction. -/
def find? (c : Cache) (object : ObjectShape) (direction : Direction) : Option FieldMap :=
  (c.entries.find? fun e => decide (e.direction = direction) && decide (e.object = object)).map
    (·.fields)

/-- The field map of an object in a direction, remembered from now on. -/
def getOrAdd (object : ObjectShape) (direction : Direction) : StateM Cache FieldMap := fun c =>
  match c.find? object direction with
  | some fields => (fields, c)
  | none =>
    let fields := FieldMap.ofObject object direction
    (fields, ⟨c.entries ++ [⟨object, direction, fields⟩]⟩)

/-- Remembers both directions of an object. -/
def warmObject (c : Cache) (object : ObjectShape) : Cache :=
  (getOrAdd object .encode (getOrAdd object .decode c).2).2

/-- Remembers both directions of every object nested in the entries of a table. -/
def warm (c : Cache) (table : Table) : Cache :=
  (table.entries.flatMap fun e => e.2.objects).foldl warmObject c

end Cache

end Conform
