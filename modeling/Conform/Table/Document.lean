import Conform.Table.Basic
import Conform.Shape.Describe
import Conform.Shape.TypedName
import Conform.Path
import Conform.Value.Display
import Conform.Yaml.Document

/-!
# Table documents

A table document is a map whose only field `types` maps names to descriptors, and a descriptor is a
map whose field `kind` says which shape it describes and which other fields it has.

`Table.ofTree` reads the tree of a document and collects everything that is wrong with it, each
`Problem` with its location: declared fields in order, then keys that are not declared.  A field's
typed name may be left out if its serialized name is a text; deriving it from anything else is no
problem of the document but ends the reading (`NameFault`).

`Table.ofText` reads a YAML text, of which JSON is meant to be a part, and builds the table.
-/

namespace Conform

/-- What is wrong at a place of a table document. -/
inductive ProblemKind where
  /-- A required field is not there. -/
  | missing
  /-- A key that is not declared. -/
  | extra
  /-- A key that is no text. -/
  | invalidKey
  /-- Not a map of names. -/
  | notAMap
  /-- Not a text. -/
  | notAText
  /-- Bytes that are no text. -/
  | notUtf8
  /-- Not a descriptor. -/
  | notADescriptor
  /-- A descriptor without a kind. -/
  | noKind
  /-- A kind that there is not. -/
  | unknownKind
  /-- A kind of scalar that there is not. -/
  | unknownPrimitive
  /-- Not a list. -/
  | notAList
  /-- Not a field of an object. -/
  | notAProperty
  /-- A name that two fields of an object have. -/
  | repeatedName (repeated : Shape.RepeatedName)
deriving DecidableEq

structure Problem where
  location : List Segment
  kind : ProblemKind
deriving DecidableEq

/-- A serialized name from which no typed name can be derived. -/
inductive NameFault where
  | notAText
  | bytes
deriving DecidableEq

namespace TableDocument

/-- Reading a document while collecting its problems. -/
abbrev Reading := StateT (List Problem) (Except NameFault)

/-- Notes a problem; what has it gives no result. -/
def report {α : Type} (location : List Segment) (kind : ProblemKind) : Reading (Option α) := do
  modify fun problems => problems ++ [⟨location, kind⟩]
  return none

/-- How a key of a map appears in a location: a small integer as it is, a truth value as one or
zero, a text as it is, and anything else in the literal notation. -/
def locationOf (key : Value) : Segment :=
  match key with
  | .text s => .key s
  | .bool b => .index (if b then 1 else 0)
  | .int n => if Digits.fitsWord n then .index n else .key (String.ofList key.keyChars)
  | key => .key (String.ofList key.literal)

/-- A text; bytes count as the text they stand for. -/
def readText (location : List Segment) (v : Value) : Reading (Option String) :=
  match v with
  | .text s => return some s
  | .bytes octets =>
    match Yaml.utf8? octets with
    | some cs => return some (String.ofList cs)
    | none => report location .notUtf8
  | _ => report location .notAText

def elements? : Value → Option (List Value)
  | .list xs | .tuple xs | .set xs => some xs
  | _ => none

/-- Reads the elements of a list, which are numbered from `i` on; there is a result only if each of
them has one. -/
def readEach {α : Type} (read : List Segment → Value → Reading (Option α))
    (location : List Segment) : Nat → List Value → Reading (Option (List α))
  | _, [] => return some []
  | i, v :: vs => do
    let head ← read (location ++ [.index i]) v
    let tail ← readEach read location (i + 1) vs
    return head.bind fun a => tail.map (a :: ·)

def readList {α : Type} (read : List Segment → Value → Reading (Option α))
    (location : List Segment) (v : Value) : Reading (Option (List α)) :=
  match elements? v with
  | some xs => readEach read location 0 xs
  | none => report location .notAList

def readField {α : Type} (read : List Segment → Value → Reading (Option α))
    (location : List Segment) (fields : Value.Entries) (name : String) : Reading (Option α) :=
  match Value.get? fields (.text name) with
  | some v => read (location ++ [.key name]) v
  | none => report (location ++ [.key name]) .missing

/-- Reads a field that has a value if it is left out. -/
def readOptional {α : Type} (read : List Segment → Value → Reading (Option α)) (default : α)
    (location : List Segment) (fields : Value.Entries) (name : String) : Reading (Option α) :=
  match Value.get? fields (.text name) with
  | some v => read (location ++ [.key name]) v
  | none => return some default

/-- Reports the keys that are not declared, in order. -/
def reportExtras (location : List Segment) (declared : List String) :
    Value.Entries → Reading Unit
  | [] => return ()
  | (key, _) :: rest => do
    match key with
    | .text s =>
      if declared.contains s then pure ()
      else
        let _ ← report (α := Unit) (location ++ [.key s]) .extra
    | key =>
      let _ ← report (α := Unit) (location ++ [locationOf key]) .invalidKey
    reportExtras location declared rest

/-- A text or null. -/
def readRemark (location : List Segment) (v : Value) : Reading (Option (Option String)) :=
  match v with
  | .null => return some none
  | v => do return (← readText location v).map some

def readPrimitive (location : List Segment) (v : Value) : Reading (Option Primitive) :=
  let kind := match v with
    | .text s => Primitive.ofName? s
    | _ => none
  match kind with
  | some kind => return some kind
  | none => report location .unknownPrimitive

/-- The fields of a map with the typed name filled in where it can be derived. -/
def withTypedName (fields : Value.Entries) : Except NameFault Value.Entries :=
  if Value.has fields (.text "typed_name") then .ok fields
  else match Value.get? fields (.text "serialized_name") with
    | none => .ok fields
    | some (.text s) =>
      .ok (fields ++ [(.text "typed_name", .text (TypedName.ofSerialized s))])
    | some (.bytes _) => .error .bytes
    | some _ => .error .notAText

def readProperty (read : List Segment → Value → Reading (Option Shape)) (location : List Segment)
    (v : Value) : Reading (Option (Property Shape)) :=
  match v with
  | .map fields => do
    let fields ← withTypedName fields
    let serialized ← readField readText location fields "serialized_name"
    let typed ← readField readText location fields "typed_name"
    let shape ← readField read location fields "type"
    let remark ← readOptional readRemark none location fields "description"
    let before := (← get).length
    reportExtras location ["serialized_name", "typed_name", "type", "description"] fields
    let clean := (← get).length == before
    match serialized, typed, shape, remark, clean with
    | some x, some y, some s, some d, true => return some ⟨x, y, s, d⟩
    | _, _, _, _, _ => return none
  | _ => report location .notAProperty

/-- Finishes a descriptor: its undeclared keys are reported, and if there are none it has the result
that its fields have. -/
def finish {α : Type} (location : List Segment) (declared : List String) (fields : Value.Entries)
    (result : Option α) : Reading (Option α) := do
  let before := (← get).length
  reportExtras location ("kind" :: declared) fields
  let clean := (← get).length == before
  return if clean then result else none

/-- A descriptor, in at most so many levels. -/
def readShape : Nat → List Segment → Value → Reading (Option Shape)
  | 0, location, _ => report location .notADescriptor
  | levels + 1, location, v =>
    match v with
    | .map fields =>
      match Value.get? fields (.text "kind") with
      | none => report location .noKind
      | some (.text kind) => do
        let inner := location ++ [.key kind]
        let plain (s : Shape) : Reading (Option Shape) := finish inner [] fields (some s)
        match kind with
        | "primitive" =>
          let k ← readField readPrimitive inner fields "primitive"
          finish inner ["primitive"] fields (k.map .primitive)
        | "literal-set" =>
          let values ← readField (readList readText) inner fields "values"
          finish inner ["values"] fields (values.map .literals)
        | "array" =>
          let items ← readField (readShape levels) inner fields "items"
          finish inner ["items"] fields (items.map .array)
        | "union" =>
          let members ← readField (readList (readShape levels)) inner fields "members"
          finish inner ["members"] fields (members.map .union)
        | "object" =>
          let properties ←
            readOptional (readList (readProperty (readShape levels))) [] inner fields "properties"
          let additional ← readOptional (readShape levels) .never inner fields "additional"
          let parts := properties.bind fun ps => additional.map fun a => (ps, a)
          match ← finish inner ["properties", "additional"] fields parts with
          | none => return none
          | some (ps, a) =>
            match Shape.object? 0 ps a with
            | .ok shape => return some shape
            | .error repeated => report inner (.repeatedName repeated)
        | "ref" =>
          let name ← readField readText inner fields "name"
          finish inner ["name"] fields (name.map .ref)
        | "date" => plain .date
        | "any" => plain .any
        | "null" => plain .null
        | "absent" => plain .absent
        | "never" => plain .never
        | _ => report location .unknownKind
      | some _ => report location .unknownKind
    | _ => report location .notADescriptor

def readTypes (levels : Nat) (location : List Segment) :
    Value.Entries → Reading (Option (List (String × Shape)))
  | [] => return some []
  | (key, v) :: rest => do
    let place := location ++ [locationOf key]
    let name ← readText (place ++ [.key "[key]"]) key
    let shape ← readShape levels place v
    let tail ← readTypes levels location rest
    return name.bind fun n => shape.bind fun s => tail.map ((n, s) :: ·)

def readDocument (fields : Value.Entries) : Reading (Option (List (String × Shape))) := do
  let levels := (Value.map fields).height + 1
  let read (location : List Segment) (v : Value) : Reading (Option (List (String × Shape))) :=
    match v with
    | .map entries => readTypes levels location entries
    | _ => report location .notAMap
  let types ← readField read [] fields "types"
  reportExtras [] ["types"] fields
  return types

/-- Labels the objects of named shapes, so that each is an object of its own. -/
def labelAll : Nat → List (String × Shape) → List (String × Shape)
  | _, [] => []
  | next, (name, shape) :: rest =>
    let (shape, next) := Shape.label next shape
    (name, shape) :: labelAll next rest

end TableDocument

/-- Why a document gives no table. -/
inductive TableDocumentFault where
  /-- The text has no value. -/
  | unreadable (fault : Yaml.Fault)
  /-- The document is no map. -/
  | notAMap
  /-- A typed name cannot be derived. -/
  | name (fault : NameFault)
  /-- What is wrong with the document. -/
  | invalid (problems : List Problem)
  /-- The shapes make no table. -/
  | table (fault : TableFault)

namespace Table

def ofTree (tree : Value) : Except TableDocumentFault Table :=
  match tree with
  | .map fields =>
    match (TableDocument.readDocument fields).run [] with
    | .error fault => .error (.name fault)
    | .ok (some types, []) => (build (TableDocument.labelAll 0 types)).mapError .table
    | .ok (_, problems) => .error (.invalid problems)
  | _ => .error .notAMap

def ofText (text : String) : Except TableDocumentFault Table :=
  match Yaml.parse text.toList with
  | .error fault => .error (.unreadable fault)
  | .ok tree => ofTree tree

end Table

def TableDocumentFault.message (label : String) : TableDocumentFault → String
  | .unreadable _ => "Invalid YAML in " ++ label
  | .notAMap => label ++ ": descriptor table must be a mapping"
  | .invalid _ | .name _ => "Invalid descriptor table " ++ label
  | .table fault => fault.message

/-- Is the fault one that a document may have, and no limit of the reading? -/
def TableDocumentFault.isOfDocument : TableDocumentFault → Bool
  | .unreadable fault => fault == .malformed
  | .name _ => false
  | .notAMap | .invalid _ | .table _ => true

end Conform
