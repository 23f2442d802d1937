import Conform.Document
import Conform.File.Access

/-!
# Settings

Settings are what a user may write down once for all runs: the type of the root, the indentation of
output, the notation of input and a table of types.  They are a YAML map of known fields, each of
which may be left out, and an empty document leaves out all of them.

`Settings.ofTree` reads a tree.  Fields that are not known come before all else that may be wrong;
after them the fields are looked at in the order of `Settings.fields`.  `Settings.load` reads a
file; a relative path in it starts at the directory of that file.
-/

namespace Conform

/-- What a user may write down for all runs. -/
structure Settings where
  /-- The type that is meant where none is given. -/
  rootType : Option String := none
  /-- The indentation of output; none at all writes one line. -/
  indent : Option Nat := some 2
  /-- The notation of input. -/
  inputFormat : Format := .json
  /-- The document of a table of types. -/
  descriptorTable : Option File.Path := none
deriving DecidableEq

/-- Why there are no settings. -/
inductive SettingsFault where
  /-- The file cannot be read. -/
  | file (fault : File.Fault)
  /-- The text has no value. -/
  | unreadable (fault : Yaml.Fault)
  /-- The document is no map. -/
  | notAMap
  /-- Fields that are not known. -/
  | unknownFields (names : List String)
  /-- A key that is no text, and so is not the name of a field. -/
  | namelessField
  /-- The field has to be a text. -/
  | notAText (field : String)
  /-- The indentation is no natural number. -/
  | badIndent
  /-- A notation that there is not. -/
  | unknownFormat (name : String)
deriving DecidableEq

namespace Settings

def fields : List String := ["root-type", "indent", "input-format", "descriptor-table"]

/-- The keys that are no fields, if all of them are texts. -/
def unknownNames? : Value.Entries → Option (List String)
  | [] => some []
  | (.text name, _) :: rest =>
    (unknownNames? rest).map fun names => if name ∈ fields then names else name :: names
  | _ :: _ => none

/-- What a field says, or what it says when it is not there. -/
def readField {α : Type} (entries : Value.Entries) (field : String) (absent : α)
    (read : String → Value → Except SettingsFault α) : Except SettingsFault α :=
  match Value.get? entries (.text field) with
  | none => .ok absent
  | some v => read field v

def readText (field : String) : Value → Except SettingsFault String
  | .text s => .ok s
  | _ => .error (.notAText field)

def readIndent (_field : String) : Value → Except SettingsFault (Option Nat)
  | .null => .ok none
  | .int n => if n < 0 then .error .badIndent else .ok (some n.toNat)
  | _ => .error .badIndent

def readFormat (field : String) (v : Value) : Except SettingsFault Format := do
  let name ← readText field v
  match Format.ofName? name with
  | some format => return format
  | none => throw (.unknownFormat name)

def ofEntries (entries : Value.Entries) : Except SettingsFault Settings := do
  match unknownNames? entries with
  | none => throw .namelessField
  | some [] => pure ()
  | some names => throw (.unknownFields (names.mergeSort fun a b => decide (a ≤ b)))
  let rootType ← readField entries "root-type" none fun field v => some <$> readText field v
  let indent ← readField entries "indent" (some 2) readIndent
  let inputFormat ← readField entries "input-format" .json readFormat
  let descriptorTable ← readField entries "descriptor-table" none fun field v =>
    (some ∘ File.Path.ofText) <$> readText field v
  return { rootType, indent, inputFormat, descriptorTable }

def ofTree : Value → Except SettingsFault Settings
  | .null => .ok {}
  | .map entries => ofEntries entries
  | _ => .error .notAMap

def ofText (text : String) : Except SettingsFault Settings :=
  match Yaml.parse text.toList with
  | .error fault => .error (.unreadable fault)
  | .ok tree => ofTree tree

/-- The settings with paths that start at a directory. -/
def within (s : Settings) (directory : File.Path) : Settings :=
  { s with descriptorTable := s.descriptorTable.map fun path => path.within directory }

def load {m : Type → Type} [Monad m] (access : File.Access m) (path : File.Path) :
    m (Except SettingsFault Settings) := do
  match ← access.readText path with
  | .error fault => return .error (.file fault)
  | .ok text => return (ofText text).map fun s => s.within path.parent

end Settings

/-- What is wrong with the settings in a file, if it is the user who has to know. -/
def SettingsFault.message? (path : File.Path) : SettingsFault → Option String
  | .file .notFound => some ("Config file not found: " ++ path.text)
  | .file fault => (fault.message? path).map ("Cannot read config file: " ++ ·)
  | .unreadable .malformed => some ("Invalid YAML in " ++ path.text)
  | .unreadable _ => none
  | .notAMap => some (path.text ++ ": config must be a YAML mapping")
  | .unknownFields names =>
    some (path.text ++ ": unknown field(s): " ++ ", ".intercalate names)
  | .namelessField => none
  | .notAText field => some (path.text ++ ": '" ++ field ++ "' must be a string")
  | .badIndent => some (path.text ++ ": 'indent' must be a non-negative integer or null")
  | .unknownFormat name =>
    some (path.text ++ ": unknown input-format '" ++ name ++ "' (expected one of: " ++
      ", ".intercalate (Format.all.map Format.name) ++ ")")

end Conform
