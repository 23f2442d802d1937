import Conform.Document
import Conform.Text.Quoted

/-!
# Commands and flags

The vocabulary of the command line: what the program can be told to do (`Command`), the flags there
are (`Flag`), which of them stand before a command and which after which command, and everything
that can be wrong with a command line (`Misuse`).

A command line has two stages.  Before the command its flags are about the program as a whole;
after the command they are about the command, and the program then goes by both names.
-/

namespace Conform.CommandLine

/-- What a document can be put through. -/
inductive Mode where
  /-- Write the typed value of a document. -/
  | decode
  /-- Write the document of a typed value. -/
  | encode
  /-- Say that a document has a typed value. -/
  | check
deriving DecidableEq

/-- What the program can be told to do. -/
inductive Command where
  /-- Convert a document. -/
  | convert (mode : Mode)
  /-- List the types of the table. -/
  | types
deriving DecidableEq

def Command.name : Command → String
  | .convert .decode => "decode"
  | .convert .encode => "encode"
  | .convert .check => "check"
  | .types => "types"

/-- All commands, in the order in which they are listed. -/
def Command.all : List Command := [.convert .decode, .convert .encode, .convert .check, .types]

def Command.ofName? (name : String) : Option Command := Command.all.find? fun c => c.name == name

def Command.takesFile : Command → Bool
  | .convert _ => true
  | .types => false

/-- A stage of a command line: before a command, or after one. -/
abbrev Stage := Option Command

/-- The name that the program goes by. -/
def Stage.program : Stage → String
  | none => "schemacast"
  | some c => "schemacast " ++ c.name

inductive Flag where
  | help | verbose | type | format | config | table | indent
deriving DecidableEq

namespace Flag

def names : Flag → List String
  | .help => ["-h", "--help"]
  | .verbose => ["--verbose", "-v"]
  | .type => ["--type", "-t"]
  | .format => ["--format", "-f"]
  | .config => ["--config"]
  | .table => ["--table"]
  | .indent => ["--indent"]

/-- All spellings of a flag in one word. -/
def label (f : Flag) : String := "/".intercalate f.names

def takesArgument : Flag → Bool
  | .help | .verbose => false
  | _ => true

def ofStage : Stage → List Flag
  | none => [.help, .verbose]
  | some (.convert .encode) => [.help, .type, .format, .config, .table, .indent]
  | some (.convert _) => [.help, .type, .format, .config, .table]
  | some .types => [.help, .config, .table]

def find? (flags : List Flag) (name : String) : Option Flag :=
  flags.find? fun f => name ∈ f.names

def spellings (flags : List Flag) : List (Flag × String) :=
  flags.flatMap fun f => f.names.map fun name => (f, name)

end Flag

/-- What is wrong with a command line. -/
inductive Misuse where
  /-- A shortened flag could be one of several. -/
  | ambiguous (word : String) (names : List String)
  /-- A flag has no argument. -/
  | argumentMissing (flag : Flag)
  /-- A flag has an argument that it does not take. -/
  | argumentRefused (flag : Flag) (argument : String)
  /-- The argument of a flag is no integer. -/
  | notAnInteger (flag : Flag) (argument : String)
  /-- A notation that there is not. -/
  | unknownFormat (argument : String)
  /-- A command that there is not. -/
  | unknownCommand (word : String)
  /-- The file to work on is not given. -/
  | fileMissing
  /-- Words that mean nothing here. -/
  | unrecognized (words : List String)
deriving DecidableEq

namespace Misuse

def quote (word : String) : String := String.ofList (Text.quoted word.toList)

/-- That an argument is none of those there are. -/
def choice (label argument : String) (choices : List String) : String :=
  "argument " ++ label ++ ": invalid choice: " ++ quote argument ++ " (choose from " ++
    ", ".intercalate (choices.map quote) ++ ")"

def message : Misuse → String
  | .ambiguous word names =>
    "ambiguous option: " ++ word ++ " could match " ++ ", ".intercalate names
  | .argumentMissing flag => "argument " ++ flag.label ++ ": expected one argument"
  | .argumentRefused flag argument =>
    "argument " ++ flag.label ++ ": ignored explicit argument " ++ quote argument
  | .notAnInteger flag argument =>
    "argument " ++ flag.label ++ ": invalid int value: " ++ quote argument
  | .unknownFormat argument => choice Flag.format.label argument (Format.all.map Format.name)
  | .unknownCommand word => choice "COMMAND" word (Command.all.map Command.name)
  | .fileMissing => "the following arguments are required: file"
  | .unrecognized words => "unrecognized arguments: " ++ " ".intercalate words

end Misuse

end Conform.CommandLine
