import Conform.CommandLine.Basic

/-!
# Help

The texts that say how to use the program: `usage` is the summary that also goes before a complaint
about a command line, `help` goes on with what each word means.  Lines have at most eighty columns;
a summary that needs more than one line is indented to the end of the program's name.
-/

namespace Conform.CommandLine

/-- Lines, each with its line feed. -/
def unlines (lines : List String) : String := String.join (lines.map (· ++ "\n"))

/-- The flags of a command in the summary, line by line. -/
def Command.summary : Command → List String
  | .types => ["[-h] [--config CONFIG] [--table TABLE]"]
  | .convert mode => [
      "[-h] [--type TYPE_NAME] [--format \x7bjson,yaml\x7d]",
      "[--config CONFIG] [--table TABLE]" ++ (if mode = .encode then " [--indent INDENT]" else ""),
      "file"]

def Stage.usage (stage : Stage) : String :=
  let start := "usage: " ++ stage.program ++ " "
  let lines := match stage with
    | none => ["[-h] [--verbose] COMMAND ..."]
    | some command => command.summary
  unlines [start ++ (String.ofList ('\n' :: List.replicate start.length ' ')).intercalate lines]

def Command.purpose : Command → String
  | .convert .decode => "Validate a document against a type and print the typed value as JSON."
  | .convert .encode => "Validate a typed value against a type and print its serialized form."
  | .convert .check => "Validate a document against a type without printing it."
  | .types => "Print the name of every type in the active descriptor table."

/-- The commands and the flags before a command. -/
def programDetails : List String := [
  "Schemacast - descriptor-driven validation and conversion of structured data",
  "",
  "positional arguments:",
  "  COMMAND",
  "    decode       Decode a document into its typed form",
  "    encode       Encode a typed value back into a document",
  "    check        Check that a document conforms to a type",
  "    types        List the types of the descriptor table",
  "",
  "options:",
  "  -h, --help     show this help message and exit",
  "  --verbose, -v  Enable debug logging"]

def typesDetails : List String := [
  "options:",
  "  -h, --help       show this help message and exit",
  "  --config CONFIG  Configuration file (default: .schemacast.yaml in the",
  "                   current directory, if present)",
  "  --table TABLE    Descriptor table document (default: the built-in resource",
  "                   schema table)"]

def conversionDetails : List String := [
  "positional arguments:",
  "  file                  Input file",
  "",
  "options:",
  "  -h, --help            show this help message and exit",
  "  --type TYPE_NAME, -t TYPE_NAME",
  "                        Name of the type to convert",
  "  --format \x7bjson,yaml\x7d, -f \x7bjson,yaml\x7d",
  "                        Input notation (default: from config, or json)",
  "  --config CONFIG       Configuration file (default: .schemacast.yaml in the",
  "                        current directory, if present)",
  "  --table TABLE         Descriptor table document (default: the built-in",
  "                        resource schema table)"]

def indentDetails : List String := [
  "  --indent INDENT       Indentation of the output (default: from config, or 2)"]

/-- What the words of a stage mean. -/
def Stage.details : Stage → List String
  | none => programDetails
  | some command => command.purpose :: "" :: match command with
    | .types => typesDetails
    | .convert .encode => conversionDetails ++ indentDetails
    | .convert _ => conversionDetails

def Stage.help (stage : Stage) : String := stage.usage ++ "\n" ++ unlines stage.details

def Misuse.complaint (stage : Stage) (misuse : Misuse) : String :=
  stage.usage ++ unlines [stage.program ++ ": error: " ++ misuse.message]

end Conform.CommandLine
