import Conform.Json.Parser
import Conform.Yaml.Document

/-!
# Documents

A document is a text in one of two notations.  `Document.read` gives its value or why it has none.
Nearly always that is a text that does not follow its notation, and has a message; the other faults
are scalars that are well written and yet stand for no value.
-/

namespace Conform

inductive Format where
  | json | yaml
deriving DecidableEq

def Format.name : Format → String
  | .json => "json"
  | .yaml => "yaml"

/-- All notations, in the order in which they are listed. -/
def Format.all : List Format := [.json, .yaml]

def Format.ofName? (name : String) : Option Format := Format.all.find? fun f => f.name == name

namespace Document

/-- Why a text has no value. -/
inductive Fault where
  | json (text : List Char) (fault : Json.Fault)
  | yaml (fault : Yaml.Fault)
deriving DecidableEq

def Fault.isMalformed : Fault → Bool
  | .json _ fault => fault.problem != .numeral
  | .yaml fault => fault == .malformed

/-- What is wrong with a text that does not follow its notation. -/
def Fault.message : Fault → String
  | .json text fault => "Invalid JSON input: " ++ fault.message text
  | .yaml _ => "Invalid YAML input"

def read (format : Format) (text : String) : Except Fault Value :=
  match format with
  | .json =>
    match Json.parse text.toList with
    | .ok v => .ok v
    | .error fault => .error (.json text.toList fault)
  | .yaml =>
    match Yaml.parse text.toList with
    | .ok v => .ok v
    | .error fault => .error (.yaml fault)

end Document

end Conform
