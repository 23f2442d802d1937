import Conform.CommandLine.Run

/-!
# The program

The command line on the files of the machine.
-/

namespace Conform.Main

/-- The fault of a number that the system gives, which may come with a minus sign. -/
def faultOfNumber (number : UInt32) (words : String) : File.Fault :=
  match number.toInt32.toInt.natAbs with
  | 2 => .notFound
  | 13 => .denied
  | 20 => .notADirectory
  | 21 => .isADirectory
  | 36 => .nameTooLong
  | n => .other n words

/-- The fault behind an error of the system. -/
def faultOf : IO.Error → File.Fault
  | .noFileOrDirectory .. | .noSuchThing .. => .notFound
  | .permissionDenied .. => .denied
  | .inappropriateType _ number words | .resourceExhausted _ number words
  | .invalidArgument _ number words => faultOfNumber number words
  | .otherError number words => faultOfNumber number words
  | .userError _ => .notText
  | error => .other 5 (toString error)

/-- What an action on a file gives. -/
def attempt {α : Type} (action : IO α) : IO (Except File.Fault α) := do
  try return .ok (← action)
  catch error => return .error (faultOf error)

/-- Opens a file and reads nothing of it; a directory cannot be opened, but is there. -/
def obstacle? (path : File.Path) : IO (Option File.Fault) := do
  if '\x00' ∈ path.text.toList then return some .impossibleName
  match ← attempt (IO.FS.Handle.mk path.text .read) with
  | .ok _ | .error .isADirectory | .error .denied => return none
  | .error fault => return some fault

def read (path : File.Path) : IO (Except File.Fault String) := do
  if '\x00' ∈ path.text.toList then return .error .impossibleName
  attempt (IO.FS.readFile path.text)

def access : File.Access IO where
  workingDirectory := do return .ofText (← IO.currentDir).toString
  obstacle? := obstacle?
  read := read

end Conform.Main

def main (arguments : List String) : IO UInt32 := do
  let report ← Conform.CommandLine.run Conform.Main.access arguments
  IO.print report.output
  IO.eprint report.complaints
  return report.status.toUInt32
