import Conform.File.Path
import Conform.Number.Digits
import Conform.Text.Quoted

/-!
# Access to files

`Access` is what a program that only reads may do with files, in whatever monad the files live: ask
for the working directory, ask whether something is at a path, and read the text there.  `Fault`
says why a file cannot be reached; the faults that a system reports have a number and words.

The lines of a file may end in a carriage return, a line feed or both; what is read has line feeds.
-/

namespace Conform.File

/-- Why a file cannot be reached or read. -/
inductive Fault where
  /-- There is nothing of that name. -/
  | notFound
  /-- It may not be read. -/
  | denied
  /-- The path leads through a file. -/
  | notADirectory
  /-- A directory has no text. -/
  | isADirectory
  /-- A name or the whole path is too long. -/
  | nameTooLong
  /-- Another fault that the system reports. -/
  | other (number : Nat) (words : String)
  /-- A name has a character that no name may have. -/
  | impossibleName
  /-- What is there is no text. -/
  | notText
deriving DecidableEq

namespace Fault

/-- The number and the words of a fault that the system reports. -/
def report? : Fault → Option (Nat × String)
  | .notFound => some (2, "No such file or directory")
  | .denied => some (13, "Permission denied")
  | .notADirectory => some (20, "Not a directory")
  | .isADirectory => some (21, "Is a directory")
  | .nameTooLong => some (36, "File name too long")
  | .other number words => some (number, words)
  | .impossibleName | .notText => none

/-- What the system reports of a fault at a path. -/
def message? (fault : Fault) (path : Path) : Option String :=
  fault.report?.map fun (number, words) =>
    "[Errno " ++ String.ofList (Digits.digits number) ++ "] " ++ words ++ ": " ++
      String.ofList (Text.quoted path.text.toList)

/-- Does the fault mean that there is nothing at the path? -/
def isAbsence : Fault → Bool
  | .notFound | .notADirectory | .impossibleName => true
  | _ => false

end Fault

/-- A text whose lines all end in a line feed. -/
def withLineFeeds : List Char → List Char
  | '\r' :: '\n' :: rest => '\n' :: withLineFeeds rest
  | '\r' :: rest => '\n' :: withLineFeeds rest
  | c :: rest => c :: withLineFeeds rest
  | [] => []

/-- What can be done with files. -/
structure Access (m : Type → Type) where
  workingDirectory : m Path
  /-- What stands in the way of a file or directory, if anything does. -/
  obstacle? : Path → m (Option Fault)
  /-- The text of a file as it is stored. -/
  read : Path → m (Except Fault String)

namespace Access

variable {m : Type → Type} [Monad m]

/-- Is there anything at the path?  Some faults leave that open. -/
def exists? (access : Access m) (path : Path) : m (Except Fault Bool) := do
  match ← access.obstacle? path with
  | none => return .ok true
  | some fault => return if fault.isAbsence then .ok false else .error fault

def readText (access : Access m) (path : Path) : m (Except Fault String) := do
  return (← access.read path).map fun text => String.ofList (withLineFeeds text.toList)

end Access

end Conform.File
