/-!
# Paths of files

A path is the way it starts and the names along it.  Empty names and names `.` lead nowhere and are
left out when a path is read; a name `..` stays, for what it leads to depends on the files there
are.  `Path.text` writes a path with one slash between names.
-/

namespace Conform.File

/-- Where a path starts: in the working directory, or at the root, which has two spellings. -/
inductive Start where
  | here | root | doubleRoot
deriving DecidableEq

/-- The slashes in front of a path. -/
def Start.slashes : Start → List Char
  | .here => []
  | .root => ['/']
  | .doubleRoot => ['/', '/']

/-- The way to a file or directory. -/
structure Path where
  start : Start
  names : List String
deriving DecidableEq

namespace Path

/-- The pieces of a text between its slashes. -/
def pieces : List Char → List (List Char)
  | [] => [[]]
  | c :: rest =>
    if c = '/' then [] :: pieces rest
    else match pieces rest with
      | [] => [[c]]
      | piece :: more => (c :: piece) :: more

/-- How a text starts; three slashes and more are as good as one. -/
def startOf (cs : List Char) : Start :=
  match (cs.takeWhile (· == '/')).length with
  | 0 => .here
  | 2 => .doubleRoot
  | _ => .root

def ofText (text : String) : Path :=
  ⟨startOf text.toList,
    ((pieces text.toList).filter fun p => p ≠ [] ∧ p ≠ ['.']).map String.ofList⟩

/-- The text of a path; a path without names that starts here is a point. -/
def text (p : Path) : String :=
  match p.start, p.names with
  | .here, [] => "."
  | start, names => String.ofList start.slashes ++ "/".intercalate names

def isAbsolute (p : Path) : Bool := p.start != .here

/-- The path without its last name, if it has one. -/
def parent (p : Path) : Path := ⟨p.start, p.names.dropLast⟩

/-- The path that leads on from another one, unless it starts at the root itself. -/
def within (p directory : Path) : Path :=
  if p.isAbsolute then p else ⟨directory.start, directory.names ++ p.names⟩

end Path

end Conform.File
