import Conform.File.Access

/-!
# Trees of files

A `Tree` is all that a program sees of a file system: the files and directories under their places,
a place being the names on the way from the root, and the working directory.  Every directory on
the way to an entry is there too.

`Tree.access` looks paths up as a system does: name by name, each in the directory reached so far,
where `..` goes back to the directory before it and stays at the root.
-/

namespace Conform.File

inductive Entry where
  | directory
  | file (content : String)
deriving DecidableEq

/-- The names on the way from the root. -/
abbrev Location := List String

/-- Files and directories, and where a program works among them. -/
structure Tree where
  workingDirectory : Location
  entries : List (Location × Entry)

namespace Tree

/-- A tree in which there is nothing but the working directory. -/
def empty (workingDirectory : Location) : Tree := ⟨workingDirectory, []⟩

/-- The tree with an entry at a path; what is there already is replaced. -/
def insert (t : Tree) (path : Path) (entry : Entry) : Tree :=
  let location := if path.isAbsolute then path.names else t.workingDirectory ++ path.names
  { t with entries := (location, entry) :: t.entries }

def entryAt? (t : Tree) (location : Location) : Option Entry :=
  match t.entries.find? fun e => e.1 == location with
  | some e => some e.2
  | none =>
    if location.isPrefixOf t.workingDirectory || t.entries.any fun e => location.isPrefixOf e.1 then
      some .directory
    else none

/-- The number of bytes that a name may have. -/
def nameLimit : Nat := 255

/-- The number of bytes that a path may have. -/
def pathLimit : Nat := 4095

/-- Follows names from a place. -/
def follow (t : Tree) (location : Location) : List String → Except Fault Entry
  | [] =>
    match t.entryAt? location with
    | some entry => .ok entry
    | none => .error .notFound
  | name :: rest =>
    match t.entryAt? location with
    | none => .error .notFound
    | some (.file _) => .error .notADirectory
    | some .directory =>
      if name = ".." then follow t location.dropLast rest
      else if nameLimit < name.utf8ByteSize then .error .nameTooLong
      else follow t (location ++ [name]) rest

def lookup (t : Tree) (path : Path) : Except Fault Entry :=
  if '\x00' ∈ path.text.toList then .error .impossibleName
  else if pathLimit < path.text.utf8ByteSize then .error .nameTooLong
  else t.follow (if path.isAbsolute then [] else t.workingDirectory) path.names

def read (t : Tree) (path : Path) : Except Fault String :=
  match t.lookup path with
  | .ok (.file content) => .ok content
  | .ok .directory => .error .isADirectory
  | .error fault => .error fault

/-- What a program may do with the tree. -/
def access (t : Tree) : Access Id where
  workingDirectory := pure ⟨.root, t.workingDirectory⟩
  obstacle? path := pure <|
    match t.lookup path with
    | .ok _ => none
    | .error fault => some fault
  read path := pure (t.read path)

end Tree

end Conform.File
