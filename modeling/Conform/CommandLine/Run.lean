import Conform.Codec
import Conform.CommandLine.Help
import Conform.CommandLine.Request
import Conform.Resource
import Conform.Settings
import Conform.Table.Document

/-!
# Runs

`run` does what a command line asks for and gives a `Report`.  All that a run needs of its
surroundings is an `Access` to files, in whatever monad that lives.

A run of a command that converts a document takes these steps, and the first that fails ends it:
the file has to be there; the settings are read, from the file that is given or else from the
working directory, if it has one; the table of types is read, or else it is the resource schema;
the type is chosen; the document is read; its tree is converted; the result is written.

Notices say on the way what was built and what is being done.
-/

namespace Conform.CommandLine

/-! ## Notices and troubles -/

/-- What a run says on its way. -/
inductive Notice where
  /-- A table was built. -/
  | table (size : Nat)
  /-- A conversion begins. -/
  | conversion (direction : Direction) (type : String)
  /-- A field map was built. -/
  | fieldMap (direction : Direction) (size : Nat)
deriving DecidableEq

def Notice.text : Notice → String
  | .table size =>
    "DEBUG schemacast.model.table: Built descriptor table with " ++ count size ++ " types"
  | .conversion .decode type => "DEBUG schemacast.codec: Decoding value as " ++ type
  | .conversion .encode type => "DEBUG schemacast.codec: Encoding value as " ++ type
  | .fieldMap direction size =>
    "DEBUG schemacast.engine.field_map: Built " ++ direction.name ++ " field map with " ++
      count size ++ " entries"
where
  count (n : Nat) : String := String.ofList (Digits.digits n)

/-- Why a run does not come to its end. -/
inductive Trouble where
  /-- It cannot be told whether a file is there. -/
  | uncertain (fault : File.Fault)
  /-- The file to work on is not there. -/
  | noFile (path : File.Path)
  /-- There are no settings at a path. -/
  | settings (path : File.Path) (fault : SettingsFault)
  /-- The document of a table cannot be read. -/
  | tableFile (path : File.Path) (fault : File.Fault)
  /-- The document at a path gives no table. -/
  | table (path : File.Path) (fault : TableDocumentFault)
  /-- No type is given for a table that has no root. -/
  | noType
  /-- The file to work on cannot be read. -/
  | file (fault : File.Fault)
  /-- The document is not converted. -/
  | failure (failure : Failure)

namespace Trouble

/-- What the user has to know of a trouble, if it is one that may happen. -/
def message? : Trouble → Option String
  | .noFile path => some ("file '" ++ path.text ++ "' does not exist.")
  | .settings path fault => fault.message? path
  | .tableFile path fault =>
    (fault.message? path).map (("Cannot read descriptor table '" ++ path.text ++ "': ") ++ ·)
  | .table path fault =>
    if fault.isOfDocument then some (fault.message path.text) else none
  | .noType => some "No type given. Pass --type or set 'root-type' in the config file."
  | .failure f => f.message?
  | .uncertain _ | .file _ => none

end Trouble

/-! ## Reports -/

inductive Report where
  /-- Help for a stage. -/
  | help (stage : Stage)
  /-- What was wrong with the command line. -/
  | misuse (stage : Stage) (misuse : Misuse)
  /-- What was noticed, and the text that the run writes or its trouble. -/
  | done (notices : List Notice) (result : Except Trouble String)

namespace Report

/-- The number that tells other programs how the run ended. -/
def status : Report → Nat
  | .help _ => 0
  | .misuse .. => 2
  | .done _ (.ok _) => 0
  | .done _ (.error _) => 1

def output : Report → String
  | .help stage => stage.help
  | .done _ (.ok text) => text
  | _ => ""

/-- What the run has to say about itself. -/
def complaints : Report → String
  | .help _ => ""
  | .misuse stage m => m.complaint stage
  | .done notices result =>
    unlines (notices.map Notice.text) ++
      match result with
      | .ok _ => ""
      | .error trouble => "Error: " ++ trouble.message?.getD "the run broke off." ++ "\n"

end Report

/-! ## The steps of a run -/

/-- A run in progress: it collects notices and may end in a trouble. -/
abbrev Working (m : Type → Type) := ExceptT Trouble (StateT (List Notice) m)

namespace Working

variable {m : Type → Type} [Monad m]

def notice (n : Notice) : Working m Unit := modify (· ++ [n])

/-- Goes on with a result, or ends in the trouble that its fault means. -/
def orTrouble {ε α : Type} (trouble : ε → Trouble) (result : Except ε α) : Working m α :=
  match result with
  | .ok a => pure a
  | .error fault => throw (trouble fault)

def exists? (access : File.Access m) (path : File.Path) : Working m Bool := do
  orTrouble .uncertain (← liftM (access.exists? path))

def loadSettings (access : File.Access m) (path : File.Path) : Working m Settings := do
  orTrouble (.settings path) (← liftM (Settings.load access path))

/-- The name of the file in which settings are looked for. -/
def settingsName : String := ".schemacast.yaml"

def findSettings (access : File.Access m) (options : Options) : Working m Settings := do
  match options.config with
  | some path => loadSettings access (.ofText path)
  | none =>
    let path := (File.Path.ofText settingsName).within (← liftM access.workingDirectory)
    if ← exists? access path then loadSettings access path else return {}

def loadTable (access : File.Access m) (path : File.Path) : Working m Table := do
  let text ← orTrouble (.tableFile path) (← liftM (access.readText path))
  let table ← orTrouble (.table path) (Table.ofText text)
  notice (.table table.names.length)
  return table

/-- The table that the options or the settings name, if they do. -/
def findTable (access : File.Access m) (options : Options) (settings : Settings) :
    Working m (Option Table) := do
  match options.table.map File.Path.ofText <|> settings.descriptorTable with
  | some path => some <$> loadTable access path
  | none => return none

/-- The type to convert by: the one in the options, the one in the settings, or the root of the
resource schema, if that is the table.  An empty name in the options is as good as none. -/
def chooseType (options : Options) (settings : Settings) (table : Option Table) :
    Working m String :=
  match options.type.filter (· ≠ "") <|> settings.rootType, table with
  | some type, _ => pure type
  | none, none => pure Resource.rootType
  | none, some _ => throw .noType

def readTree (access : File.Access m) (path : File.Path) (format : Format) : Working m Value := do
  let text ← orTrouble .file (← liftM (access.readText path))
  orTrouble .failure (Codec.parseText format text)

def convert (table : Table) (direction : Direction) (type : String) (tree : Value) :
    Working m Value := do
  if (table.get? type).isSome then notice (.conversion direction type)
  let (outcome, cache) := (Codec.convertAs table direction type tree).run .empty
  cache.entries.forM fun entry => notice (.fieldMap entry.direction entry.fields.length)
  orTrouble (fun stop => .failure (.stopped stop)) outcome

def directionOf : Mode → Direction
  | .decode | .check => .decode
  | .encode => .encode

def write (mode : Mode) (options : Options) (settings : Settings) (v : Value) :
    Except Failure String :=
  match mode with
  | .decode => Codec.renderText (some 2) v
  | .encode => Codec.renderText (options.indent <|> settings.indent.map Int.ofNat) v
  | .check => .ok "No issues found."

/-- Puts a document through something. -/
def convertFile (access : File.Access m) (mode : Mode) (file : String) (options : Options) :
    Working m String := do
  let path := File.Path.ofText file
  unless ← exists? access path do throw (.noFile path)
  let settings ← findSettings access options
  let loaded ← findTable access options settings
  let type ← chooseType options settings loaded
  let tree ← readTree access path (options.format.getD settings.inputFormat)
  let v ← convert (loaded.getD Resource.table) (directionOf mode) type tree
  let text ← orTrouble .failure (write mode options settings v)
  return unlines [text]

def listTypes (access : File.Access m) (options : Options) : Working m String := do
  let settings ← findSettings access options
  let loaded ← findTable access options settings
  return unlines (loaded.getD Resource.table).sortedNames

/-- The report of a run; only a verbose one tells its notices. -/
def report (options : Options) (working : Working m String) : m Report := do
  let (result, notices) ← working.run.run []
  return .done (if options.verbose then notices else []) result

end Working

def Request.run {m : Type → Type} [Monad m] (access : File.Access m) : Request → m Report
  | .help stage => pure (.help stage)
  | .convert mode file options =>
    Working.report options (Working.convertFile access mode file options)
  | .types options => Working.report options (Working.listTypes access options)

/-- Does what the arguments of the program ask for. -/
def run {m : Type → Type} [Monad m] (access : File.Access m) (arguments : List String) : m Report :=
  match Request.ofArguments arguments with
  | .ok request => request.run access
  | .error (stage, misuse) => pure (.misuse stage misuse)

end Conform.CommandLine
