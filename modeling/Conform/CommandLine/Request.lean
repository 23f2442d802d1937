import Conform.CommandLine.Word
import Conform.Number.Reading

/-!
# Requests

A `Request` is what a command line asks for.  `Request.ofArguments` reads the words of each stage
and takes them in order: flags set options, the first operand before a command is the command, the
first operand after it is the file, and what means nothing is kept until all else is in order.

Help is given as soon as it is asked for, even if something wrong follows; but a stage whose words
cannot all be read is wrong before any of them counts.
-/

namespace Conform.CommandLine

/-- What flags say. -/
structure Options where
  verbose : Bool := false
  type : Option String := none
  format : Option Format := none
  config : Option String := none
  table : Option String := none
  indent : Option Int := none
deriving DecidableEq

/-- What a command line asks for. -/
inductive Request where
  /-- How to use the program, or a command of it. -/
  | help (stage : Stage)
  /-- Put a document through something. -/
  | convert (mode : Mode) (file : String) (options : Options)
  /-- List the types of the table. -/
  | types (options : Options)
deriving DecidableEq

/-- Why the words of a command line are not read to their end. -/
inductive Ending where
  /-- Help is asked for. -/
  | help (stage : Stage)
  /-- Something is wrong. -/
  | misuse (stage : Stage) (misuse : Misuse)
deriving DecidableEq

/-- How far the reading of a command line has come. -/
structure Progress where
  options : Options := {}
  /-- The file to work on. -/
  file : Option String := none
  /-- Was the file the last word? -/
  atFile : Bool := false
  /-- Flags of one word of which the last waits for its argument. -/
  waiting : Option (List (Flag × Option String) × Flag) := none
  /-- Words that mean nothing. -/
  extras : List String := []
deriving DecidableEq

namespace Progress

def takeFlag (stage : Stage) (p : Progress) (given : Flag × Option String) :
    Except Ending Progress :=
  let argument := given.2.getD ""
  let set (options : Options) : Except Ending Progress := .ok { p with options }
  match given.1 with
  | .help => .error (.help stage)
  | .verbose => set { p.options with verbose := true }
  | .type => set { p.options with type := some argument }
  | .config => set { p.options with config := some argument }
  | .table => set { p.options with table := some argument }
  | .format =>
    match Format.ofName? argument with
    | some format => set { p.options with format := some format }
    | none => .error (.misuse stage (.unknownFormat argument))
  | .indent =>
    match Number.readInt? 10 argument.toList with
    | some n => set { p.options with indent := some n }
    | none => .error (.misuse stage (.notAnInteger .indent argument))

def takeFlags (stage : Stage) (p : Progress) (given : List (Flag × Option String)) :
    Except Ending Progress :=
  given.foldlM (takeFlag stage) p

/-- Takes the flags of a word; the last of them waits if it needs an argument. -/
def takeGroup (stage : Stage) (p : Progress) (g : Group) : Except Ending Progress :=
  let p := { p with extras := p.extras ++ g.unknown.toList }
  match g.last with
  | none => takeFlags stage p g.complete
  | some f =>
    if f.takesArgument then .ok { p with waiting := some (g.complete, f) }
    else takeFlags stage p (g.complete ++ [(f, none)])

def takeExtra (p : Progress) (text : String) : Progress := { p with extras := p.extras ++ [text] }

/-- Takes an operand: the file, if there has to be one and it is not yet given. -/
def takeOperand (stage : Stage) (p : Progress) (text : String) : Progress :=
  if p.file.isNone ∧ stage.any Command.takesFile then { p with file := some text, atFile := true }
  else p.takeExtra text

/-- Takes the divider, which is of use before the file and directly after it. -/
def takeDivider (stage : Stage) (p : Progress) (text : String) (atFile : Bool) : Progress :=
  if atFile ∨ (p.file.isNone ∧ stage.any Command.takesFile) then p else p.takeExtra text

def take (stage : Stage) (p : Progress) (word : Word) : Except Ending Progress :=
  match p.waiting with
  | some (before, f) =>
    if word.role = .operand then
      takeFlags stage { p with waiting := none, atFile := false }
        (before ++ [(f, some word.text)])
    else .error (.misuse stage (.argumentMissing f))
  | none =>
    let next := { p with atFile := false }
    match word.role with
    | .operand => .ok (next.takeOperand stage word.text)
    | .divider => .ok (next.takeDivider stage word.text p.atFile)
    | .unknown => .ok (next.takeExtra word.text)
    | .flag f name attached =>
      match Group.ofFlag (Flag.ofStage stage) f name attached with
      | .ok g => next.takeGroup stage g
      | .error misuse => .error (.misuse stage misuse)

def readWords (stage : Stage) (words : List String) : Except Ending (List Word) :=
  (Word.readAll (Flag.ofStage stage) words).mapError (.misuse stage)

/-- The request when all words are read, unless words were left over. -/
def finish (p : Progress) (request : Request) : Except Ending Request :=
  if p.extras = [] then .ok request else .error (.misuse none (.unrecognized p.extras))

def afterCommand (p : Progress) (command : Command) (words : List String) :
    Except Ending Request := do
  let stage := some command
  let p ← (← readWords stage words).foldlM (take stage) p
  match p.waiting with
  | some (_, f) => throw (.misuse stage (.argumentMissing f))
  | none =>
    match command with
    | .types => p.finish (.types p.options)
    | .convert mode =>
      match p.file with
      | none => throw (.misuse stage .fileMissing)
      | some file => p.finish (.convert mode file p.options)

/-- Goes on with a word in the place of the command. -/
def atCommand (p : Progress) (name : String) (words : List String) : Except Ending Request :=
  match Command.ofName? name with
  | some command => p.afterCommand command words
  | none => .error (.misuse none (.unknownCommand name))

def beforeCommand (p : Progress) : List Word → Except Ending Request
  | [] => p.finish (.help none)
  | word :: rest =>
    match word.role, rest with
    | .operand, rest => p.atCommand word.text (rest.map (·.text))
    | .divider, next :: more => p.atCommand word.text ((next :: more).map (·.text))
    | _, rest => do (← p.take none word).beforeCommand rest

end Progress

/-- What the arguments of the program ask for, or at which stage what is wrong with them. -/
def Request.ofArguments (arguments : List String) : Except (Stage × Misuse) Request :=
  match Progress.readWords none arguments >>= Progress.beforeCommand {} with
  | .ok request => .ok request
  | .error (.help stage) => .ok (.help stage)
  | .error (.misuse stage misuse) => .error (stage, misuse)

end Conform.CommandLine
