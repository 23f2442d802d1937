import Conform.CommandLine.Basic
import Conform.Text.Blank
import Conform.Text.Pattern

/-!
# Words of a command line

Each word of a stage is a flag, an operand, the divider `--`, or something that looks like a flag
and is none (`Role`).  The rules, in the order in which they apply:

* a word that does not start with a hyphen is an operand, and so is the hyphen alone;
* a spelling of a flag is that flag, also with an equals sign and an argument after it;
* a long flag may be shortened as long as only one flag of the stage starts so;
* the argument of a flag with one letter may follow the letter directly;
* a negative number is an operand, and so is a word with a space in it;
* after the divider every word is an operand.

`Group.ofFlag` takes a word with several one-letter flags apart.
-/

namespace Conform.CommandLine

/-- An argument in the same word as its flag; `marked` if an equals sign is between them. -/
structure Attached where
  marked : Bool
  text : List Char
deriving DecidableEq

inductive Role where
  | operand
  | divider
  | flag (flag : Flag) (name : String) (attached : Option Attached)
  | unknown
deriving DecidableEq

structure Word where
  text : String
  role : Role
deriving DecidableEq

namespace Word

/-- One decimal digit of any script. -/
def digit : Pattern := .one Text.isDecimal

/-- The words that are negative numbers; a line feed may end them. -/
def negativeNumber : Pattern :=
  .all [
    .text "-",
    .alt (.plus digit) (.all [.star digit, .text ".", .plus digit]),
    .opt (.text "\n")]

/-- What is before and after the first equals sign, if there is one. -/
def splitAtEquals? (cs : List Char) : Option (String × List Char) :=
  if '=' ∈ cs then
    some (String.ofList (cs.takeWhile (· != '=')), (cs.dropWhile (· != '=')).drop 1)
  else none

/-- The flags that a shortened word, or one with its argument at its end, could be. -/
def candidates (flags : List Flag) (word : String) : List (Flag × String × Option Attached) :=
  let cs := word.toList
  if ['-', '-'].isPrefixOf cs then
    let start := cs.takeWhile (· != '=')
    let attached := (splitAtEquals? cs).map fun s => Attached.mk true s.2
    ((Flag.spellings flags).filter fun s => start.isPrefixOf s.2.toList).map fun s =>
      (s.1, s.2, attached)
  else
    ((Flag.spellings flags).filter fun s => s.2.toList == cs.take 2).map fun s =>
      (s.1, s.2, some ⟨false, cs.drop 2⟩)

/-- The flag that a word spells, alone or with an argument after an equals sign. -/
def spelled? (flags : List Flag) (word : String) : Option Role :=
  match Flag.find? flags word with
  | some f => some (.flag f word none)
  | none => do
    let (name, argument) ← splitAtEquals? word.toList
    let f ← Flag.find? flags name
    return .flag f name (some ⟨true, argument⟩)

/-- What a word before the divider is. -/
def roleOf (flags : List Flag) (word : String) : Except Misuse Role :=
  if word.toList.head? ≠ some '-' ∨ word = "-" then .ok .operand
  else match spelled? flags word with
    | some role => .ok role
    | none =>
      match candidates flags word with
      | [(f, name, attached)] => .ok (.flag f name attached)
      | [] =>
        if negativeNumber.fits word.toList ∨ ' ' ∈ word.toList then .ok .operand else .ok .unknown
      | several => .error (.ambiguous word (several.map fun c => c.2.1))

def readAll (flags : List Flag) : List String → Except Misuse (List Word)
  | [] => .ok []
  | word :: rest =>
    if word = "--" then .ok (⟨word, .divider⟩ :: rest.map fun w => ⟨w, .operand⟩)
    else
      match roleOf flags word with
      | .error misuse => .error misuse
      | .ok role => (readAll flags rest).map (⟨word, role⟩ :: ·)

end Word

/-- The flags that one word gives. -/
structure Group where
  /-- Flags with nothing more to come, in order. -/
  complete : List (Flag × Option String) := []
  /-- The flag at the end of the word. -/
  last : Option Flag := none
  /-- The rest of the word from a letter on that is no flag. -/
  unknown : Option String := none
deriving DecidableEq

namespace Group

def cons (flag : Flag) (g : Group) : Group := { g with complete := (flag, none) :: g.complete }

/-- The flags of a word that starts with a one-letter flag and goes on directly or, if `marked`,
after an equals sign.  Letters go on until a flag takes what is left as its argument. -/
def ofLetters (flags : List Flag) : Flag → Bool → List Char → Except Misuse Group
  | flag, _, [] =>
    if flag.takesArgument then .ok { complete := [(flag, some "")] }
    else .error (.argumentRefused flag "")
  | flag, marked, letter :: rest =>
    let argument := String.ofList (letter :: rest)
    if flag.takesArgument then .ok { complete := [(flag, some argument)] }
    else if marked ∨ letter = '-' then .error (.argumentRefused flag argument)
    else match Flag.find? flags (String.ofList ['-', letter]) with
      | none => .ok { complete := [(flag, none)], unknown := some ("-" ++ argument) }
      | some next =>
        match rest with
        | [] => .ok { complete := [(flag, none)], last := some next }
        | '=' :: more => (ofLetters flags next true more).map (cons flag)
        | c :: more => (ofLetters flags next false (c :: more)).map (cons flag)

/-- The flags of a word that spells a flag. -/
def ofFlag (flags : List Flag) (flag : Flag) (name : String) :
    Option Attached → Except Misuse Group
  | none => .ok { last := some flag }
  | some attached =>
    if ['-', '-'].isPrefixOf name.toList then
      if flag.takesArgument then .ok { complete := [(flag, some (String.ofList attached.text))] }
      else .error (.argumentRefused flag (String.ofList attached.text))
    else ofLetters flags flag attached.marked attached.text

end Group

end Conform.CommandLine
