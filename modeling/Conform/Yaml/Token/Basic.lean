/-!
# Tokens of YAML 1.1

The tokens of a document, and a `Cursor`, which is what is left of the text together with the line
and column reached.  The end of the text is seen as a NUL, which no text may contain.

A list of tokens ends in `streamEnd`, or in `broken` where the text could not be read further.  The
broken token stands at the place where a reader of the list would first have needed to look past
the break, so that the faults of earlier tokens come first.
-/

namespace Conform.Yaml

/-- Why a text is no document.  All that is wrong with its notation is one cause; the others are
scalars that are well written but stand for nothing. -/
inductive Fault where
  /-- The notation is not followed. -/
  | malformed
  /-- An escape gives a number that is no character. -/
  | noCharacter (code : Nat)
  /-- A numeral is too long, or no number at all. -/
  | notANumber
  /-- A number without any character. -/
  | emptyNumber
  /-- An integer is too large for a floating-point number. -/
  | tooLarge
  /-- A truth value that is no known word. -/
  | notATruthValue
  /-- A timestamp that does not look like one. -/
  | notATimestamp
  /-- A timestamp of a day or time that does not exist. -/
  | impossibleTimestamp
  /-- A timestamp given as a map. -/
  | timestampOfMap
  /-- The value would contain itself.  Values are finite here, so this is a limit of theirs and
  nothing wrong with the text: where values may be cyclic, it has one. -/
  | endless
deriving DecidableEq

inductive Directive where
  | version (major minor : Nat)
  | tag (handle leading : List Char)
  | other
deriving DecidableEq

/-- A tag as it is written: with a handle that stands for a leading part, or in full. -/
structure TagToken where
  handle : Option (List Char)
  suffix : List Char
deriving DecidableEq

inductive Token where
  | directive (d : Directive)
  | documentStart
  | documentEnd
  | blockSequenceStart
  | blockMappingStart
  | blockEnd
  | flowSequenceStart
  | flowSequenceEnd
  | flowMappingStart
  | flowMappingEnd
  | blockEntry
  | flowEntry
  | key
  | value
  | alias (name : List Char)
  | anchor (name : List Char)
  | tag (t : TagToken)
  | scalar (plain : Bool) (text : List Char)
  | streamEnd
  | broken (fault : Fault)
deriving DecidableEq

/-! ## Classes of characters -/

def isBreak (c : Char) : Bool :=
  c == '\n' || c == '\r' || c == '\x85' || c == '\u2028' || c == '\u2029'

def isBreakOrEnd (c : Char) : Bool := c == '\x00' || isBreak c

def isSpaceOrEnd (c : Char) : Bool := c == ' ' || isBreakOrEnd c

def isBlankOrEnd (c : Char) : Bool := c == '\t' || isSpaceOrEnd c

/-- May the character stand in a document at all? -/
def isAllowed (c : Char) : Bool :=
  let n := c.toNat
  n == 0x09 || n == 0x0A || n == 0x0D || (0x20 ≤ n && n ≤ 0x7E) || n == 0x85 ||
    (0xA0 ≤ n && n ≤ 0xD7FF) || (0xE000 ≤ n && n ≤ 0xFFFD) || 0x10000 ≤ n

/-- May the character stand in the name of an anchor, a directive or a tag handle? -/
def isNameChar (c : Char) : Bool :=
  ('0' ≤ c && c ≤ '9') || ('A' ≤ c && c ≤ 'Z') || ('a' ≤ c && c ≤ 'z') || c == '-' || c == '_'

def isTagChar (c : Char) : Bool := isNameChar c || ";/?:@&=+$,.!~*'()[]%".toList.contains c

/-! ## Cursors -/

/-- What is left of a text, and the place reached. -/
structure Cursor where
  rest : List Char
  index : Nat
  line : Nat
  column : Nat
deriving DecidableEq

namespace Cursor

def start (text : List Char) : Cursor := ⟨text, 0, 0, 0⟩

def peek (c : Cursor) : Char := c.rest.headD '\x00'

/-- The character so many places further on. -/
def peekAt (c : Cursor) (n : Nat) : Char := c.rest.getD n '\x00'

/-- Goes past one character.  A carriage return before a line feed ends no line by itself, and a
byte order mark takes no column. -/
def next (c : Cursor) : Cursor :=
  match c.rest with
  | [] => c
  | x :: rest =>
    if (isBreak x && x != '\r') || (x == '\r' && rest.head? != some '\n') then
      ⟨rest, c.index + 1, c.line + 1, 0⟩
    else ⟨rest, c.index + 1, c.line, if x == '\uFEFF' then c.column else c.column + 1⟩

def skip : Nat → Cursor → Cursor
  | 0, c => c
  | n + 1, c => skip n c.next

/-- The characters of a class at the front. -/
def front (c : Cursor) (p : Char → Bool) : List Char := c.rest.takeWhile p

def skipWhile (c : Cursor) (p : Char → Bool) : Cursor := c.skip (c.front p).length

def skipSpaces (c : Cursor) : Cursor := c.skipWhile (· == ' ')

/-- Goes past one line break, if there is one, and tells as what it counts: the separators of lines
and paragraphs stand for themselves, all others for a line feed. -/
def lineBreak (c : Cursor) : List Char × Cursor :=
  let x := c.peek
  if x == '\r' && c.peekAt 1 == '\n' then (['\n'], c.skip 2)
  else if x == '\r' || x == '\n' || x == '\x85' then (['\n'], c.next)
  else if x == '\u2028' || x == '\u2029' then ([x], c.next)
  else ([], c)

def skipComment (c : Cursor) : Cursor :=
  if c.peek == '#' then c.skipWhile (fun x => !isBreakOrEnd x) else c

/-- Does a document marker of three such characters stand here? -/
def atMarker (c : Cursor) (x : Char) : Bool :=
  c.rest.take 3 == [x, x, x] && isBlankOrEnd (c.peekAt 3)

end Cursor

end Conform.Yaml
