import Conform.Yaml.Token.Basic
import Conform.Number.Digits

/-!
# Scalars in a YAML text

The three ways to write a scalar: plain, between quotes, and as an indented block.  Each reader
takes a cursor at the start of the scalar and gives its text and the cursor behind it.  Text that
is broken over lines is folded: a single break counts as a space, and of several the first is
dropped.

Loops over lines are bounded by the length of what is left, as every line takes a character.
-/

namespace Conform.Yaml

/-! ## Plain scalars -/

/-- The front of a line that belongs to a plain scalar: up to white space, a colon that separates,
and in flow context the other separators. -/
def plainRun (flow : Bool) : List Char → List Char
  | [] => []
  | c :: rest =>
    let next := rest.headD '\x00'
    if isBlankOrEnd c ||
        (c == ':' && (isBlankOrEnd next || (flow && ",[]\x7b\x7d".toList.contains next))) ||
        (flow && ",?[]\x7b\x7d".toList.contains c) then []
    else c :: plainRun flow rest

/-- Goes past spaces and empty lines.  The result is the breaks met, in reverse, or nothing at a
document marker. -/
def emptyLines : Nat → List Char → Cursor → Option (List Char) × Cursor
  | 0, breaks, c => (some breaks, c)
  | fuel + 1, breaks, c =>
    if c.peek == ' ' then emptyLines fuel breaks c.next
    else if isBreak c.peek then
      let (b, c) := c.lineBreak
      if c.atMarker '-' || c.atMarker '.' then (none, c)
      else emptyLines fuel (b.reverse ++ breaks) c
    else (some breaks, c)

/-- How a line break followed by further breaks counts. -/
def foldBreaks (first : List Char) (more : List Char) : List Char :=
  if first != ['\n'] then first ++ more else if more.isEmpty then [' '] else more

/-- The white space after a run of a plain scalar: as what it counts if the scalar goes on behind
it, and whether it crosses the end of a line. -/
def plainSpaces (c : Cursor) : List Char × Bool × Cursor :=
  let spaces := c.front (· == ' ')
  let c := c.skipSpaces
  if isBreak c.peek then
    let (first, c) := c.lineBreak
    if c.atMarker '-' || c.atMarker '.' then ([], true, c)
    else match emptyLines (c.rest.length + 1) [] c with
      | (none, c) => ([], true, c)
      | (some more, c) => (foldBreaks first more.reverse, true, c)
  else (spaces, false, c)

/-- The runs of a plain scalar: `done` is what was read, `spaces` the white space before the next
run, `crossed` whether that space crosses the end of a line. -/
def plainRuns (flow : Bool) (indent : Int) :
    Nat → List Char → List Char → Bool → Cursor → List Char × Bool × Cursor
  | 0, done, _, crossed, c => (done, crossed, c)
  | fuel + 1, done, spaces, crossed, c =>
    let run := plainRun flow c.rest
    if c.peek == '#' || run.isEmpty then (done, crossed, c)
    else
      let done := done ++ spaces ++ run
      let (spaces, crossed, c) := plainSpaces (c.skip run.length)
      if spaces.isEmpty || c.peek == '#' || (!flow && (c.column : Int) < indent) then
        (done, crossed, c)
      else plainRuns flow indent fuel done spaces crossed c

/-- A plain scalar: its text, whether the white space behind it crosses the end of a line, and the
cursor behind that. -/
def readPlain (flow : Bool) (indent : Int) (c : Cursor) : List Char × Bool × Cursor :=
  plainRuns flow indent (c.rest.length + 1) [] [] false c

/-! ## Scalars between quotes -/

/-- The character that a one-letter escape stands for. -/
def escaped? : Char → Option Char
  | '0' => some '\x00'
  | 'a' => some '\x07'
  | 'b' => some '\x08'
  | 't' => some '\t'
  | '\t' => some '\t'
  | 'n' => some '\n'
  | 'v' => some '\x0b'
  | 'f' => some '\x0c'
  | 'r' => some '\r'
  | 'e' => some '\x1b'
  | ' ' => some ' '
  | '"' => some '"'
  | '\\' => some '\\'
  | '/' => some '/'
  | 'N' => some '\x85'
  | '_' => some '\xa0'
  | 'L' => some '\u2028'
  | 'P' => some '\u2029'
  | _ => none

/-- How many hexadecimal digits an escape has. -/
def escapeWidth? : Char → Option Nat
  | 'x' => some 2
  | 'u' => some 4
  | 'U' => some 8
  | _ => none

/-- The character with a number; half of a surrogate pair counts as the replacement character. -/
def characterOf (code : Nat) : Except Fault Char :=
  if 0x10FFFF < code then .error (.noCharacter code)
  else if 0xD800 ≤ code ∧ code < 0xE000 then .ok '\uFFFD'
  else .ok (Char.ofNat code)

/-- The breaks of empty lines inside quotes; a document marker must not stand among them. -/
def quotedBreaks : Nat → List Char → Cursor → Except Fault (List Char × Cursor)
  | 0, breaks, c => .ok (breaks, c)
  | fuel + 1, breaks, c =>
    if c.atMarker '-' || c.atMarker '.' then .error .malformed
    else
      let c := c.skipWhile fun x => x == ' ' || x == '\t'
      if isBreak c.peek then
        let (b, c) := c.lineBreak
        quotedBreaks fuel (breaks ++ b) c
      else .ok (breaks, c)

def quotedEscape (c : Cursor) : Except Fault (List Char × Cursor) :=
  match escaped? c.peek with
  | some x => .ok ([x], c.next)
  | none =>
    match escapeWidth? c.peek with
    | some width =>
      let digits := c.next.rest.take width
      if digits.length == width && digits.all Digits.isHexDigit then do
        let x ← characterOf (Digits.ofDigits 16 digits)
        return ([x], c.next.skip width)
      else .error .malformed
    | none =>
      if isBreak c.peek then quotedBreaks (c.rest.length + 1) [] c.lineBreak.2
      else .error .malformed

/-- The text between quotes up to the closing quote. -/
def quotedText (double : Bool) : Nat → List Char → Cursor → Except Fault (List Char × Cursor)
  | 0, _, _ => .error .malformed
  | fuel + 1, done, c =>
    let x := c.peek
    let quote := if double then '"' else '\''
    if x == '\x00' then .error .malformed
    else if x == ' ' || x == '\t' || isBreak x then
      let spaces := c.front fun x => x == ' ' || x == '\t'
      let c := c.skip spaces.length
      if c.peek == '\x00' then .error .malformed
      else if isBreak c.peek then
        let (first, c) := c.lineBreak
        match quotedBreaks (c.rest.length + 1) [] c with
        | .error fault => .error fault
        | .ok (more, c) => quotedText double fuel (done ++ foldBreaks first more) c
      else quotedText double fuel (done ++ spaces) c
    else if x == quote then
      if !double && c.peekAt 1 == '\'' then quotedText double fuel (done ++ ['\'']) (c.skip 2)
      else .ok (done, c.next)
    else if double && x == '\\' then
      match quotedEscape c.next with
      | .error fault => .error fault
      | .ok (text, c) => quotedText double fuel (done ++ text) c
    else
      let run := c.front fun x => !("'\"\\ \t".toList.contains x || isBreakOrEnd x)
      let run := if run.isEmpty then [x] else run
      quotedText double fuel (done ++ run) (c.skip run.length)

/-- A scalar between quotes, the cursor standing at the opening one. -/
def readQuoted (double : Bool) (c : Cursor) : Except Fault (List Char × Cursor) :=
  quotedText double (c.rest.length + 1) [] c.next

/-! ## Block scalars -/

/-- What is kept of the breaks at the end of a block. -/
inductive Chomping where
  /-- None. -/
  | strip
  /-- The first. -/
  | clip
  /-- All. -/
  | keep
deriving DecidableEq

def Chomping.ofSign? : Char → Option Chomping
  | '+' => some .keep
  | '-' => some .strip
  | _ => none

/-- The head of a block: chomping and indentation in either order. -/
def blockHead (c : Cursor) : Except Fault ((Chomping × Option Nat) × Cursor) := do
  let isDigit := Digits.isDigit
  let width (x : Char) : Except Fault Nat :=
    if x == '0' then .error .malformed else .ok (Digits.ofDigits 10 [x])
  let (chomping, indent, c) ← match Chomping.ofSign? c.peek with
    | some chomping =>
      let c := c.next
      if isDigit c.peek then do
        let n ← width c.peek
        pure (chomping, some n, c.next)
      else pure (chomping, none, c)
    | none =>
      if isDigit c.peek then do
        let n ← width c.peek
        let c := c.next
        match Chomping.ofSign? c.peek with
        | some chomping => pure (chomping, some n, c.next)
        | none => pure (.clip, some n, c)
      else pure (.clip, none, c)
  if isSpaceOrEnd c.peek then return ((chomping, indent), c) else .error .malformed

/-- The rest of the line of a block's head: spaces and a comment. -/
def restOfLine (c : Cursor) : Except Fault Cursor :=
  let c := c.skipSpaces.skipComment
  if isBreakOrEnd c.peek then .ok c.lineBreak.2 else .error .malformed

/-- The empty lines before the first line of a block, and the largest indentation met. -/
def blockIndent : Nat → List Char → Nat → Cursor → List Char × Nat × Cursor
  | 0, breaks, widest, c => (breaks, widest, c)
  | fuel + 1, breaks, widest, c =>
    if c.peek == ' ' then
      let c := c.next
      blockIndent fuel breaks (max widest c.column) c
    else if isBreak c.peek then
      let (b, c) := c.lineBreak
      blockIndent fuel (breaks ++ b) widest c
    else (breaks, widest, c)

/-- Goes past spaces up to a column. -/
def skipIndent (indent : Nat) : Nat → Cursor → Cursor
  | 0, c => c
  | fuel + 1, c => if c.column < indent && c.peek == ' ' then skipIndent indent fuel c.next else c

/-- The empty lines between the lines of a block. -/
def blockBreaks (indent : Nat) : Nat → List Char → Cursor → List Char × Cursor
  | 0, breaks, c => (breaks, c)
  | fuel + 1, breaks, c =>
    let c := skipIndent indent c.rest.length c
    if isBreak c.peek then
      let (b, c) := c.lineBreak
      blockBreaks indent fuel (breaks ++ b) c
    else (breaks, c)

/-- The lines of a block.  `breaks` stands before the next line.  The result is the text up to the
end of the last line, its own break, and the breaks behind it. -/
def blockLines (folded : Bool) (indent : Nat) :
    Nat → List Char → List Char → List Char → Cursor → (List Char × List Char × List Char) × Cursor
  | 0, done, lineBreak, breaks, c => ((done, lineBreak, breaks), c)
  | fuel + 1, done, lineBreak, breaks, c =>
    if c.column == indent && c.peek != '\x00' then
      let startsBlank (c : Cursor) : Bool := c.peek == ' ' || c.peek == '\t'
      let blank := startsBlank c
      let line := c.front fun x => !isBreakOrEnd x
      let done := done ++ breaks ++ line
      let (lineBreak, c) := (c.skip line.length).lineBreak
      let (breaks, c) := blockBreaks indent (c.rest.length + 1) [] c
      if c.column == indent && c.peek != '\x00' then
        let between :=
          if folded && lineBreak == ['\n'] && !blank && !startsBlank c then
            if breaks.isEmpty then [' '] else []
          else lineBreak
        blockLines folded indent fuel (done ++ between) [] breaks c
      else ((done, lineBreak, breaks), c)
    else ((done, lineBreak, breaks), c)

/-- A block scalar, the cursor standing at its mark, inside a collection of an indentation. -/
def readBlock (folded : Bool) (outer : Int) (c : Cursor) : Except Fault (List Char × Cursor) := do
  let ((chomping, width), c) ← blockHead c.next
  let c ← restOfLine c
  let least := (max (outer + 1) 1).toNat
  let (breaks, indent, c) := match width with
    | some n =>
      let indent := least + n - 1
      let (breaks, c) := blockBreaks indent (c.rest.length + 1) [] c
      (breaks, indent, c)
    | none =>
      let (breaks, widest, c) := blockIndent (c.rest.length + 1) [] 0 c
      (breaks, max least widest, c)
  let ((text, lineBreak, breaks), c) :=
    blockLines folded indent (c.rest.length + 1) [] [] breaks c
  let ending := match chomping with
    | .strip => []
    | .clip => lineBreak
    | .keep => lineBreak ++ breaks
  return (text ++ ending, c)

end Conform.Yaml
