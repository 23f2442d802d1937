import Conform.Yaml.Token.Scalar

/-!
# Splitting a YAML text into tokens

Whether a scalar or collection is the key of a map shows only at the colon behind it.  So the lexer
only ever appends tokens; for each place where a key may start it keeps a `KeyPlace`, and the colon
turns the one of its level into a mark.  `splice` puts the key tokens in front of the marked tokens
at the end.

In block context, indentation opens and closes collections; in flow context it counts for nothing.
A key has to fit on one line and into 1024 characters.
-/

namespace Conform.Yaml

/-! ## Names, tags and directives -/

/-- The name of an anchor or alias behind its mark. -/
def readName (c : Cursor) : Except Fault (List Char × Cursor) :=
  let c := c.next
  let name := c.front isNameChar
  let c := c.skip name.length
  if name.isEmpty then .error .malformed
  else if isBlankOrEnd c.peek || "?:,]\x7d%@`".toList.contains c.peek then .ok (name, c)
  else .error .malformed

/-- Bytes given by percent signs and two hexadecimal digits each. -/
def percentOctets : Nat → List UInt8 → Cursor → Except Fault (List UInt8 × Cursor)
  | 0, done, c => .ok (done, c)
  | fuel + 1, done, c =>
    if c.peek == '%' then
      let digits := c.next.rest.take 2
      if digits.length == 2 && digits.all Digits.isHexDigit then
        percentOctets fuel (done ++ [UInt8.ofNat (Digits.ofDigits 16 digits)]) (c.skip 3)
      else .error .malformed
    else .ok (done, c)

/-- The text that bytes stand for in UTF-8. -/
def utf8? (octets : List UInt8) : Option (List Char) :=
  (String.fromUTF8? (ByteArray.mk octets.toArray)).map String.toList

/-- The characters of a tag, percent escapes resolved. -/
def tagChars : Nat → List Char → Cursor → Except Fault (List Char × Cursor)
  | 0, done, c => .ok (done, c)
  | fuel + 1, done, c =>
    if c.peek == '%' then
      match percentOctets (c.rest.length + 1) [] c with
      | .error fault => .error fault
      | .ok (octets, c) =>
        match utf8? octets with
        | some text => tagChars fuel (done ++ text) c
        | none => .error .malformed
    else if isTagChar c.peek then tagChars fuel (done ++ [c.peek]) c.next
    else .ok (done, c)

/-- The characters of a tag, at least one. -/
def readTagChars (c : Cursor) : Except Fault (List Char × Cursor) :=
  match tagChars (c.rest.length + 1) [] c with
  | .error fault => .error fault
  | .ok (text, after) => if after.index == c.index then .error .malformed else .ok (text, after)

/-- A tag handle: one exclamation mark, or a name between two. -/
def readHandle (c : Cursor) : Except Fault (List Char × Cursor) :=
  if c.peek != '!' then .error .malformed
  else if c.peekAt 1 == ' ' then .ok (['!'], c.next)
  else
    let name := c.next.front isNameChar
    let c := c.next.skip name.length
    if c.peek == '!' then .ok ('!' :: name ++ ['!'], c.next) else .error .malformed

/-- A tag, the cursor standing at its exclamation mark. -/
def readTag (c : Cursor) : Except Fault (TagToken × Cursor) := do
  let (tag, c) ←
    if c.peekAt 1 == '<' then do
      let (suffix, c) ← readTagChars (c.skip 2)
      if c.peek == '>' then pure (TagToken.mk none suffix, c.next) else .error .malformed
    else if isBlankOrEnd (c.peekAt 1) then pure (TagToken.mk none ['!'], c.next)
    else if (c.next.front fun x => !isSpaceOrEnd x).contains '!' then do
      let (handle, c) ← readHandle c
      let (suffix, c) ← readTagChars c
      pure (TagToken.mk (some handle) suffix, c)
    else do
      let (suffix, c) ← readTagChars c.next
      pure (TagToken.mk (some ['!']) suffix, c)
  if isSpaceOrEnd c.peek then return (tag, c) else .error .malformed

def readVersionNumber (c : Cursor) : Except Fault (Nat × Cursor) :=
  let digits := c.front Digits.isDigit
  if digits.isEmpty then .error .malformed
  else if Digits.limit < digits.length then .error .notANumber
  else .ok (Digits.ofDigits 10 digits, c.skip digits.length)

/-- A directive, the cursor standing at its percent sign. -/
def readDirective (c : Cursor) : Except Fault (Directive × Cursor) := do
  let name := c.next.front isNameChar
  let c := c.next.skip name.length
  if name.isEmpty || !isSpaceOrEnd c.peek then .error .malformed
  else
    let (directive, c) ←
      if name == "YAML".toList then do
        let (major, c) ← readVersionNumber c.skipSpaces
        if c.peek != '.' then .error .malformed
        else do
          let (minor, c) ← readVersionNumber c.next
          if isSpaceOrEnd c.peek then pure (Directive.version major minor, c)
          else .error .malformed
      else if name == "TAG".toList then do
        let (handle, c) ← readHandle c.skipSpaces
        if c.peek != ' ' then .error .malformed
        else do
          let (leading, c) ← readTagChars c.skipSpaces
          if isSpaceOrEnd c.peek then pure (Directive.tag handle leading, c)
          else .error .malformed
      else pure (Directive.other, c.skipWhile fun x => !isBreakOrEnd x)
    let c ← restOfLine c
    return (directive, c)

/-! ## The lexer -/

structure KeyPlace where
  /-- The number of the token at the place. -/
  position : Nat
  /-- Nothing but a key may stand at the place. -/
  required : Bool
  index : Nat
  line : Nat
  column : Nat

/-- What the lexer has done so far. -/
structure Lexer where
  cursor : Cursor
  /-- The tokens in reverse. -/
  tokens : List Token
  count : Nat
  /-- The numbers of the tokens before which a key starts, and whether a block map starts too. -/
  marks : List (Nat × Bool)
  /-- How many flow collections are open. -/
  flow : Int
  /-- The column of the innermost block collection. -/
  indent : Int
  /-- The columns of the block collections around it. -/
  indents : List Int
  /-- May a key start at the next token? -/
  allowKey : Bool
  /-- The place where a key may have started, for each number of open flow collections. -/
  keys : List (Int × KeyPlace)
  finished : Bool

namespace Lexer

def start (text : List Char) : Lexer :=
  ⟨.start text, [], 0, [], 0, -1, [], true, [], false⟩

def inBlock (l : Lexer) : Bool := l.flow == 0

def emit (l : Lexer) (t : Token) : Lexer := { l with tokens := t :: l.tokens, count := l.count + 1 }

/-- Appends a token and goes on behind so many characters. -/
def emitSkip (l : Lexer) (t : Token) (n : Nat) : Lexer :=
  { l.emit t with cursor := l.cursor.skip n }

/-- How many of the collections end that are indented beyond a column, and what is left. -/
def closing (column : Int) : Int → List Int → Nat × Int × List Int
  | indent, [] => (0, indent, [])
  | indent, outer :: rest =>
    if indent > column then
      let (n, i, is) := closing column outer rest
      (n + 1, i, is)
    else (0, indent, outer :: rest)

/-- Ends the block collections that are indented beyond a column. -/
def closeBlocks (l : Lexer) (column : Int) : Lexer :=
  if l.inBlock then
    let (n, indent, indents) := closing column l.indent l.indents
    { l with
      tokens := List.replicate n .blockEnd ++ l.tokens, count := l.count + n, indent, indents }
  else l

/-- Begins a block collection at a column, unless one is open there. -/
def indentTo (l : Lexer) (column : Int) : Bool × Lexer :=
  if l.indent < column then
    (true, { l with indent := column, indents := l.indent :: l.indents })
  else (false, l)

/-- Gives up the places for keys that the cursor has left too far behind. -/
def expireKeys (l : Lexer) : Except Fault Lexer :=
  let isExpired (k : KeyPlace) : Bool :=
    k.line != l.cursor.line || k.index + 1024 < l.cursor.index
  if l.keys.any fun k => isExpired k.2 && k.2.required then .error .malformed
  else .ok { l with keys := l.keys.filter fun k => !isExpired k.2 }

/-- Gives up the place for a key on the present level. -/
def forgetKey (l : Lexer) : Except Fault Lexer :=
  if l.keys.any fun k => k.1 == l.flow && k.2.required then .error .malformed
  else .ok { l with keys := l.keys.filter fun k => k.1 != l.flow }

/-- Notes that a key may start at the next token. -/
def noteKey (l : Lexer) : Except Fault Lexer :=
  if l.allowKey then do
    let required := l.inBlock && l.indent == (l.cursor.column : Int)
    let l ← l.forgetKey
    let c := l.cursor
    return { l with
      keys := (l.flow, ⟨l.count, required, c.index, c.line, c.column⟩) :: l.keys }
  else .ok l

/-- Goes past spaces, comments and line breaks; behind a line break a key may start. -/
def skipToToken : Nat → Lexer → Lexer
  | 0, l => l
  | fuel + 1, l =>
    let c := l.cursor.skipSpaces.skipComment
    if isBreak c.peek then
      skipToToken fuel { l with cursor := c.lineBreak.2, allowKey := l.allowKey || l.inBlock }
    else { l with cursor := c }

/-! ### One rule for each kind of token -/

def lexEnd (l : Lexer) : Except Fault Lexer := do
  let l ← (l.closeBlocks (-1)).forgetKey
  return { l.emit .streamEnd with allowKey := false, keys := [], finished := true }

def lexDirective (l : Lexer) : Except Fault Lexer := do
  let l ← (l.closeBlocks (-1)).forgetKey
  let (directive, cursor) ← readDirective l.cursor
  return { l.emit (.directive directive) with cursor, allowKey := false }

def lexMarker (l : Lexer) (t : Token) : Except Fault Lexer := do
  let l ← (l.closeBlocks (-1)).forgetKey
  return { l.emitSkip t 3 with allowKey := false }

def lexOpening (l : Lexer) (t : Token) : Except Fault Lexer := do
  let l ← l.noteKey
  return { l.emitSkip t 1 with flow := l.flow + 1, allowKey := true }

def lexClosing (l : Lexer) (t : Token) : Except Fault Lexer := do
  let l ← l.forgetKey
  return { l.emitSkip t 1 with flow := l.flow - 1, allowKey := false }

def lexComma (l : Lexer) : Except Fault Lexer := do
  let l ← l.forgetKey
  return { l.emitSkip .flowEntry 1 with allowKey := true }

/-- Begins a block collection with a token, where one may begin. -/
def openBlock (l : Lexer) (t : Token) : Except Fault Lexer :=
  if l.inBlock then
    if l.allowKey then
      let (opened, l) := l.indentTo l.cursor.column
      .ok (if opened then l.emit t else l)
    else .error .malformed
  else .ok l

/-- A hyphen before an item of a block sequence. -/
def lexHyphen (l : Lexer) : Except Fault Lexer := do
  let l ← l.openBlock .blockSequenceStart
  let l ← l.forgetKey
  return { l.emitSkip .blockEntry 1 with allowKey := true }

def lexQuestion (l : Lexer) : Except Fault Lexer := do
  let l ← l.openBlock .blockMappingStart
  let l ← l.forgetKey
  return { l.emitSkip .key 1 with allowKey := l.inBlock }

/-- A colon before a value: the end of the key noted on this level, or of a key that a question mark
began. -/
def lexColon (l : Lexer) : Except Fault Lexer :=
  match l.keys.find? fun k => k.1 == l.flow with
  | some (_, key) =>
    let l := { l with keys := l.keys.filter fun k => k.1 != l.flow }
    let (opened, l) := if l.inBlock then l.indentTo key.column else (false, l)
    .ok { l.emitSkip .value 1 with marks := (key.position, opened) :: l.marks, allowKey := false }
  | none => do
    let l ← l.openBlock .blockMappingStart
    return { l.emitSkip .value 1 with allowKey := l.inBlock }

/-- An alias or an anchor. -/
def lexName (l : Lexer) (make : List Char → Token) : Except Fault Lexer := do
  let l ← l.noteKey
  let (name, cursor) ← readName l.cursor
  return { l.emit (make name) with cursor, allowKey := false }

def lexTag (l : Lexer) : Except Fault Lexer := do
  let l ← l.noteKey
  let (tag, cursor) ← readTag l.cursor
  return { l.emit (.tag tag) with cursor, allowKey := false }

def lexBlock (l : Lexer) (folded : Bool) : Except Fault Lexer := do
  let l ← l.forgetKey
  let (text, cursor) ← readBlock folded l.indent l.cursor
  return { l.emit (.scalar false text) with cursor, allowKey := true }

def lexQuoted (l : Lexer) (double : Bool) : Except Fault Lexer := do
  let l ← l.noteKey
  let (text, cursor) ← readQuoted double l.cursor
  return { l.emit (.scalar false text) with cursor, allowKey := false }

def lexPlain (l : Lexer) : Except Fault Lexer := do
  let l ← l.noteKey
  let (text, crossed, cursor) := readPlain (!l.inBlock) (l.indent + 1) l.cursor
  return { l.emit (.scalar true text) with cursor, allowKey := crossed }

/-- May a plain scalar start here? -/
def startsPlain (l : Lexer) : Bool :=
  let x := l.cursor.peek
  !(isBlankOrEnd x || "-?:,[]\x7b\x7d#&*!|>'\"%@`".toList.contains x) ||
    (!isBlankOrEnd (l.cursor.peekAt 1) && (x == '-' || (l.inBlock && (x == '?' || x == ':'))))

/-- Reads up to the next token and appends it. -/
def lexToken (l : Lexer) : Except Fault Lexer := do
  let l := if l.cursor.index == 0 && l.cursor.peek == '\uFEFF' then
    { l with cursor := l.cursor.next } else l
  let l := skipToToken (l.cursor.rest.length + 1) l
  let l ← l.expireKeys
  let l := l.closeBlocks l.cursor.column
  let c := l.cursor
  let x := c.peek
  let separated := isBlankOrEnd (c.peekAt 1)
  if x == '\x00' then l.lexEnd
  else if x == '%' && c.column == 0 then l.lexDirective
  else if c.column == 0 && c.atMarker '-' then l.lexMarker .documentStart
  else if c.column == 0 && c.atMarker '.' then l.lexMarker .documentEnd
  else if x == '[' then l.lexOpening .flowSequenceStart
  else if x == '{' then l.lexOpening .flowMappingStart
  else if x == ']' then l.lexClosing .flowSequenceEnd
  else if x == '}' then l.lexClosing .flowMappingEnd
  else if x == ',' then l.lexComma
  else if x == '-' && separated then l.lexHyphen
  else if x == '?' && (!l.inBlock || separated) then l.lexQuestion
  else if x == ':' && (!l.inBlock || separated) then l.lexColon
  else if x == '*' then l.lexName .alias
  else if x == '&' then l.lexName .anchor
  else if x == '!' then l.lexTag
  else if x == '|' && l.inBlock then l.lexBlock false
  else if x == '>' && l.inBlock then l.lexBlock true
  else if x == '\'' then l.lexQuoted false
  else if x == '"' then l.lexQuoted true
  else if l.startsPlain then l.lexPlain
  else .error .malformed

/-! ### The whole text -/

/-- Puts the key tokens in front of the marked tokens, which are numbered from `n` on. -/
def splice (marks : List (Nat × Bool)) : Nat → List Token → List Token
  | _, [] => []
  | n, t :: ts =>
    let keys := match marks.find? fun m => m.1 == n with
      | some (_, true) => [Token.blockMappingStart, Token.key]
      | some (_, false) => [Token.key]
      | none => []
    keys ++ t :: splice marks (n + 1) ts

/-- The number of the token that a reader would have asked for when the lexer went on: the first
that may still turn out to be a key, or else the one after the last. -/
def wanted (l : Lexer) : Nat := l.keys.foldl (fun n k => min n k.2.position) l.count

/-- The tokens so far, broken off at the place where a fault shows. -/
def breakAt (l : Lexer) (n : Nat) (fault : Fault) : List Token :=
  splice l.marks 0 (l.tokens.reverse.take n) ++ [.broken fault]

/-- Appends tokens up to the end of the text. -/
def run : Nat → Lexer → List Token
  | 0, l => l.breakAt l.count .malformed
  | fuel + 1, l =>
    if l.finished then splice l.marks 0 l.tokens.reverse
    else match l.expireKeys with
      | .error fault => l.breakAt l.count fault
      | .ok l =>
        match l.lexToken with
        | .error fault => l.breakAt l.wanted fault
        | .ok next => run fuel next

end Lexer

/-- The tokens of a text.  Each takes a character at least. -/
def Token.ofText (text : List Char) : List Token :=
  if text.all isAllowed then Lexer.run (text.length + 2) (.start text) else [.broken .malformed]

end Conform.Yaml
