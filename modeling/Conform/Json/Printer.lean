import Conform.Value.Basic
import Conform.Number.Shortest
import Conform.Calendar.Iso

/-!
# Writing values as JSON

`Json.write` gives the JSON text of a value or the first reason why it has none, parts being
written in order.  A `Style` says how lines are broken, which characters are escaped and whether
dates may appear as their ISO text; `Json.render` is the style for documents, and `Style.message`
the one for a value that is quoted inside a message.

Keys that are no text become text if JSON has a notation for them: numbers, truth values and null.
-/

namespace Conform.Json

/-- Where line breaks go. -/
inductive Layout where
  /-- All on one line, with a blank after each comma and colon. -/
  | compact
  /-- Each item on its own line, indented by so many blanks for each level. -/
  | lines (indent : Nat)

structure Style where
  layout : Layout
  /-- Escape every character outside the visible ASCII range. -/
  ascii : Bool
  /-- Write dates and moments as ISO text. -/
  dates : Bool

def Style.message : Style := ⟨.compact, true, false⟩

/-- The kinds of values that JSON has no notation for. -/
inductive Foreign where
  | bytes | set | missing | tuple | date | moment | list | map
deriving DecidableEq

/-- Why a value has no JSON text. -/
inductive Unwritable where
  /-- A value of this kind has no notation. -/
  | value (kind : Foreign)
  /-- A key of this kind has no notation. -/
  | key (kind : Foreign)
  /-- A numeral has too many digits. -/
  | numeral
  /-- The indentation does not fit into a word. -/
  | indent
deriving DecidableEq

/-! ## Text -/

/-- `\uXXXX`, or two of them for a character beyond the first plane. -/
def unicodeEscape (c : Char) : List Char :=
  let n := c.toNat
  if n < 0x10000 then '\\' :: 'u' :: Digits.paddedHex 4 n
  else
    '\\' :: 'u' :: Digits.paddedHex 4 (0xD800 + (n - 0x10000) / 0x400) ++
      '\\' :: 'u' :: Digits.paddedHex 4 (0xDC00 + (n - 0x10000) % 0x400)

def escape (ascii : Bool) (c : Char) : List Char :=
  match c with
  | '"' => ['\\', '"']
  | '\\' => ['\\', '\\']
  | '\n' => ['\\', 'n']
  | '\r' => ['\\', 'r']
  | '\t' => ['\\', 't']
  | '\x0c' => ['\\', 'f']
  | '\x08' => ['\\', 'b']
  | c =>
    if c.toNat < 0x20 ∨ (ascii ∧ 0x7E < c.toNat) then unicodeEscape c else [c]

def quote (ascii : Bool) (cs : List Char) : List Char :=
  '"' :: (cs.flatMap (escape ascii) ++ ['"'])

/-- The words of JSON for the numbers that no digits express. -/
def floatWords : FloatStyle := ⟨"NaN".toList, "Infinity".toList⟩

/-! ## Values -/

/-- The text of an integer, unless it is too long. -/
def writeInt (n : Int) : Except Unwritable (List Char) :=
  if Digits.withinLimit n then .ok (Digits.ofInt n) else .error .numeral

def keyText : Value → Except Unwritable (List Char)
  | .text s => .ok s.toList
  | .float x => .ok (x.write floatWords)
  | .bool b => .ok (if b then "true" else "false").toList
  | .null => .ok "null".toList
  | .int n => writeInt n
  | .tuple _ => .error (.key .tuple)
  | .bytes _ => .error (.key .bytes)
  | .date _ => .error (.key .date)
  | .moment _ => .error (.key .moment)
  | .missing => .error (.key .missing)
  | .list _ => .error (.key .list)
  | .map _ => .error (.key .map)
  | .set _ => .error (.key .set)

/-- The start of a new line at a level, or nothing in the compact layout. -/
def lineBreak (layout : Layout) (level : Nat) : List Char :=
  match layout with
  | .compact => []
  | .lines indent => '\n' :: List.replicate (indent * level) ' '

/-- What stands between two items at a level. -/
def separator (layout : Layout) (level : Nat) : List Char :=
  match layout with
  | .compact => [',', ' ']
  | .lines _ => ',' :: lineBreak layout level

/-- Brackets around items that are already joined, the items one level deeper than the brackets. -/
def enclose (layout : Layout) (level : Nat) (opening closing : Char) (body : List Char) :
    List Char :=
  opening :: (lineBreak layout (level + 1) ++ body ++ lineBreak layout level ++ [closing])

mutual
/-- The text of a value whose line starts at a level. -/
def write (style : Style) (level : Nat) : Value → Except Unwritable (List Char)
  | .null => .ok "null".toList
  | .bool b => .ok (if b then "true" else "false").toList
  | .int n => writeInt n
  | .float x => .ok (x.write floatWords)
  | .text s => .ok (quote style.ascii s.toList)
  | .list [] | .tuple [] => .ok ['[', ']']
  | .list (x :: xs) | .tuple (x :: xs) => do
    let body ← write style (level + 1) x
    let rest ← writeItems style (level + 1) xs
    return enclose style.layout level '[' ']' (body ++ rest)
  | .map [] => .ok ['{', '}']
  | .map ((k, v) :: es) => do
    let key ← keyText k
    let body ← write style (level + 1) v
    let rest ← writeEntries style (level + 1) es
    return enclose style.layout level '{' '}' (quote style.ascii key ++ ':' :: ' ' :: body ++ rest)
  | .date d => if style.dates then .ok (quote style.ascii d.iso) else .error (.value .date)
  | .moment m => if style.dates then .ok (quote style.ascii m.iso) else .error (.value .moment)
  | .bytes _ => .error (.value .bytes)
  | .set _ => .error (.value .set)
  | .missing => .error (.value .missing)

/-- The text of the items after the first, each with the separator before it. -/
def writeItems (style : Style) (level : Nat) : List Value → Except Unwritable (List Char)
  | [] => .ok []
  | x :: xs => do
    let body ← write style level x
    let rest ← writeItems style level xs
    return separator style.layout level ++ body ++ rest

/-- The text of the entries after the first, each with the separator before it. -/
def writeEntries (style : Style) (level : Nat) :
    List (Value × Value) → Except Unwritable (List Char)
  | [] => .ok []
  | (k, v) :: es => do
    let key ← keyText k
    let body ← write style level v
    let rest ← writeEntries style level es
    return separator style.layout level ++ quote style.ascii key ++ ':' :: ' ' :: body ++ rest
end

/-- The layout for an indentation: none means one line, and a negative one breaks lines without
indenting them.  It has to fit into a word. -/
def Layout.ofIndent? : Option Int → Option Layout
  | none => some .compact
  | some n => if Digits.fitsWord n then some (.lines n.toNat) else none

/-- The JSON text of a value as a document. -/
def render (indent : Option Int) (v : Value) : Except Unwritable String :=
  match v, Layout.ofIndent? indent with
  | .text s, _ => .ok (String.ofList (quote false s.toList))
  | v, some layout => (write ⟨layout, false, true⟩ 0 v).map String.ofList
  | _, none => .error .indent

/-! ## Messages -/

def Foreign.name : Foreign → String
  | .bytes => "bytes"
  | .set => "set"
  | .missing => "_Missing"
  | .tuple => "tuple"
  | .date => "date"
  | .moment => "datetime"
  | .list => "list"
  | .map => "dict"

/-- The name of a kind of key; the compact layout writes those of dates in full. -/
def Foreign.keyName (compact : Bool) : Foreign → String
  | .date => if compact then "datetime.date" else "date"
  | .moment => if compact then "datetime.datetime" else "datetime"
  | kind => kind.name

/-- Why a value cannot be rendered with an indentation, unless it is the indentation: that it fits
into no word is not put into words. -/
def Unwritable.message? (indent : Option Int) (reason : Unwritable) : Option String :=
  let why := match reason with
    | .value kind => some ("Object of type " ++ kind.name ++ " is not JSON serializable")
    | .key kind =>
      some ("keys must be str, int, float, bool or None, not " ++ kind.keyName indent.isNone)
    | .numeral =>
      some ("Exceeds the limit (4300 digits) for integer string conversion; " ++
        "use sys.set_int_max_str_digits() to increase the limit")
    | .indent => none
  why.map ("Cannot render value as JSON: " ++ ·)

end Conform.Json
