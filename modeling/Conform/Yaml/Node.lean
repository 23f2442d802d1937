import Conform.Yaml.Token.Lexer
import Conform.Yaml.Scalar

/-!
# Nodes of a YAML document

A document is a graph of nodes, since an alias is the node of its anchor and not a copy.  Nodes are
kept in a list and refer to each other by number; a collection has its number before its parts have
theirs, so a part may refer back to it.

`Graph.ofTokens` reads tokens as one document.  A key or value that is left out is null.  There may
be directives before the document, but no second document after it.
-/

namespace Conform.Yaml

/-- A node: a scalar, or a collection of nodes given by their numbers. -/
inductive Node where
  | scalar (tag : Tag) (text : List Char)
  | sequence (tag : Tag) (items : List Nat)
  | mapping (tag : Tag) (entries : List (Nat × Nat))

def Node.tag : Node → Tag
  | .scalar t _ | .sequence t _ | .mapping t _ => t

/-- The nodes of a document, and the number of the outermost. -/
structure Graph where
  nodes : Array Node
  root : Nat

/-- What a reader of tokens has done so far. -/
structure NodeReader where
  tokens : List Token
  nodes : Array Node
  /-- The nodes that have a name. -/
  anchors : List (List Char × Nat)
  /-- What the tag handles stand for. -/
  handles : List (List Char × List Char)

/-- Reading tokens, with the state of the reader. -/
abbrev NodeReading := StateT NodeReader (Except Fault)

namespace NodeReading

/-- The next token.  Where the tokens break off, their fault shows. -/
def peek : NodeReading Token := do
  match (← get).tokens with
  | .broken fault :: _ => throw fault
  | t :: _ => return t
  | [] => throw .malformed

def skip : NodeReading Unit := modify fun s => { s with tokens := s.tokens.drop 1 }

/-- Gives a node a number and, if it has one, a name.  A name may be given once only. -/
def add (anchor : Option (List Char)) (node : Node) : NodeReading Nat := do
  let s ← get
  let number := s.nodes.size
  match anchor with
  | none => set { s with nodes := s.nodes.push node }
  | some name =>
    if s.anchors.any fun a => a.1 == name then throw .malformed
    else set { s with nodes := s.nodes.push node, anchors := (name, number) :: s.anchors }
  return number

/-- Puts a node in the place of one that was given a number before. -/
def replace (number : Nat) (node : Node) : NodeReading Unit :=
  modify fun s => { s with nodes := s.nodes.setIfInBounds number node }

/-- The node that stands for what is left out. -/
def nothing : NodeReading Nat := add none (.scalar .null [])

/-- The anchor and the tag in front of a node, in either order. -/
def properties : NodeReading (Option (List Char) × Option TagToken) := do
  match ← peek with
  | .anchor name =>
    skip
    match ← peek with
    | .tag t => skip; return (some name, some t)
    | _ => return (some name, none)
  | .tag t =>
    skip
    match ← peek with
    | .anchor name => skip; return (some name, some t)
    | _ => return (none, some t)
  | _ => return (none, none)

/-- The full name of a tag.  Its handle has to be known. -/
def tagName (t : TagToken) : NodeReading (List Char) := do
  match t.handle with
  | none => return t.suffix
  | some handle =>
    match (← get).handles.find? fun h => h.1 == handle with
    | some (_, leading) => return leading ++ t.suffix
    | none => throw .malformed

/-- The tag of a collection; the lone exclamation mark says nothing about it. -/
def collectionTag (name : Option (List Char)) (default : Tag) : Tag :=
  match name with
  | none | some ['!'] => default
  | some name => .ofName name

/-- The tag of a scalar: the given one, or else by its looks if it is plain.  The lone exclamation
mark makes any scalar count as plain. -/
def scalarTag (name : Option (List Char)) (plain : Bool) (text : List Char) : Tag :=
  match name with
  | none => if plain then .ofPlain text else .str
  | some ['!'] => .ofPlain text
  | some name => .ofName name

mutual
/-- A node.  In flow context no block collection may begin; as the value of a map, a block sequence
need not be indented. -/
def node : Nat → (block unindented : Bool) → NodeReading Nat
  | 0, _, _ => throw .malformed
  | fuel + 1, block, unindented => do
    match ← peek with
    | .alias name =>
      skip
      match (← get).anchors.find? fun a => a.1 == name with
      | some (_, number) => return number
      | none => throw .malformed
    | _ =>
      let (anchor, tag?) ← properties
      let name ← match tag? with
        | none => pure none
        | some t => do pure (some (← tagName t))
      let begin (node : Node) : NodeReading Nat := add anchor node
      match ← peek with
      | .scalar plain text =>
        skip
        begin (.scalar (scalarTag name plain text) text)
      | .flowSequenceStart =>
        let tag := collectionTag name .seq
        let number ← begin (.sequence tag [])
        skip
        replace number (.sequence tag (← flowItems fuel true))
        return number
      | .flowMappingStart =>
        let tag := collectionTag name .map
        let number ← begin (.mapping tag [])
        skip
        replace number (.mapping tag (← flowEntries fuel true))
        return number
      | token =>
        if token == .blockEntry && unindented then do
          let tag := collectionTag name .seq
          let number ← begin (.sequence tag [])
          replace number (.sequence tag (← unindentedItems fuel))
          return number
        else if token == .blockSequenceStart && block then do
          let tag := collectionTag name .seq
          let number ← begin (.sequence tag [])
          skip
          replace number (.sequence tag (← blockItems fuel))
          return number
        else if token == .blockMappingStart && block then do
          let tag := collectionTag name .map
          let number ← begin (.mapping tag [])
          skip
          replace number (.mapping tag (← blockEntries fuel))
          return number
        else if anchor.isSome || name.isSome then
          begin (.scalar (scalarTag name true []) [])
        else throw .malformed

/-- A node, or nothing if one of these tokens comes instead. -/
def nodeUnless : Nat → (stops : List Token) → (block unindented : Bool) → NodeReading Nat
  | 0, _, _, _ => throw .malformed
  | fuel + 1, stops, block, unindented => do
    if stops.contains (← peek) then nothing else node fuel block unindented

def blockItems : Nat → NodeReading (List Nat)
  | 0 => throw .malformed
  | fuel + 1 => do
    match ← peek with
    | .blockEntry =>
      skip
      let item ← nodeUnless fuel [.blockEntry, .blockEnd] true false
      return item :: (← blockItems fuel)
    | .blockEnd => skip; return []
    | _ => throw .malformed

/-- The items of a block sequence that is not indented; what follows it is not its own. -/
def unindentedItems : Nat → NodeReading (List Nat)
  | 0 => throw .malformed
  | fuel + 1 => do
    match ← peek with
    | .blockEntry =>
      skip
      let item ← nodeUnless fuel [.blockEntry, .key, .value, .blockEnd] true false
      return item :: (← unindentedItems fuel)
    | _ => return []

def blockEntries : Nat → NodeReading (List (Nat × Nat))
  | 0 => throw .malformed
  | fuel + 1 => do
    match ← peek with
    | .key =>
      skip
      let stops : List Token := [.key, .value, .blockEnd]
      let key ← nodeUnless fuel stops true true
      let value ← valueUnless fuel stops true true
      return (key, value) :: (← blockEntries fuel)
    | .blockEnd => skip; return []
    | _ => throw .malformed

/-- The value behind a key, or nothing if there is no colon or one of these tokens behind it. -/
def valueUnless : Nat → (stops : List Token) → (block unindented : Bool) → NodeReading Nat
  | 0, _, _, _ => throw .malformed
  | fuel + 1, stops, block, unindented => do
    match ← peek with
    | .value => skip; nodeUnless fuel stops block unindented
    | _ => nothing

/-- The items of a flow sequence; one that has a key is a map of one entry. -/
def flowItems : Nat → (first : Bool) → NodeReading (List Nat)
  | 0, _ => throw .malformed
  | fuel + 1, first => do
    match ← peek with
    | .flowSequenceEnd => skip; return []
    | token =>
      if !first then
        if token == .flowEntry then skip else throw .malformed
      match ← peek with
      | .key =>
        let number ← add none (.mapping .map [])
        skip
        let key ← nodeUnless fuel [.value, .flowEntry, .flowSequenceEnd] false false
        let value ← valueUnless fuel [.flowEntry, .flowSequenceEnd] false false
        replace number (.mapping .map [(key, value)])
        return number :: (← flowItems fuel false)
      | .flowSequenceEnd => skip; return []
      | _ =>
        let item ← node fuel false false
        return item :: (← flowItems fuel false)

/-- The entries of a flow map; a node without a colon is a key with nothing. -/
def flowEntries : Nat → (first : Bool) → NodeReading (List (Nat × Nat))
  | 0, _ => throw .malformed
  | fuel + 1, first => do
    match ← peek with
    | .flowMappingEnd => skip; return []
    | token =>
      if !first then
        if token == .flowEntry then skip else throw .malformed
      match ← peek with
      | .key =>
        skip
        let key ← nodeUnless fuel [.value, .flowEntry, .flowMappingEnd] false false
        let value ← valueUnless fuel [.flowEntry, .flowMappingEnd] false false
        return (key, value) :: (← flowEntries fuel false)
      | .flowMappingEnd => skip; return []
      | _ =>
        let key ← node fuel false false
        let _ ← peek
        let value ← nothing
        return (key, value) :: (← flowEntries fuel false)
end

/-- What the tag handles stand for if no directive says otherwise. -/
def defaultHandles : List (List Char × List Char) :=
  [(['!'], ['!']), (['!', '!'], "tag:yaml.org,2002:".toList)]

/-- The directives before a document: at most one version, which has to be 1, and at most one
meaning for each tag handle. -/
def directives : Nat → (seenVersion : Bool) → NodeReading Unit
  | 0, _ => throw .malformed
  | fuel + 1, seenVersion => do
    match ← peek with
    | .directive d =>
      skip
      match d with
      | .version major _ =>
        if seenVersion || major != 1 then throw .malformed else directives fuel true
      | .tag handle leading =>
        if (← get).handles.any fun h => h.1 == handle then throw .malformed
        else
          modify fun s => { s with handles := (handle, leading) :: s.handles }
          directives fuel seenVersion
      | .other => directives fuel seenVersion
    | _ => modify fun s => { s with handles := s.handles ++ defaultHandles }

/-- Goes past markers that end a document. -/
def skipEnds : Nat → NodeReading Unit
  | 0 => throw .malformed
  | fuel + 1 => do
    match ← peek with
    | .documentEnd => skip; skipEnds fuel
    | _ => return ()

/-- The outermost node of the only document, if there is a document. -/
def document (fuel : Nat) : NodeReading (Option Nat) := do
  match ← peek with
  | .streamEnd => return none
  | .directive _ | .documentStart =>
    directives fuel false
    match ← peek with
    | .documentStart =>
      skip
      match ← peek with
      | .directive _ | .documentStart | .documentEnd | .streamEnd => return some (← nothing)
      | _ => return some (← node fuel true false)
    | _ => throw .malformed
  | _ =>
    modify fun s => { s with handles := defaultHandles }
    return some (← node fuel true false)

/-- The only document; nothing may follow it. -/
def onlyDocument (fuel : Nat) : NodeReading (Option Nat) := do
  match ← document fuel with
  | none => return none
  | some root =>
    skipEnds fuel
    match ← peek with
    | .streamEnd => return some root
    | .directive _ =>
      modify fun s => { s with handles := [] }
      directives fuel false
      throw .malformed
    | _ => throw .malformed

end NodeReading

/-- The document that tokens make up, if there is one. -/
def Graph.ofTokens (tokens : List Token) : Except Fault (Option Graph) :=
  let fuel := 4 * tokens.length + 4
  match (NodeReading.onlyDocument fuel).run ⟨tokens, #[], [], []⟩ with
  | .error fault => .error fault
  | .ok (none, _) => .ok none
  | .ok (some root, s) => .ok (some ⟨s.nodes, root⟩)

end Conform.Yaml
