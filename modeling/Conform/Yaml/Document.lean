import Conform.Yaml.Node

/-!
# Values of YAML documents

`Yaml.parse` reads a text as one document and gives its value.

Nodes get their values in two steps.  The first goes through the graph breadth first and decides
what each node is: a scalar with its value, or a collection with the numbers of its parts.  A node
that has several names is visited once.  Here maps are merged into maps (the mark `<<`), keys are
found to be values that can be keys, and the first fault in this order is the one reported.  The
second step puts the parts together.  A node that contains itself lies outside the values described
here, which are finite; it is met when the levels to put together are used up.
-/

namespace Conform.Yaml

/-- What a node was found to be. -/
inductive Built where
  | scalar (v : Value)
  | list (items : List Nat)
  | map (entries : List (Value × Nat))
  | set (keys : List Value)
  /-- A list of pairs. -/
  | pairs (items : List (Nat × Nat))

/-- The state of the first step. -/
structure Builder where
  nodes : Array Node
  /-- What each node was found to be; a collection whose parts were not visited yet is an empty
  list. -/
  built : Array (Option Built)
  /-- The collections whose parts are still to be visited, the last first. -/
  waiting : List Nat

/-- The first step, with its state. -/
abbrev Build := StateT Builder (Except Fault)

namespace Build

def nodeAt (number : Nat) : Build Node := do
  match (← get).nodes[number]? with
  | some node => return node
  | none => throw .malformed

/-- Is the node a key with this tag? -/
def hasTag (tag : Tag) (number : Nat) : Build Bool := return (← nodeAt number).tag == tag

/-! ## Merging -/

/-- Splits entries at the first one whose key is a merge mark. -/
def splitAtMerge : List (Nat × Nat) → Build (Option (List (Nat × Nat) × Nat × List (Nat × Nat)))
  | [] => return none
  | (k, v) :: rest => do
    if ← hasTag .merge k then return some ([], v, rest)
    else
      match ← splitAtMerge rest with
      | some (before, merged, after) => return some ((k, v) :: before, merged, after)
      | none => return none

def entriesOf (number : Nat) : Build (List (Nat × Nat)) := do
  match ← nodeAt number with
  | .mapping _ entries => return entries
  | _ => throw .malformed

def setEntries (number : Nat) (entries : List (Nat × Nat)) : Build Unit := do
  let node ← nodeAt number
  modify fun s => { s with nodes := s.nodes.setIfInBounds number (.mapping node.tag entries) }

/-- Makes a key that is marked as standing for its map a plain text. -/
def settleValueKey (number : Nat) : Build Unit := do
  match ← nodeAt number with
  | .scalar .value text =>
    modify fun s => { s with nodes := s.nodes.setIfInBounds number (.scalar .str text) }
  | .sequence .value items =>
    modify fun s => { s with nodes := s.nodes.setIfInBounds number (.sequence .str items) }
  | .mapping .value entries =>
    modify fun s => { s with nodes := s.nodes.setIfInBounds number (.mapping .str entries) }
  | _ => return ()

def settleValueKeys : List (Nat × Nat) → Build Unit
  | [] => return ()
  | (k, _) :: rest => do settleValueKey k; settleValueKeys rest

/-- Collects the entries of the maps that a map merges, and takes the merge marks out of it.  The
marks of a map are taken out before the merged maps are looked at, so maps that merge each other
come to an end. -/
def collectMerges : Nat → (number index : Nat) → Build (List (Nat × Nat))
  | 0, _, _ => throw .malformed
  | fuel + 1, number, index => do
    let entries ← entriesOf number
    match ← splitAtMerge (entries.drop index) with
    | none =>
      settleValueKeys (entries.drop index)
      return []
    | some (before, merged, after) =>
      settleValueKeys before
      setEntries number (entries.take index ++ before ++ after)
      let flatten (n : Nat) : Build Unit := do
        let front ← collectMerges fuel n 0
        if !front.isEmpty then setEntries n (front ++ (← entriesOf n))
      let found ← match ← nodeAt merged with
        | .mapping _ _ => do
          flatten merged
          entriesOf merged
        | .sequence _ items => do
          let parts ← items.mapM fun n => do
            match ← nodeAt n with
            | .mapping _ _ => flatten n; entriesOf n
            | _ => throw .malformed
          pure parts.reverse.flatten
        | .scalar _ _ => throw .malformed
      return found ++ (← collectMerges fuel number (index + before.length))

/-- Puts the entries that a map merges in front of its own. -/
def flattenMap (fuel number : Nat) : Build Unit := do
  let front ← collectMerges fuel number 0
  if !front.isEmpty then setEntries number (front ++ (← entriesOf number))

/-! ## Visiting -/

/-- The value of the first key that is marked as standing for its map. -/
def markedValue : List (Nat × Nat) → Build Nat
  | [] => throw .malformed
  | (k, v) :: rest => do if ← hasTag .value k then return v else markedValue rest

/-- The text of a scalar node; a map may stand for the value of its marked key. -/
def textOf : Nat → Nat → Build (List Char)
  | 0, _ => throw .endless
  | fuel + 1, number => do
    match ← nodeAt number with
    | .scalar _ text => return text
    | .sequence _ _ => throw .malformed
    | .mapping _ entries => textOf fuel (← markedValue entries)

/-- The value of a node with a tag for scalars. -/
def scalarOf (fuel number : Nat) : Build Value := do
  let node ← nodeAt number
  let text ← textOf fuel number
  match node, node.tag with
  | .mapping _ _, .timestamp => throw .timestampOfMap
  | _, tag =>
    match tag.readScalar text with
    | .ok v => return v
    | .error fault => throw fault

/-- Notes what a node was found to be. -/
def note (number : Nat) (b : Built) : Build Unit :=
  modify fun s => { s with built := s.built.setIfInBounds number (some b) }

/-- Visits a node: a scalar gets its value, a collection has to wait. -/
def visit (fuel number : Nat) : Build Unit := do
  match ((← get).built[number]?).join with
  | some _ => return ()
  | none =>
    match (← nodeAt number).tag with
    | .null | .bool | .int | .float | .binary | .timestamp | .str =>
      note number (.scalar (← scalarOf fuel number))
    | .seq | .map | .set | .omap | .pairs =>
      note number (.list [])
      modify fun s => { s with waiting := number :: s.waiting }
    | .merge | .value | .unknown => throw .malformed

/-- The value of a visited node if it can be a key. -/
def keyAt (number : Nat) : Build Value := do
  match ((← get).built[number]?).join with
  | some (.scalar v) => return v
  | _ => throw .malformed

/-- Visits the keys and values of entries in order. -/
def visitEntries (fuel : Nat) :
    List (Value × Nat) → List (Nat × Nat) → Build (List (Value × Nat))
  | done, [] => return done
  | done, (k, v) :: rest => do
    visit fuel k
    let key ← keyAt k
    visit fuel v
    visitEntries fuel (Value.put done key v) rest

/-- Visits the pairs of a list of maps with one entry each. -/
def visitPairs (fuel : Nat) : List Nat → Build (List (Nat × Nat))
  | [] => return []
  | n :: rest => do
    match ← nodeAt n with
    | .mapping _ [(k, v)] =>
      visit fuel k
      visit fuel v
      return (k, v) :: (← visitPairs fuel rest)
    | _ => throw .malformed

/-- The entries of a map node, those it merges included. -/
def mergedEntries (fuel number : Nat) : Build (List (Value × Nat)) := do
  let _ ← entriesOf number
  flattenMap fuel number
  visitEntries fuel [] (← entriesOf number)

def visitParts (fuel number : Nat) : Build Unit := do
  let node ← nodeAt number
  match node.tag with
  | .map => note number (.map (← mergedEntries fuel number))
  | .set => note number (.set ((← mergedEntries fuel number).map (·.1)))
  | tag =>
    match node with
    | .sequence _ items =>
      if tag == .seq then
        items.forM (visit fuel)
        note number (.list items)
      else note number (.pairs (← visitPairs fuel items))
    | _ => throw .malformed

/-- Visits the parts of the collections that wait, the longest waiting first, and then of those
that wait after that. -/
def visitWaiting (fuel : Nat) : Nat → Build Unit
  | 0 => return ()
  | rounds + 1 => do
    let round := (← get).waiting.reverse
    if round.isEmpty then return ()
    else
      modify fun s => { s with waiting := [] }
      round.forM (visitParts fuel)
      visitWaiting fuel rounds

end Build

/-! ## Putting together -/

/-- The value of a node, in at most so many levels. -/
def assemble (built : Array (Option Built)) : Nat → Nat → Except Fault Value
  | 0, _ => .error .endless
  | fuel + 1, number =>
    match (built[number]?).join with
    | none => .error .malformed
    | some (.scalar v) => .ok v
    | some (.list items) => do
      return .list (← items.mapM (assemble built fuel))
    | some (.map entries) => do
      return .map (← entries.mapM fun e => do return (e.1, ← assemble built fuel e.2))
    | some (.set keys) => .ok (.set keys)
    | some (.pairs items) => do
      return .list (← items.mapM fun e => do
        return .tuple [← assemble built fuel e.1, ← assemble built fuel e.2])

def Graph.value (g : Graph) : Except Fault Value := do
  let size := g.nodes.size
  let parts := g.nodes.foldl (fun n node => match node with
    | .mapping _ es => n + es.length
    | _ => n) 0
  let fuel := size + parts + 2
  let start : Builder := ⟨g.nodes, Array.replicate size none, []⟩
  let (_, s) ← (do Build.visit fuel g.root; Build.visitWaiting fuel fuel : Build Unit).run start
  assemble s.built fuel g.root

/-- The value of the only document in a text; a text without a document is null. -/
def parse (text : List Char) : Except Fault Value := do
  match ← Graph.ofTokens (Token.ofText text) with
  | none => return .null
  | some g => g.value

end Conform.Yaml
