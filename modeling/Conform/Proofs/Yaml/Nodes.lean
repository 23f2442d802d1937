import Conform.Proofs.Outcome
import Conform.Yaml.Node

/-!
# What ends the reading of nodes

A reader of nodes only ever goes past tokens.  So what ends it is either the order of the tokens,
and then the notation is not followed, or the fault of a broken token
(`Graph.broken_mem_of_ofTokens`).
-/

namespace Conform.Yaml

namespace NodeReading

variable {α β : Type} {tokens : List Token}

/-- The reading goes on within the tokens, and is ended by their order or by a broken one. -/
abbrev Takes (tokens : List Token) (r : NodeReading α) : Prop :=
  Runs (fun s => s.tokens ⊆ tokens) r (fun _ => True)
    fun fault => fault = .malformed ∨ .broken fault ∈ tokens

namespace Takes

theorem bind {r : NodeReading α} {f : α → NodeReading β} (h : Takes tokens r)
    (hf : ∀ a, Takes tokens (f a)) : Takes tokens (r >>= f) :=
  Runs.bind h fun a _ => hf a

theorem pure {a : α} : Takes tokens (Pure.pure a) := Runs.pure trivial

theorem malformed : Takes tokens (throw .malformed : NodeReading α) := Runs.throw (.inl rfl)

theorem get : Takes tokens (get : NodeReading NodeReader) :=
  Runs.get.imp fun _ _ => trivial

theorem modify {f : NodeReader → NodeReader} (h : ∀ s, (f s).tokens ⊆ s.tokens) :
    Takes tokens (modify f : NodeReading Unit) :=
  Runs.modify fun s hs => List.Subset.trans (h s) hs

end Takes

theorem takes_peek : Takes tokens peek := by
  refine Runs.get.bind fun s hs => ?_
  split
  · rename_i heq
    rw [heq] at hs
    exact .throw (.inr (hs List.mem_cons_self))
  · exact Takes.pure
  · exact Takes.malformed

theorem takes_skip : Takes tokens skip := .modify fun s => List.drop_subset 1 s.tokens

theorem takes_add (anchor : Option (List Char)) (node : Node) : Takes tokens (add anchor node) := by
  refine Runs.get.bind fun s hs => ?_
  have hset : ∀ t : NodeReader, t.tokens = s.tokens →
      Takes tokens (do set t; return s.nodes.size) :=
    fun t ht => Takes.bind (.set (ht ▸ hs)) fun _ => .pure
  split
  · exact hset _ rfl
  · split
    · exact Takes.malformed.bind fun _ => .pure
    · exact hset _ rfl

theorem takes_replace (number : Nat) (node : Node) : Takes tokens (replace number node) :=
  .modify fun s => List.Subset.refl s.tokens

theorem takes_nothing : Takes tokens nothing := takes_add _ _

theorem takes_properties : Takes tokens properties := by
  refine takes_peek.bind fun t => ?_
  split
  · refine takes_skip.bind fun _ => takes_peek.bind fun t => ?_
    split
    · exact takes_skip.bind fun _ => .pure
    · exact .pure
  · refine takes_skip.bind fun _ => takes_peek.bind fun t => ?_
    split
    · exact takes_skip.bind fun _ => .pure
    · exact .pure
  · exact .pure

theorem takes_tagName (t : TagToken) : Takes tokens (tagName t) := by
  unfold tagName
  split
  · exact .pure
  · refine Takes.get.bind fun s => ?_
    split
    · exact .pure
    · exact .malformed

/-- A tag is resolved before the reading goes on. -/
theorem takes_named (tag? : Option TagToken) {f : Option (List Char) → NodeReading α}
    (hf : ∀ name, Takes tokens (f name)) :
    Takes tokens (do
      let name ← match tag? with
        | none => pure none
        | some t => do pure (some (← tagName t))
      f name) := by
  dsimp only
  split
  · exact hf none
  · exact (takes_tagName _).bind fun name => hf (some name)

/-- A collection is numbered before its parts are read, and filled after. -/
theorem takes_filled (anchor : Option (List Char)) (empty : Node) {parts : NodeReading α}
    (hparts : Takes tokens parts) (fill : α → Node) :
    Takes tokens (do
      let number ← add anchor empty
      let found ← parts
      replace number (fill found)
      return number) :=
  (takes_add _ _).bind fun _ => hparts.bind fun _ => (takes_replace _ _).bind fun _ => .pure

section

variable {fuel : Nat} (hnode : ∀ block unindented, Takes tokens (node fuel block unindented))
  (hnodeUnless : ∀ stops block unindented,
    Takes tokens (nodeUnless fuel stops block unindented))
  (hvalueUnless : ∀ stops block unindented,
    Takes tokens (valueUnless fuel stops block unindented))
  (hblockItems : Takes tokens (blockItems fuel))
  (hunindentedItems : Takes tokens (unindentedItems fuel))
  (hblockEntries : Takes tokens (blockEntries fuel))
  (hflowItems : ∀ first, Takes tokens (flowItems fuel first))
  (hflowEntries : ∀ first, Takes tokens (flowEntries fuel first))

include hblockItems hunindentedItems hblockEntries hflowItems hflowEntries in
theorem takes_node_succ (block unindented : Bool) :
    Takes tokens (node (fuel + 1) block unindented) := by
  rw [node]
  refine takes_peek.bind fun t => ?_
  split
  · refine takes_skip.bind fun _ => Takes.get.bind fun s => ?_
    split
    · exact .pure
    · exact .malformed
  · refine takes_properties.bind fun p => takes_named p.2 fun name => takes_peek.bind fun t => ?_
    split
    · exact takes_skip.bind fun _ => takes_add _ _
    · exact takes_filled p.1 _ (takes_skip.bind fun _ => hflowItems true) (.sequence _)
    · exact takes_filled p.1 _ (takes_skip.bind fun _ => hflowEntries true) (.mapping _)
    · split
      · exact takes_filled p.1 _ hunindentedItems (.sequence _)
      · split
        · exact takes_filled p.1 _ (takes_skip.bind fun _ => hblockItems) (.sequence _)
        · split
          · exact takes_filled p.1 _ (takes_skip.bind fun _ => hblockEntries) (.mapping _)
          · split
            · exact takes_add _ _
            · exact .malformed

include hnode in
theorem takes_nodeUnless_succ (stops : List Token) (block unindented : Bool) :
    Takes tokens (nodeUnless (fuel + 1) stops block unindented) := by
  rw [nodeUnless]
  refine takes_peek.bind fun t => ?_
  split
  · exact takes_nothing
  · exact hnode block unindented

include hnodeUnless hblockItems in
theorem takes_blockItems_succ : Takes tokens (blockItems (fuel + 1)) := by
  rw [blockItems]
  refine takes_peek.bind fun t => ?_
  split
  · exact takes_skip.bind fun _ => (hnodeUnless _ _ _).bind fun _ => hblockItems.bind fun _ => .pure
  · exact takes_skip.bind fun _ => .pure
  · exact .malformed

include hnodeUnless hunindentedItems in
theorem takes_unindentedItems_succ : Takes tokens (unindentedItems (fuel + 1)) := by
  rw [unindentedItems]
  refine takes_peek.bind fun t => ?_
  split
  · exact takes_skip.bind fun _ => (hnodeUnless _ _ _).bind fun _ =>
      hunindentedItems.bind fun _ => .pure
  · exact .pure

include hnodeUnless hvalueUnless hblockEntries in
theorem takes_blockEntries_succ : Takes tokens (blockEntries (fuel + 1)) := by
  rw [blockEntries]
  refine takes_peek.bind fun t => ?_
  split
  · exact takes_skip.bind fun _ => (hnodeUnless _ _ _).bind fun _ =>
      (hvalueUnless _ _ _).bind fun _ => hblockEntries.bind fun _ => .pure
  · exact takes_skip.bind fun _ => .pure
  · exact .malformed

include hnodeUnless in
theorem takes_valueUnless_succ (stops : List Token) (block unindented : Bool) :
    Takes tokens (valueUnless (fuel + 1) stops block unindented) := by
  rw [valueUnless]
  refine takes_peek.bind fun t => ?_
  split
  · exact takes_skip.bind fun _ => hnodeUnless _ _ _
  · exact takes_nothing

/-- A comma comes before each part of a flow collection but the first. -/
theorem takes_comma (first : Bool) (t : Token) {next : NodeReading α} (hnext : Takes tokens next) :
    Takes tokens (do
      if !first then
        if t == .flowEntry then skip else throw .malformed
      next) := by
  split
  · split
    · exact takes_skip.bind fun _ => hnext
    · exact Takes.malformed.bind fun _ => hnext
  · exact hnext

include hnode hnodeUnless hvalueUnless hflowItems in
theorem takes_flowItems_succ (first : Bool) : Takes tokens (flowItems (fuel + 1) first) := by
  rw [flowItems]
  refine takes_peek.bind fun t => ?_
  split
  · exact takes_skip.bind fun _ => .pure
  · refine takes_comma first t (takes_peek.bind fun t => ?_)
    split
    · exact (takes_add _ _).bind fun _ => takes_skip.bind fun _ => (hnodeUnless _ _ _).bind fun _ =>
        (hvalueUnless _ _ _).bind fun _ => (takes_replace _ _).bind fun _ =>
          (hflowItems false).bind fun _ => .pure
    · exact takes_skip.bind fun _ => .pure
    · exact (hnode _ _).bind fun _ => (hflowItems false).bind fun _ => .pure

include hnode hnodeUnless hvalueUnless hflowEntries in
theorem takes_flowEntries_succ (first : Bool) : Takes tokens (flowEntries (fuel + 1) first) := by
  rw [flowEntries]
  refine takes_peek.bind fun t => ?_
  split
  · exact takes_skip.bind fun _ => .pure
  · refine takes_comma first t (takes_peek.bind fun t => ?_)
    split
    · exact takes_skip.bind fun _ => (hnodeUnless _ _ _).bind fun _ =>
        (hvalueUnless _ _ _).bind fun _ => (hflowEntries false).bind fun _ => .pure
    · exact takes_skip.bind fun _ => .pure
    · exact (hnode _ _).bind fun _ => takes_peek.bind fun _ => takes_nothing.bind fun _ =>
        (hflowEntries false).bind fun _ => .pure

end

/-- Whatever part of a document is read. -/
structure TakesAll (tokens : List Token) (fuel : Nat) : Prop where
  node : ∀ block unindented, Takes tokens (node fuel block unindented)
  nodeUnless : ∀ stops block unindented, Takes tokens (nodeUnless fuel stops block unindented)
  valueUnless : ∀ stops block unindented, Takes tokens (valueUnless fuel stops block unindented)
  blockItems : Takes tokens (blockItems fuel)
  unindentedItems : Takes tokens (unindentedItems fuel)
  blockEntries : Takes tokens (blockEntries fuel)
  flowItems : ∀ first, Takes tokens (flowItems fuel first)
  flowEntries : ∀ first, Takes tokens (flowEntries fuel first)

theorem takesAll (tokens : List Token) : ∀ fuel, TakesAll tokens fuel
  | 0 => by
      -- Without steps left, none of the readers starts.
      constructor
      all_goals intros; exact Takes.malformed
  | fuel + 1 => by
      have h := takesAll tokens fuel
      exact {
        node := takes_node_succ h.blockItems h.unindentedItems h.blockEntries h.flowItems
          h.flowEntries
        nodeUnless := takes_nodeUnless_succ h.node
        valueUnless := takes_valueUnless_succ h.nodeUnless
        blockItems := takes_blockItems_succ h.nodeUnless h.blockItems
        unindentedItems := takes_unindentedItems_succ h.nodeUnless h.unindentedItems
        blockEntries := takes_blockEntries_succ h.nodeUnless h.valueUnless h.blockEntries
        flowItems := takes_flowItems_succ h.node h.nodeUnless h.valueUnless h.flowItems
        flowEntries := takes_flowEntries_succ h.node h.nodeUnless h.valueUnless h.flowEntries }

/-! ## Documents -/

theorem takes_handles (f : NodeReader → List (List Char × List Char)) :
    Takes tokens (modify fun s => { s with handles := f s }) :=
  .modify fun s => List.Subset.refl s.tokens

theorem takes_directives : ∀ (fuel : Nat) (seenVersion : Bool),
    Takes tokens (directives fuel seenVersion)
  | 0, _ => .malformed
  | fuel + 1, seenVersion => by
      rw [directives]
      refine takes_peek.bind fun t => ?_
      split
      · refine takes_skip.bind fun _ => ?_
        split
        · split
          · exact .malformed
          · exact takes_directives fuel true
        · refine Takes.get.bind fun s => ?_
          split
          · exact .malformed
          · exact (takes_handles _).bind fun _ => takes_directives fuel seenVersion
        · exact takes_directives fuel seenVersion
      · exact takes_handles _

theorem takes_skipEnds : ∀ fuel : Nat, Takes tokens (skipEnds fuel)
  | 0 => .malformed
  | fuel + 1 => by
      rw [skipEnds]
      refine takes_peek.bind fun t => ?_
      split
      · exact takes_skip.bind fun _ => takes_skipEnds fuel
      · exact .pure

theorem takes_document (fuel : Nat) : Takes tokens (document fuel) := by
  have hnode := (takesAll tokens fuel).node true false
  refine takes_peek.bind fun t => ?_
  split
  case h_1 => exact .pure
  case h_2 | h_3 =>
    refine (takes_directives fuel false).bind fun _ => takes_peek.bind fun t => ?_
    split
    · refine takes_skip.bind fun _ => takes_peek.bind fun t => ?_
      split
      · exact takes_nothing.bind fun _ => .pure
      · exact takes_nothing.bind fun _ => .pure
      · exact takes_nothing.bind fun _ => .pure
      · exact takes_nothing.bind fun _ => .pure
      · exact hnode.bind fun _ => .pure
    · exact .malformed
  case h_4 => exact (takes_handles _).bind fun _ => hnode.bind fun _ => .pure

theorem takes_onlyDocument (tokens : List Token) (fuel : Nat) :
    Takes tokens (onlyDocument fuel) := by
  refine (takes_document fuel).bind fun root? => ?_
  split
  · exact .pure
  · refine (takes_skipEnds fuel).bind fun _ => takes_peek.bind fun t => ?_
    split
    · exact .pure
    · exact (takes_handles _).bind fun _ => (takes_directives fuel false).bind fun _ => .malformed
    · exact .malformed

end NodeReading

/-- Tokens are no document only if they are in no order or one of them is broken. -/
theorem Graph.broken_mem_of_ofTokens {tokens : List Token} {fault : Fault}
    (h : Graph.ofTokens tokens = .error fault) : fault = .malformed ∨ .broken fault ∈ tokens := by
  have htakes := NodeReading.takes_onlyDocument tokens (4 * tokens.length + 4)
    ⟨tokens, #[], [], []⟩ (List.Subset.refl tokens)
  simp only [ofTokens] at h
  split at h
  · rename_i heq
    rw [← Except.error.inj h]
    exact htakes.of_error heq
  · cases h
  · cases h

end Conform.Yaml
