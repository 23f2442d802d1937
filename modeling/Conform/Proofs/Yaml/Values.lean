import Conform.Proofs.Outcome
import Conform.Proofs.Traversal
import Conform.Proofs.Value.Entries
import Conform.Proofs.Yaml.Graph

/-!
# What keeps a graph of nodes from having a value

Merging maps changes the nodes of a graph, but a node keeps its kind, and all parts that it gets are
parts of its parts already (`Follows`).  So a node that is found to contain itself while the values
are put together does so in the graph itself, and a scalar that cannot be read is one of the graph.
All else that ends the first step or the second is a notation that is not followed
(`Graph.obstacle_of_value`).
-/

namespace Conform.Yaml

/-- The numbers of the nodes that a node was found to be made of. -/
def Built.parts : Built → List Nat
  | .scalar _ | .set _ => []
  | .list items => items
  | .map entries => entries.map (·.2)
  | .pairs items => items.flatMap fun e => [e.1, e.2]

/-- What became of a node: its kind and text are kept, and its tag, unless it became a text. -/
inductive Node.Becomes : Node → Node → Prop where
  | scalar {tag tag' : Tag} {text : List Char} (h : tag' = tag ∨ tag' = .str) :
      Becomes (.scalar tag text) (.scalar tag' text)
  | sequence {tag tag' : Tag} {items items' : List Nat} (h : tag' = tag ∨ tag' = .str) :
      Becomes (.sequence tag items) (.sequence tag' items')
  | mapping {tag tag' : Tag} {entries entries' : List (Nat × Nat)} (h : tag' = tag ∨ tag' = .str) :
      Becomes (.mapping tag entries) (.mapping tag' entries')

theorem Node.Becomes.tag {node node' : Node} (h : node.Becomes node') :
    node'.tag = node.tag ∨ node'.tag = .str := by
  cases h <;> assumption

theorem Node.Becomes.refl (node : Node) : node.Becomes node := by
  cases node with
  | scalar => exact .scalar (.inl rfl)
  | sequence => exact .sequence (.inl rfl)
  | mapping => exact .mapping (.inl rfl)

namespace Build

open Conform.Yaml.Graph

/-- What the node with a number became, the parts of which all were in it before. -/
structure Stands (g : Graph) (number : Nat) (node : Node) : Prop where
  became : ∃ origin, g.nodes[number]? = some origin ∧ origin.Becomes node
  within : ∀ m ∈ node.parts, g.Contains number m

/-- The state follows from a graph. -/
structure Follows (g : Graph) (s : Builder) : Prop where
  nodes : ∀ number node, s.nodes[number]? = some node → Stands g number node
  built : ∀ number b, s.built[number]? = some (some b) → ∀ m ∈ b.parts, g.Contains number m
  size : s.built.size = g.nodes.size

variable {α β : Type} {g : Graph}

/-- The computation goes on from states that follow from a graph to such, and is ended by a notation
that is not followed or an obstacle in the graph. -/
abbrev Builds (g : Graph) (r : Build α) (P : α → Prop) : Prop :=
  Runs (Follows g) r P fun fault => fault = .malformed ∨ g.Obstacle fault

theorem builds_malformed {P : α → Prop} : Builds g (throw .malformed : Build α) P :=
  .throw (.inl rfl)

theorem Stands.size {number : Nat} {node : Node} (h : Stands g number node) :
    number < g.nodes.size := by
  obtain ⟨origin, horigin, -⟩ := h.became
  exact (Array.getElem?_eq_some_iff.mp horigin).1

theorem builds_nodeAt {Q : Fault → Prop} (hQ : Q .malformed) (number : Nat) :
    Runs (Follows g) (nodeAt number) (Stands g number) Q := by
  refine Runs.get.bind fun s hs => ?_
  split
  · rename_i heq
    exact .pure (hs.nodes _ _ heq)
  · exact .throw hQ

theorem builds_hasTag (tag : Tag) (number : Nat) : Builds g (hasTag tag number) fun _ => True :=
  (builds_nodeAt (.inl rfl) number).bind fun _ _ => .pure trivial

/-! ## Merging -/

/-- The node is a map, and everything in the entries is in it. -/
structure Owns (g : Graph) (number : Nat) (entries : List (Nat × Nat)) : Prop where
  isMap : ∃ tag own, g.nodes[number]? = some (.mapping tag own)
  within : ∀ e ∈ entries, g.Contains number e.1 ∧ g.Contains number e.2

namespace Owns

variable {number : Nat} {es fs : List (Nat × Nat)}

theorem subset (h : Owns g number es) (hfs : fs ⊆ es) : Owns g number fs :=
  ⟨h.isMap, fun e he => h.within e (hfs he)⟩

theorem append (hes : Owns g number es) (hfs : Owns g number fs) : Owns g number (es ++ fs) :=
  ⟨hes.isMap, fun e he => (List.mem_append.mp he).elim (hes.within e) (hfs.within e)⟩

theorem of_contains {merged : Nat} (h : Owns g merged fs) (hes : Owns g number es)
    (hmerged : g.Contains number merged) : Owns g number fs :=
  ⟨hes.isMap, fun e he => ⟨hmerged.trans (h.within e he).1, hmerged.trans (h.within e he).2⟩⟩

end Owns

theorem builds_splitAtMerge : ∀ es : List (Nat × Nat), Builds g (splitAtMerge es) fun found =>
    ∀ before merged after, found = some (before, merged, after) →
      before ⊆ es ∧ after ⊆ es ∧ ∃ k, (k, merged) ∈ es
  | [] => .pure nofun
  | (k, v) :: es => by
      rw [splitAtMerge]
      refine (builds_hasTag .merge k).bind fun isMerge _ => ?_
      split
      · refine .pure fun before merged after h => ?_
        obtain ⟨rfl, rfl, rfl⟩ := Option.some.inj h
        exact ⟨List.nil_subset _, List.subset_cons_self _ _, k, List.mem_cons_self⟩
      · refine (builds_splitAtMerge es).bind fun found hfound => ?_
        split
        · refine .pure fun before merged after h => ?_
          obtain ⟨rfl, rfl, rfl⟩ := Option.some.inj h
          obtain ⟨hbefore, hafter, k', hk'⟩ := hfound _ _ _ rfl
          exact ⟨List.cons_subset_cons _ hbefore,
            List.Subset.trans hafter (List.subset_cons_self _ _), k', List.mem_cons_of_mem _ hk'⟩
        · exact .pure nofun

theorem builds_entriesOf (number : Nat) : Builds g (entriesOf number) (Owns g number) := by
  refine (builds_nodeAt (.inl rfl) number).bind fun node hnode => ?_
  split
  · refine .pure ⟨?_, fun e he => ?_⟩
    · obtain ⟨origin, horigin, hbecame⟩ := hnode.became
      cases hbecame
      exact ⟨_, _, horigin⟩
    · exact ⟨hnode.within _ (Node.mem_parts_mapping he).1,
        hnode.within _ (Node.mem_parts_mapping he).2⟩
  · exact builds_malformed

theorem Follows.setNode {s : Builder} (h : Follows g s) {number : Nat} {node : Node}
    (hnode : Stands g number node) :
    Follows g { s with nodes := s.nodes.setIfInBounds number node } := by
  refine ⟨fun n node' hn => ?_, h.built, h.size⟩
  rw [Array.getElem?_setIfInBounds] at hn
  split at hn
  · split at hn
    · rename_i heq _
      rw [← heq, ← Option.some.inj hn]
      exact hnode
    · cases hn
  · exact h.nodes n node' hn

theorem Stands.setEntries {number : Nat} {node : Node} (h : Stands g number node)
    {es : List (Nat × Nat)} (hes : Owns g number es) :
    Stands g number (.mapping node.tag es) := by
  refine ⟨?_, fun m hm => ?_⟩
  · obtain ⟨origin, horigin, hbecame⟩ := h.became
    obtain ⟨tag, own, hmap⟩ := hes.isMap
    obtain rfl := Option.some.inj (hmap.symm.trans horigin)
    exact ⟨_, horigin, .mapping hbecame.tag⟩
  · obtain ⟨e, he, hm⟩ := List.mem_flatMap.mp hm
    rcases List.mem_cons.mp hm with rfl | hm
    · exact (hes.within e he).1
    · rw [List.mem_singleton.mp hm]
      exact (hes.within e he).2

theorem builds_setEntries {number : Nat} {es : List (Nat × Nat)} (h : Owns g number es) :
    Builds g (setEntries number es) fun _ => True :=
  (builds_nodeAt (.inl rfl) number).bind fun _ hnode =>
    .modify fun _ hs => hs.setNode (hnode.setEntries h)

theorem builds_settleValueKey (number : Nat) : Builds g (settleValueKey number) fun _ => True := by
  refine (builds_nodeAt (.inl rfl) number).bind fun node hnode => ?_
  obtain ⟨origin, horigin, hbecame⟩ := hnode.became
  split
  · refine .modify fun s hs => hs.setNode ⟨⟨origin, horigin, ?_⟩, hnode.within⟩
    cases hbecame
    exact .scalar (.inr rfl)
  · refine .modify fun s hs => hs.setNode ⟨⟨origin, horigin, ?_⟩, hnode.within⟩
    cases hbecame
    exact .sequence (.inr rfl)
  · refine .modify fun s hs => hs.setNode ⟨⟨origin, horigin, ?_⟩, hnode.within⟩
    cases hbecame
    exact .mapping (.inr rfl)
  · exact .pure trivial

theorem builds_settleValueKeys : ∀ es : List (Nat × Nat),
    Builds g (settleValueKeys es) fun _ => True
  | [] => .pure trivial
  | (k, _) :: es => (builds_settleValueKey k).bind fun _ _ => builds_settleValueKeys es

theorem builds_putInFront {number : Nat} {collect : Build (List (Nat × Nat))}
    (h : Builds g collect (Owns g number)) :
    Builds g (do
      let front ← collect
      if !front.isEmpty then setEntries number (front ++ (← entriesOf number))) fun _ => True := by
  refine h.bind fun front hfront => ?_
  split
  · exact (builds_entriesOf number).bind fun es hes => builds_setEntries (hfront.append hes)
  · exact .pure trivial

/-- A list of maps that is merged: each gets what is merged into it, and gives its entries. -/
theorem builds_mergedMaps {collect : Nat → Build (List (Nat × Nat))} {number : Nat}
    {items : List Nat} (hcollect : ∀ n, Builds g (collect n) (Owns g n))
    (hentries : ∀ n ∈ items, Builds g (entriesOf n) (Owns g number)) :
    Builds g (items.mapM fun n => do
      match ← nodeAt n with
      | .mapping _ _ =>
        (do
          let front ← collect n
          if !front.isEmpty then setEntries n (front ++ (← entriesOf n)))
        entriesOf n
      | _ => throw .malformed) fun parts => ∀ fs ∈ parts, Owns g number fs := by
  refine Runs.mapM fun n hn => (builds_nodeAt (.inl rfl) n).bind fun part _ => ?_
  split
  · exact (builds_putInFront (hcollect n)).bind fun _ _ => hentries n hn
  · exact builds_malformed

theorem builds_collectMerges : ∀ (fuel number index : Nat),
    Builds g (collectMerges fuel number index) (Owns g number)
  | 0, _, _ => builds_malformed
  | fuel + 1, number, index => by
      rw [collectMerges]
      refine (builds_entriesOf number).bind fun es hes => ?_
      have hdrop := hes.subset (List.drop_subset index es)
      refine (builds_splitAtMerge _).bind fun found hfound => ?_
      split
      · exact (builds_settleValueKeys _).bind fun _ _ => .pure (hes.subset (List.nil_subset es))
      · rename_i before merged after
        obtain ⟨hbefore, hafter, k, hk⟩ := hfound _ _ _ rfl
        -- The node may merge itself, even by a long way round.  What it gets then is still in it.
        have hmerged : g.Contains number merged := (hdrop.within _ hk).2
        have hkept : Owns g number (es.take index ++ before ++ after) :=
          ((hes.subset (List.take_subset index es)).append (hdrop.subset hbefore)).append
            (hdrop.subset hafter)
        have hentries : ∀ n, g.Contains number n → Builds g (entriesOf n) (Owns g number) :=
          fun n hn => (builds_entriesOf n).imp fun _ hfs => hfs.of_contains hes hn
        have hrest : ∀ found, Owns g number found → Builds g (do
            return found ++ (← collectMerges fuel number (index + before.length)))
            (Owns g number) := fun found hfound =>
          (builds_collectMerges fuel number _).bind fun more hmore => .pure (hfound.append hmore)
        refine (builds_settleValueKeys before).bind fun _ _ => (builds_setEntries hkept).bind
          fun _ _ => (builds_nodeAt (.inl rfl) merged).bind fun node hnode => ?_
        split
        · exact (builds_putInFront (builds_collectMerges fuel merged 0)).bind fun _ _ =>
            (hentries merged hmerged).bind hrest
        · rename_i items
          have hparts := builds_mergedMaps (fun n => builds_collectMerges fuel n 0)
            fun n hn => hentries n (hmerged.trans (hnode.within n hn))
          refine hparts.bind fun parts hparts => hrest _ ⟨hes.isMap, fun e he => ?_⟩
          obtain ⟨fs, hfs, he⟩ := List.mem_flatten.mp he
          exact (hparts fs (List.mem_reverse.mp hfs)).within e he
        · exact builds_malformed

theorem builds_flattenMap (fuel number : Nat) : Builds g (flattenMap fuel number) fun _ => True :=
  builds_putInFront (builds_collectMerges fuel number 0)

/-! ## Scalars -/

theorem builds_markedValue {Q : Fault → Prop} (hQ : Q .malformed) : ∀ es : List (Nat × Nat),
    Runs (Follows g) (markedValue es) (fun v => ∃ k, (k, v) ∈ es) Q
  | [] => .throw hQ
  | (k, v) :: es => by
      rw [markedValue]
      refine ((builds_nodeAt hQ k).bind fun node _ => Runs.pure (P := fun _ => True) trivial).bind
        fun isValue _ => ?_
      split
      · exact .pure ⟨k, List.mem_cons_self⟩
      · refine (builds_markedValue hQ es).imp fun w hw => ?_
        obtain ⟨k', hk'⟩ := hw
        exact ⟨k', List.mem_cons_of_mem _ hk'⟩

/-- The text is that of the node, or of one that is in it. -/
def HasText (g : Graph) (number : Nat) (text : List Char) : Prop :=
  ∃ m tag, Relation.ReflTransGen g.HasPart number m ∧ g.nodes[m]? = some (.scalar tag text)

/-- The search for the text of a node ends in a text, or there is a way as long as the search. -/
theorem runs_textOf : ∀ (fuel number : Nat), Runs (Follows g) (textOf fuel number)
    (HasText g number) fun fault => fault = .malformed ∨ fault = .endless ∧ g.Way fuel number
  | 0, _ => .throw (.inr ⟨rfl, trivial⟩)
  | fuel + 1, number => by
      rw [textOf]
      refine (builds_nodeAt (.inl rfl) number).bind fun node hnode => ?_
      split
      · obtain ⟨origin, horigin, hbecame⟩ := hnode.became
        cases hbecame
        exact .pure ⟨number, _, .refl, horigin⟩
      · exact .throw (.inl rfl)
      · refine (builds_markedValue (.inl rfl) _).bind fun v hv => ?_
        obtain ⟨k, hk⟩ := hv
        have hpart : g.Contains number v := hnode.within v (Node.mem_parts_mapping hk).2
        refine ((runs_textOf fuel v).imp fun text htext => ?_).fault fun fault hfault => ?_
        · obtain ⟨m, tag, hm, hnode⟩ := htext
          exact ⟨m, tag, hpart.to_reflTransGen.trans hm, hnode⟩
        · exact hfault.imp_right fun h => ⟨h.1, hnode.size, v, hpart, h.2⟩

/-- A scalar that cannot be read is one of the graph. -/
theorem Stands.obstacle {number : Nat} {node : Node} (h : Stands g number node) {text : List Char}
    (htext : HasText g number text) {fault : Fault}
    (hread : node.tag.readScalar text = .error fault) :
    fault = .malformed ∨ g.Obstacle fault := by
  refine or_iff_not_imp_left.mpr fun hfault => ?_
  have htag := Tag.mem_of_readScalar hread hfault
  obtain ⟨origin, horigin, hbecame⟩ := h.became
  obtain ⟨m, tag, hm, hscalar⟩ := htext
  have heq : node.tag = origin.tag := by
    rcases hbecame.tag with heq | heq
    · exact heq
    · rw [heq] at htag
      exact absurd htag (by decide)
  rw [heq] at htag hread
  exact .unreadable horigin htag hm hscalar hread hfault

theorem builds_scalarOf {fuel : Nat} (hfuel : g.nodes.size < fuel) (number : Nat) :
    Builds g (scalarOf fuel number) fun _ => True := by
  refine (builds_nodeAt (.inl rfl) number).bind fun node hnode => ?_
  have htext : Builds g (textOf fuel number) (HasText g number) := by
    refine (runs_textOf fuel number).fault fun fault hfault => hfault.imp_right fun h => ?_
    obtain ⟨m, hm⟩ := exists_contains_self h.2 hfuel
    rw [h.1]
    exact .endless hm
  refine htext.bind fun text htext => ?_
  split
  · rename_i htag
    obtain ⟨origin, horigin, hbecame⟩ := hnode.became
    cases hbecame with
    | mapping hkept =>
        obtain rfl : _ = Tag.timestamp := htag
        obtain rfl := hkept.resolve_right (by decide)
        exact .throw (.inr (.timestampOfMap horigin))
  · split
    · exact .pure trivial
    · rename_i heq
      exact .throw (hnode.obstacle htext heq)

/-! ## Visiting -/

theorem builds_note {number : Nat} {b : Built} (h : ∀ m ∈ b.parts, g.Contains number m) :
    Builds g (note number b) fun _ => True := by
  refine .modify fun s hs => ⟨hs.nodes, fun n b' hb' => ?_, by simpa using hs.size⟩
  rw [Array.getElem?_setIfInBounds] at hb'
  split at hb'
  · split at hb'
    · rename_i heq _
      rw [← heq, ← Option.some.inj (Option.some.inj hb')]
      exact h
    · cases hb'
  · exact hs.built n b' hb'

theorem builds_visit {fuel : Nat} (hfuel : g.nodes.size < fuel) (number : Nat) :
    Builds g (visit fuel number) fun _ => True := by
  refine Runs.get.bind fun s _ => ?_
  split
  · exact .pure trivial
  · refine (builds_nodeAt (.inl rfl) number).bind fun node hnode => ?_
    have hscalar : Builds g (do note number (.scalar (← scalarOf fuel number))) fun _ => True :=
      (builds_scalarOf hfuel number).bind fun v _ => builds_note nofun
    have hwait : Builds g (do
        note number (.list [])
        modify fun s => { s with waiting := number :: s.waiting }) fun _ => True :=
      (builds_note (List.forall_mem_nil _)).bind fun _ _ =>
        .modify fun s hs => ⟨hs.nodes, hs.built, hs.size⟩
    -- The tag decides if the value is a scalar, has to wait for its parts, or is none.
    split
    all_goals first
      | exact hscalar
      | exact hwait
      | exact builds_malformed

theorem builds_keyAt (number : Nat) : Builds g (keyAt number) fun _ => True := by
  refine Runs.get.bind fun s _ => ?_
  split
  · exact .pure trivial
  · exact builds_malformed

/-- All values of entries are in the node. -/
def Within (g : Graph) (number : Nat) (es : List (Value × Nat)) : Prop :=
  ∀ e ∈ es, g.Contains number e.2

theorem builds_visitEntries {fuel : Nat} (hfuel : g.nodes.size < fuel) {number : Nat} :
    ∀ {done : List (Value × Nat)} {es : List (Nat × Nat)}, Within g number done →
      Owns g number es → Builds g (visitEntries fuel done es) (Within g number)
  | done, [], hdone, _ => .pure hdone
  | done, (k, v) :: es, hdone, hes => by
      rw [visitEntries]
      refine (builds_visit hfuel k).bind fun _ _ => (builds_keyAt k).bind fun key _ =>
        (builds_visit hfuel v).bind fun _ _ =>
          builds_visitEntries hfuel (fun e he => ?_) (hes.subset (List.subset_cons_self _ _))
      rcases Value.mem_put he with he | ⟨heq, -⟩
      · exact hdone e he
      · rw [heq]
        exact (hes.within _ List.mem_cons_self).2

theorem builds_visitPairs {fuel : Nat} (hfuel : g.nodes.size < fuel) {number : Nat} :
    ∀ {items : List Nat}, (∀ n ∈ items, g.Contains number n) →
      Builds g (visitPairs fuel items)
        fun pairs => ∀ e ∈ pairs, g.Contains number e.1 ∧ g.Contains number e.2
  | [], _ => .pure nofun
  | n :: items, h => by
      rw [visitPairs]
      refine (builds_nodeAt (.inl rfl) n).bind fun node hnode => ?_
      split
      · rename_i k v
        have hn := h n List.mem_cons_self
        refine (builds_visit hfuel k).bind fun _ _ => (builds_visit hfuel v).bind fun _ _ =>
          (builds_visitPairs hfuel fun m hm => h m (List.mem_cons_of_mem n hm)).bind
            fun pairs hpairs => .pure (List.forall_mem_cons.mpr ⟨?_, hpairs⟩)
        exact ⟨hn.trans (hnode.within k (by simp [Node.parts])),
          hn.trans (hnode.within v (by simp [Node.parts]))⟩
      · exact builds_malformed

theorem builds_mergedEntries {fuel : Nat} (hfuel : g.nodes.size < fuel) (number : Nat) :
    Builds g (mergedEntries fuel number) (Within g number) :=
  (builds_entriesOf number).bind fun _ _ => (builds_flattenMap fuel number).bind fun _ _ =>
    (builds_entriesOf number).bind fun _ hes => builds_visitEntries hfuel nofun hes

theorem builds_visitParts {fuel : Nat} (hfuel : g.nodes.size < fuel) (number : Nat) :
    Builds g (visitParts fuel number) fun _ => True := by
  refine (builds_nodeAt (.inl rfl) number).bind fun node hnode => ?_
  split
  · refine (builds_mergedEntries hfuel number).bind fun es hes => builds_note fun m hm => ?_
    obtain ⟨e, he, rfl⟩ := List.mem_map.mp hm
    exact hes e he
  · exact (builds_mergedEntries hfuel number).bind fun es _ => builds_note nofun
  · split
    · split
      · exact (Runs.forM fun n _ => builds_visit hfuel n).bind fun _ _ => builds_note hnode.within
      · refine (builds_visitPairs hfuel hnode.within).bind fun pairs hpairs =>
          builds_note fun m hm => ?_
        obtain ⟨e, he, hm⟩ := List.mem_flatMap.mp hm
        rcases List.mem_cons.mp hm with rfl | hm
        · exact (hpairs e he).1
        · rw [List.mem_singleton.mp hm]
          exact (hpairs e he).2
    · exact builds_malformed

theorem builds_visitWaiting {fuel : Nat} (hfuel : g.nodes.size < fuel) : ∀ rounds : Nat,
    Builds g (visitWaiting fuel rounds) fun _ => True
  | 0 => .pure trivial
  | rounds + 1 => by
      refine Runs.get.bind fun s _ => ?_
      dsimp only
      split
      · exact .pure trivial
      · exact (Runs.modify fun s hs => ⟨hs.nodes, hs.built, hs.size⟩).bind fun _ _ =>
          (Runs.forM fun n _ => builds_visitParts hfuel n).bind fun _ _ =>
            builds_visitWaiting hfuel rounds

end Build

namespace Graph

open Build

variable {g : Graph}

/-- A part that has no value within the levels left starts a way that its node makes longer. -/
theorem ends_part {s : Builder} (hs : Follows g s) {fuel number : Nat} {b : Built}
    (h : ∀ m, EndsIn (assemble s.built fuel m) (fun _ => True)
      fun fault => fault = .malformed ∨ fault = .endless ∧ g.Way fuel m)
    (hb : s.built[number]? = some (some b)) :
    ∀ m ∈ b.parts, EndsIn (assemble s.built fuel m) (fun _ => True)
      fun fault => fault = .malformed ∨ fault = .endless ∧ g.Way (fuel + 1) number := by
  intro m hm
  have hsize : number < g.nodes.size := by
    rw [← hs.size]
    exact (Array.getElem?_eq_some_iff.mp hb).1
  exact (h m).fault fun fault hfault => hfault.imp_right fun hway =>
    ⟨hway.1, hsize, m, hs.built number b hb m hm, hway.2⟩

/-- Putting the values together ends in a value, or there is a way as long as there were levels. -/
theorem ends_assemble {s : Builder} (hs : Follows g s) : ∀ (fuel number : Nat),
    EndsIn (assemble s.built fuel number) (fun _ => True)
      fun fault => fault = .malformed ∨ fault = .endless ∧ g.Way fuel number
  | 0, _ => .inr ⟨rfl, trivial⟩
  | fuel + 1, number => by
      rw [assemble]
      split
      · exact .inl rfl
      · exact trivial
      all_goals rename_i heq
      all_goals have hpart := ends_part hs (ends_assemble hs fuel) (Option.join_eq_some_iff.mp heq)
      · exact (EndsIn.mapM hpart).bind fun _ _ => trivial
      · refine (EndsIn.mapM (R := fun _ => True) fun e he => ?_).bind fun _ _ => trivial
        exact (hpart e.2 (List.mem_map_of_mem he)).bind fun _ _ => trivial
      · exact trivial
      · refine (EndsIn.mapM (R := fun _ => True) fun e he => ?_).bind fun _ _ => trivial
        refine (hpart e.1 ?_).bind fun _ _ => (hpart e.2 ?_).bind fun _ _ => trivial
        · exact List.mem_flatMap.mpr ⟨e, he, List.mem_cons_self⟩
        · exact List.mem_flatMap.mpr ⟨e, he, List.mem_cons_of_mem _ List.mem_cons_self⟩

theorem follows_start : Follows g ⟨g.nodes, Array.replicate g.nodes.size none, []⟩ := by
  refine ⟨fun number node hnode => ?_, fun number b hb => ?_, Array.size_replicate⟩
  · exact ⟨⟨node, hnode, .refl node⟩, fun m hm => .single ⟨node, hnode, hm⟩⟩
  · rw [Array.getElem?_replicate] at hb
    split at hb
    · cases hb
    · cases hb

/-- A graph without a value goes against the notation, or there is an obstacle in it. -/
theorem obstacle_of_value {fault : Fault} (h : g.value = .error fault) :
    fault = .malformed ∨ g.Obstacle fault := by
  have hends : EndsIn g.value (fun _ => True)
      fun fault => fault = .malformed ∨ g.Obstacle fault := by
    unfold value
    extract_lets size parts fuel start
    -- There are more levels than nodes, so running out of them is the sign of an endless value.
    have hfuel : g.nodes.size < fuel := by
      show g.nodes.size < g.nodes.size + parts + 2
      omega
    have hvisits : Builds g (do visit fuel g.root; visitWaiting fuel fuel) fun _ => True :=
      (builds_visit hfuel g.root).bind fun _ _ => builds_visitWaiting hfuel fuel
    refine (hvisits start follows_start).bind fun p hp => ?_
    have hvalue := ends_assemble hp.2 fuel g.root
    refine hvalue.fault fun fault hfault => hfault.imp_right fun hway => ?_
    obtain ⟨m, hm⟩ := exists_contains_self hway.2 hfuel
    rw [hway.1]
    exact .endless hm
  exact hends.of_error h

end Graph

end Conform.Yaml
