import Conform.Proofs.Portable.Notation
import Conform.Yaml.Document
import Mathlib.Data.List.Forall2

/-!
# Spelled values as nodes

Tokens that spell a value are read as a node that stands for it (`Graph.exists_ofTokens`).

What a node stands for is decided by its own nodes alone, those that were added while it was read
(`NodeReading.Reads`).  Their number bounds the levels of the value, since each level adds a node.
A collection is numbered before its parts and filled after them (`NodeReading.reads_filled`).
-/

namespace Conform.Yaml

namespace Tag

/-- The tags that plain words and texts in quotes get. -/
def IsPlain (t : Tag) : Prop := t = .null ∨ t = .bool ∨ t = .int ∨ t = .float ∨ t = .str

theorem isPlain_word {w : List Char} {v : Value} (h : Json.Word w v) : (ofPlain w).IsPlain := by
  cases h with
  | null => exact .inl ofPlain_null
  | bool b => exact .inr (.inl (ofPlain_bool b))
  | int negative whole => exact .inr (.inr (.inl (ofPlain_int negative whole)))
  | float negative whole point proper =>
      exact .inr (.inr (.inr (.inl (ofPlain_float negative whole point proper))))

end Tag

/-- A node is a text that may be a key. -/
def IsKey (nodes : Array Node) (n : Nat) (k : Value) : Prop :=
  ∃ text, nodes[n]? = some (.scalar .str text) ∧ k = .text (String.ofList text)

/-- A node stands for a value in at most so many levels. -/
def Holds (nodes : Array Node) : Nat → Nat → Value → Prop
  | 0, _, _ => False
  | levels + 1, n, v =>
    (∃ tag text, nodes[n]? = some (.scalar tag text) ∧ tag.IsPlain ∧ tag.readScalar text = .ok v) ∨
    (∃ items xs, nodes[n]? = some (.sequence .seq items) ∧ v = .list xs ∧
      List.Forall₂ (Holds nodes levels) items xs) ∨
    ∃ entries es, nodes[n]? = some (.mapping .map entries) ∧ v = Value.ofEntries es ∧
      List.Forall₂ (fun e e' => IsKey nodes e.1 e'.1 ∧ Holds nodes levels e.2 e'.2) entries es

theorem Holds.succ {nodes : Array Node} : ∀ {levels n : Nat} {v : Value},
    Holds nodes levels n v → Holds nodes (levels + 1) n v
  | levels + 1, n, v, h => by
      rcases h with h | ⟨items, xs, hn, hv, hall⟩ | ⟨entries, es, hn, hv, hall⟩
      · exact .inl h
      · exact .inr (.inl ⟨items, xs, hn, hv, hall.imp fun _ _ h => h.succ⟩)
      · exact .inr (.inr ⟨entries, es, hn, hv, hall.imp fun _ _ h => ⟨h.1, h.2.succ⟩⟩)

theorem Holds.mono {nodes : Array Node} {levels levels' n : Nat} {v : Value}
    (hle : levels ≤ levels') (h : Holds nodes levels n v) : Holds nodes levels' n v := by
  induction hle with
  | refl => exact h
  | step _ ih => exact ih.succ

theorem run_bind {σ α β : Type} {r : StateT σ (Except Fault) α}
    {f : α → StateT σ (Except Fault) β} {s s' : σ} {a : α} (h : r.run s = .ok (a, s')) :
    (r >>= f).run s = (f a).run s' := by
  rw [StateT.run_bind, h]
  rfl

namespace NodeReading

variable {α β : Type} {fuel : Nat} {block unindented : Bool} {t : Token}
  {ts rest : List Token} {nodes nodes' : Array Node} {anchors : List (List Char × Nat)}
  {handles : List (List Char × List Char)}

theorem run_node_scalar (fuel : Nat) (block unindented plain : Bool) (text : List Char) :
    (node (fuel + 1) block unindented).run ⟨.scalar plain text :: rest, nodes, anchors, handles⟩ =
      .ok (nodes.size, ⟨rest, nodes.push (.scalar (scalarTag none plain text) text), anchors,
        handles⟩) := by
  rw [node]
  rfl

theorem run_node_sequence {items : List Nat}
    (h : (flowItems fuel true).run ⟨ts, nodes.push (.sequence .seq []), anchors, handles⟩ =
      .ok (items, ⟨rest, nodes', anchors, handles⟩)) :
    (node (fuel + 1) block unindented).run ⟨.flowSequenceStart :: ts, nodes, anchors, handles⟩ =
      .ok (nodes.size, ⟨rest, nodes'.setIfInBounds nodes.size (.sequence .seq items), anchors,
        handles⟩) := by
  rw [node]
  show (flowItems fuel true >>= fun items => do
    replace nodes.size (.sequence .seq items)
    return nodes.size).run _ = _
  exact (run_bind h).trans rfl

theorem run_node_mapping {entries : List (Nat × Nat)}
    (h : (flowEntries fuel true).run ⟨ts, nodes.push (.mapping .map []), anchors, handles⟩ =
      .ok (entries, ⟨rest, nodes', anchors, handles⟩)) :
    (node (fuel + 1) block unindented).run ⟨.flowMappingStart :: ts, nodes, anchors, handles⟩ =
      .ok (nodes.size, ⟨rest, nodes'.setIfInBounds nodes.size (.mapping .map entries), anchors,
        handles⟩) := by
  rw [node]
  show (flowEntries fuel true >>= fun entries => do
    replace nodes.size (.mapping .map entries)
    return nodes.size).run _ = _
  exact (run_bind h).trans rfl

/-- The comma before all items or entries but the first. -/
def comma (first : Bool) : List Token := if first then [] else [.flowEntry]

/-- A value begins with the token. -/
def Begins (t : Token) : Prop :=
  (∃ plain text, t = .scalar plain text) ∨ t = .flowSequenceStart ∨ t = .flowMappingStart

theorem run_flowItems_item (fuel : Nat) (first : Bool) (ht : Begins t) (ts : List Token)
    (nodes : Array Node) (anchors : List (List Char × Nat))
    (handles : List (List Char × List Char)) :
    (flowItems (fuel + 1) first).run ⟨comma first ++ t :: ts, nodes, anchors, handles⟩ =
      (do
        let item ← node fuel false false
        return item :: (← flowItems fuel false)).run ⟨t :: ts, nodes, anchors, handles⟩ := by
  rw [flowItems]
  cases first <;> rcases ht with ⟨plain, text, rfl⟩ | rfl | rfl <;> rfl

theorem run_flowItems_end (first : Bool) :
    (flowItems (fuel + 1) first).run ⟨.flowSequenceEnd :: rest, nodes, anchors, handles⟩ =
      .ok ([], ⟨rest, nodes, anchors, handles⟩) := by
  rw [flowItems]
  rfl

theorem run_flowEntries_end (first : Bool) :
    (flowEntries (fuel + 1) first).run ⟨.flowMappingEnd :: rest, nodes, anchors, handles⟩ =
      .ok ([], ⟨rest, nodes, anchors, handles⟩) := by
  rw [flowEntries]
  rfl

theorem run_flowEntries_entry (fuel : Nat) (first : Bool) (key : List Char) (ht : Begins t)
    (ts : List Token) (nodes : Array Node) (anchors : List (List Char × Nat))
    (handles : List (List Char × List Char)) :
    (flowEntries (fuel + 4) first).run
        ⟨comma first ++ .key :: .scalar false key :: .value :: t :: ts, nodes, anchors, handles⟩ =
      (do
        let value ← node (fuel + 1) false false
        return (nodes.size, value) :: (← flowEntries (fuel + 3) false)).run
          ⟨t :: ts, nodes.push (.scalar .str key), anchors, handles⟩ := by
  have hkey : (nodeUnless (fuel + 3) [.value, .flowEntry, .flowMappingEnd] false false).run
      ⟨.scalar false key :: .value :: t :: ts, nodes, anchors, handles⟩ =
        .ok (nodes.size, ⟨.value :: t :: ts, nodes.push (.scalar .str key), anchors, handles⟩) := by
    rw [nodeUnless]
    exact run_node_scalar (fuel + 1) false false false key
  have hvalue : (valueUnless (fuel + 3) [.flowEntry, .flowMappingEnd] false false).run
      ⟨.value :: t :: ts, nodes.push (.scalar .str key), anchors, handles⟩ =
        (node (fuel + 1) false false).run
          ⟨t :: ts, nodes.push (.scalar .str key), anchors, handles⟩ := by
    rw [valueUnless, nodeUnless]
    rcases ht with ⟨plain, text, rfl⟩ | rfl | rfl <;> rfl
  have hstep : (flowEntries (fuel + 4) first).run
      ⟨comma first ++ .key :: .scalar false key :: .value :: t :: ts, nodes, anchors, handles⟩ =
        (nodeUnless (fuel + 3) [.value, .flowEntry, .flowMappingEnd] false false >>= fun key => do
          let value ← valueUnless (fuel + 3) [.flowEntry, .flowMappingEnd] false false
          return (key, value) :: (← flowEntries (fuel + 3) false)).run
            ⟨.scalar false key :: .value :: t :: ts, nodes, anchors, handles⟩ := by
    rw [flowEntries]
    cases first <;> rfl
  rw [hstep, run_bind hkey, StateT.run_bind, StateT.run_bind, hvalue]

/-- Reading goes past tokens and adds nodes, of which something holds that does not depend on other
nodes; the number says how many there are. -/
def Reads (r : NodeReading α) (ts : List Token) (P : Array Node → Nat → α → Prop) : Prop :=
  ∀ (rest : List Token) (nodes : Array Node) (anchors : List (List Char × Nat))
    (handles : List (List Char × List Char)), ∃ a nodes',
      r.run ⟨ts ++ rest, nodes, anchors, handles⟩ = .ok (a, ⟨rest, nodes', anchors, handles⟩) ∧
      nodes.size ≤ nodes'.size ∧ (∀ i < nodes.size, nodes'[i]? = nodes[i]?) ∧
      ∀ others : Array Node, (∀ i, nodes.size ≤ i → i < nodes'.size → others[i]? = nodes'[i]?) →
        P others (nodes'.size - nodes.size) a

/-- How tokens are read that spell something, with fuel enough. -/
def ReadsPart : List Token → Part → Prop
  | ts, .value v => ∀ fuel, 4 * ts.length ≤ fuel → ∀ block unindented,
      Reads (node fuel block unindented) ts fun nodes levels n => Holds nodes levels n v
  | ts, .items xs => ∀ fuel, 4 * ts.length ≤ fuel → ∀ first,
      Reads (flowItems fuel first) (comma first ++ ts) fun nodes levels items =>
        List.Forall₂ (Holds nodes levels) items xs
  | ts, .entries es => ∀ fuel, 4 * ts.length ≤ fuel → ∀ first,
      Reads (flowEntries fuel first) (comma first ++ ts) fun nodes levels entries =>
        List.Forall₂ (fun e e' => IsKey nodes e.1 e'.1 ∧ Holds nodes levels e.2 e'.2) entries es

theorem begins_of_spells {part : Part} (h : Spells ts part) : ∀ {v : Value}, part = .value v →
    ∃ t us, ts = t :: us ∧ Begins t := by
  intro v hv
  cases h with
  | word => exact ⟨_, _, rfl, .inl ⟨_, _, rfl⟩⟩
  | text => exact ⟨_, _, rfl, .inl ⟨_, _, rfl⟩⟩
  | noItems | list => exact ⟨_, _, rfl, .inr (.inl rfl)⟩
  | noEntries | map => exact ⟨_, _, rfl, .inr (.inr rfl)⟩
  | lastItem | item | lastEntry | entry => exact nomatch hv

theorem reads_scalar (plain : Bool) {text : List Char} {v : Value}
    (htag : (scalarTag none plain text).IsPlain)
    (hread : (scalarTag none plain text).readScalar text = .ok v) :
    ReadsPart [.scalar plain text] (.value v) := by
  intro fuel hfuel block unindented rest nodes anchors handles
  obtain ⟨fuel, rfl⟩ : ∃ k, fuel = k + 1 := ⟨fuel - 1, by simp at hfuel; omega⟩
  refine ⟨_, _, run_node_scalar fuel block unindented plain text, by simp, fun i hi => ?_,
    fun others h => ?_⟩
  · rw [Array.getElem?_push_lt hi, Array.getElem?_eq_getElem hi]
  · have hlevels : (nodes.push (.scalar (scalarTag none plain text) text)).size - nodes.size =
        0 + 1 := by simp
    rw [hlevels]
    refine .inl ⟨_, _, ?_, htag, hread⟩
    rw [h nodes.size (Nat.le_refl _) (by simp)]
    simp

/-- A collection is one node, and those of its parts. -/
theorem reads_filled {parts : NodeReading α} {P : Array Node → Nat → α → Prop} {empty : Node}
    {fill : α → Node} {start : Token} {v : Value} {block unindented : Bool}
    (hparts : Reads parts ts P)
    (hrun : ∀ {rest nodes nodes' anchors handles a},
      parts.run ⟨ts ++ rest, nodes.push empty, anchors, handles⟩ =
          .ok (a, ⟨rest, nodes', anchors, handles⟩) →
        (node (fuel + 1) block unindented).run ⟨start :: (ts ++ rest), nodes, anchors, handles⟩ =
          .ok (nodes.size, ⟨rest, nodes'.setIfInBounds nodes.size (fill a), anchors, handles⟩))
    (hholds : ∀ {nodes levels n a}, nodes[n]? = some (fill a) → P nodes levels a →
      Holds nodes (levels + 1) n v) :
    Reads (node (fuel + 1) block unindented) (start :: ts) fun nodes levels n =>
      Holds nodes levels n v := by
  intro rest nodes anchors handles
  obtain ⟨a, nodes', hread, hsize, hkeep, hP⟩ := hparts rest (nodes.push empty) anchors handles
  rw [Array.size_push] at hsize hkeep hP
  refine ⟨nodes.size, _, hrun hread, ?_, fun i hi => ?_, fun others h => ?_⟩
  · rw [Array.size_setIfInBounds]
    omega
  · rw [Array.getElem?_setIfInBounds_ne (by omega), hkeep i (by omega), Array.getElem?_push_lt hi,
      Array.getElem?_eq_getElem hi]
  · rw [Array.size_setIfInBounds] at h ⊢
    have hlevels : nodes'.size - nodes.size = nodes'.size - (nodes.size + 1) + 1 := by omega
    rw [hlevels]
    refine hholds ?_ (hP others fun i hi hi' => ?_)
    · rw [h nodes.size (Nat.le_refl _) (by omega),
        Array.getElem?_setIfInBounds_self_of_lt (by omega)]
    · rw [h i (by omega) hi', Array.getElem?_setIfInBounds_ne (by omega)]

theorem Reads.both {γ : Type} {r : NodeReading α} {q : NodeReading β} {us : List Token}
    {P : Array Node → Nat → α → Prop} {Q : Array Node → Nat → β → Prop}
    {R : Array Node → Nat → γ → Prop} (h : Reads r ts P) (hq : Reads q us Q) (combine : α → β → γ)
    (hR : ∀ {nodes j k a b}, P nodes j a → Q nodes k b → R nodes (j + k) (combine a b)) :
    Reads (do return combine (← r) (← q)) (ts ++ us) R := by
  intro rest nodes anchors handles
  obtain ⟨a, nodes₁, hread, hsize, hkeep, hP⟩ := h (us ++ rest) nodes anchors handles
  obtain ⟨b, nodes₂, hread₂, hsize₂, hkeep₂, hQ⟩ := hq rest nodes₁ anchors handles
  refine ⟨combine a b, nodes₂, ?_, Nat.le_trans hsize hsize₂, fun i hi => ?_, fun others h => ?_⟩
  · rw [List.append_assoc]
    exact (run_bind hread).trans ((run_bind hread₂).trans rfl)
  · rw [hkeep₂ i (Nat.lt_of_lt_of_le hi hsize), hkeep i hi]
  · have hlevels : nodes₂.size - nodes.size =
        (nodes₁.size - nodes.size) + (nodes₂.size - nodes₁.size) := by omega
    rw [hlevels]
    refine hR (hP others fun i hi hi' => ?_) (hQ others fun i hi hi' => ?_)
    · rw [h i hi (Nat.lt_of_lt_of_le hi' hsize₂), hkeep₂ i hi']
    · exact h i (Nat.le_trans hsize hi) hi'

theorem reads_nothing {r : NodeReading (List α)} {t : Token} {P : Array Node → Nat → List α → Prop}
    (hrun : ∀ {rest nodes anchors handles},
      r.run ⟨t :: rest, nodes, anchors, handles⟩ = .ok ([], ⟨rest, nodes, anchors, handles⟩))
    (hP : ∀ {nodes levels}, P nodes levels []) : Reads r [t] P :=
  fun _ nodes _ _ => ⟨[], nodes, hrun, Nat.le_refl _, fun _ _ => rfl, fun _ _ => hP⟩

theorem reads_item {us : List Token} {v : Value} {xs : List Value} (first : Bool)
    (hbegins : ∃ t us, ts = t :: us ∧ Begins t)
    (hnode : Reads (node fuel false false) ts fun nodes levels n => Holds nodes levels n v)
    (hitems : Reads (flowItems fuel false) us fun nodes levels items =>
      List.Forall₂ (Holds nodes levels) items xs) :
    Reads (flowItems (fuel + 1) first) (comma first ++ (ts ++ us)) fun nodes levels items =>
      List.Forall₂ (Holds nodes levels) items (v :: xs) := by
  have hboth : Reads (do return (← node fuel false false) :: (← flowItems fuel false)) (ts ++ us)
      fun nodes levels items => List.Forall₂ (Holds nodes levels) items (v :: xs) :=
    hnode.both hitems List.cons fun hv hxs => .cons (hv.mono (by omega))
      (hxs.imp fun _ _ h => h.mono (by omega))
  obtain ⟨t, ts', rfl, ht⟩ := hbegins
  intro rest nodes anchors handles
  have hrun := run_flowItems_item fuel first ht (ts' ++ us ++ rest) nodes anchors handles
  have hreads := hboth rest nodes anchors handles
  simp only [List.append_assoc, List.cons_append] at hrun hreads ⊢
  rw [hrun]
  simpa using hreads

theorem reads_entry {us : List Token} {v : Value} {es : List (Value × Value)} (first : Bool)
    (key : List Char) (hbegins : ∃ t us, ts = t :: us ∧ Begins t)
    (hnode : Reads (node (fuel + 1) false false) ts fun nodes levels n => Holds nodes levels n v)
    (hentries : Reads (flowEntries (fuel + 3) false) us fun nodes levels entries =>
      List.Forall₂ (fun e e' => IsKey nodes e.1 e'.1 ∧ Holds nodes levels e.2 e'.2) entries es) :
    Reads (flowEntries (fuel + 4) first)
      (comma first ++ .key :: .scalar false key :: .value :: (ts ++ us))
      fun nodes levels entries =>
        List.Forall₂ (fun e e' => IsKey nodes e.1 e'.1 ∧ Holds nodes levels e.2 e'.2) entries
          ((.text (String.ofList key), v) :: es) := by
  intro rest nodes anchors handles
  have hboth : Reads (do
      return (nodes.size, ← node (fuel + 1) false false) :: (← flowEntries (fuel + 3) false))
      (ts ++ us) fun others levels entries => IsKey others nodes.size (.text (String.ofList key)) →
        List.Forall₂ (fun e e' => IsKey others e.1 e'.1 ∧ Holds others levels e.2 e'.2) entries
          ((.text (String.ofList key), v) :: es) :=
    hnode.both hentries (fun n entries => (nodes.size, n) :: entries)
      fun hv hes hkey => .cons ⟨hkey, hv.mono (by omega)⟩
        (hes.imp fun _ _ h => ⟨h.1, h.2.mono (by omega)⟩)
  obtain ⟨t, ts', rfl, ht⟩ := hbegins
  have hrun := run_flowEntries_entry fuel first key ht (ts' ++ us ++ rest) nodes anchors handles
  obtain ⟨entries, nodes', hread, hsize, hkeep, hP⟩ :=
    hboth rest (nodes.push (.scalar .str key)) anchors handles
  rw [Array.size_push] at hsize hkeep hP
  refine ⟨entries, nodes', ?_, by omega, fun i hi => ?_, fun others h => ?_⟩
  · simp only [List.append_assoc, List.cons_append] at hrun hread ⊢
    rw [hrun]
    simpa using hread
  · rw [hkeep i (by omega), Array.getElem?_push_lt hi, Array.getElem?_eq_getElem hi]
  · have hkey : IsKey others nodes.size (.text (String.ofList key)) := by
      refine ⟨key, ?_, rfl⟩
      rw [h nodes.size (Nat.le_refl _) (by omega), hkeep nodes.size (by omega)]
      simp
    refine (hP others (fun i hi hi' => h i (by omega) hi') hkey).imp fun _ _ h => ?_
    exact ⟨h.1, h.2.mono (by omega)⟩

theorem readsPart {part : Part} (h : Spells ts part) : ReadsPart ts part := by
  induction h with
  | @word w v hw =>
      exact reads_scalar true (Tag.isPlain_word hw) (Tag.readScalar_word hw)
  | text text => exact reads_scalar false (.inr (.inr (.inr (.inr rfl)))) rfl
  | noItems =>
      intro fuel hfuel block unindented
      obtain ⟨fuel, rfl⟩ : ∃ k, fuel = k + 2 := ⟨fuel - 2, by simp at hfuel; omega⟩
      have hparts : Reads (flowItems (fuel + 1) true) [.flowSequenceEnd] fun _ _ items =>
          items = [] := reads_nothing (run_flowItems_end true) rfl
      refine reads_filled hparts run_node_sequence ?_
      rintro nodes levels n items hn rfl
      exact .inr (.inl ⟨[], [], hn, rfl, .nil⟩)
  | @list ts xs _ ih =>
      intro fuel hfuel block unindented
      rw [List.length_cons] at hfuel
      obtain ⟨fuel, rfl⟩ : ∃ k, fuel = k + 1 := ⟨fuel - 1, by omega⟩
      exact reads_filled (ih fuel (by omega) true) run_node_sequence
        fun hn hall => .inr (.inl ⟨_, _, hn, rfl, hall⟩)
  | noEntries =>
      intro fuel hfuel block unindented
      obtain ⟨fuel, rfl⟩ : ∃ k, fuel = k + 2 := ⟨fuel - 2, by simp at hfuel; omega⟩
      have hparts : Reads (flowEntries (fuel + 1) true) [.flowMappingEnd] fun _ _ entries =>
          entries = [] := reads_nothing (run_flowEntries_end true) rfl
      refine reads_filled hparts run_node_mapping ?_
      rintro nodes levels n entries hn rfl
      exact .inr (.inr ⟨[], [], hn, rfl, .nil⟩)
  | @map ts es _ ih =>
      intro fuel hfuel block unindented
      rw [List.length_cons] at hfuel
      obtain ⟨fuel, rfl⟩ : ∃ k, fuel = k + 1 := ⟨fuel - 1, by omega⟩
      exact reads_filled (ih fuel (by omega) true) run_node_mapping
        fun hn hall => .inr (.inr ⟨_, _, hn, rfl, hall⟩)
  | @lastItem ts v h ih =>
      intro fuel hfuel first
      rw [List.length_append, List.length_singleton] at hfuel
      obtain ⟨fuel, rfl⟩ : ∃ k, fuel = k + 2 := ⟨fuel - 2, by omega⟩
      exact reads_item first (begins_of_spells h rfl) (ih (fuel + 1) (by omega) false false)
        (reads_nothing (run_flowItems_end false) .nil)
  | @item ts us v xs h _ ihv ihxs =>
      intro fuel hfuel first
      rw [List.length_append, List.length_cons] at hfuel
      obtain ⟨fuel, rfl⟩ : ∃ k, fuel = k + 1 := ⟨fuel - 1, by omega⟩
      exact reads_item first (begins_of_spells h rfl) (ihv fuel (by omega) false false)
        (ihxs fuel (by omega) false)
  | @lastEntry key ts v h ih =>
      intro fuel hfuel first
      simp only [List.length_cons, List.length_append] at hfuel
      obtain ⟨fuel, rfl⟩ : ∃ k, fuel = k + 4 := ⟨fuel - 4, by omega⟩
      exact reads_entry first key (begins_of_spells h rfl) (ih (fuel + 1) (by omega) false false)
        (reads_nothing (run_flowEntries_end false) .nil)
  | @entry key ts us v es h _ ihv ihes =>
      intro fuel hfuel first
      simp only [List.length_cons, List.length_append] at hfuel
      obtain ⟨fuel, rfl⟩ : ∃ k, fuel = k + 4 := ⟨fuel - 4, by omega⟩
      exact reads_entry first key (begins_of_spells h rfl) (ihv (fuel + 1) (by omega) false false)
        (ihes (fuel + 3) (by omega) false)

/-- The node that all tokens are for is the document. -/
theorem run_onlyDocument {root : Nat} (hbegins : ∃ t us, ts = t :: us ∧ Begins t)
    (h : (node fuel true false).run ⟨ts, #[], [], defaultHandles⟩ =
      .ok (root, ⟨[.streamEnd], nodes, [], defaultHandles⟩)) :
    (onlyDocument fuel).run ⟨ts, #[], [], []⟩ =
      .ok (some root, ⟨[.streamEnd], nodes, [], defaultHandles⟩) := by
  obtain ⟨t, us, rfl, ht⟩ := hbegins
  have hfuel : ∃ k, fuel = k + 1 := by
    cases fuel with
    | zero => exact nomatch h
    | succ k => exact ⟨k, rfl⟩
  obtain ⟨k, rfl⟩ := hfuel
  have hdocument : (document (k + 1)).run ⟨t :: us, #[], [], []⟩ =
      .ok (some root, ⟨[.streamEnd], nodes, [], defaultHandles⟩) := by
    have hstart : (document (k + 1)).run ⟨t :: us, #[], [], []⟩ =
        (do return some (← node (k + 1) true false)).run ⟨t :: us, #[], [], defaultHandles⟩ := by
      rcases ht with ⟨plain, text, rfl⟩ | rfl | rfl <;> rfl
    exact hstart.trans (run_bind h)
  exact (run_bind hdocument).trans rfl

end NodeReading

/-- The document that spelled tokens make up stands for their value. -/
theorem Graph.exists_ofTokens {ts : List Token} {v : Value} (h : Spells ts (.value v)) :
    ∃ g : Graph, Graph.ofTokens (ts ++ [.streamEnd]) = .ok (some g) ∧
      Holds g.nodes g.nodes.size g.root v := by
  obtain ⟨n, nodes, hrun, -, -, hholds⟩ :=
    NodeReading.readsPart h (4 * (ts ++ [Token.streamEnd]).length + 4)
      (by rw [List.length_append]; omega) true false [.streamEnd] #[] [] NodeReading.defaultHandles
  have hbegins : ∃ t us, ts ++ [Token.streamEnd] = t :: us ∧ NodeReading.Begins t := by
    obtain ⟨t, us, rfl, ht⟩ := NodeReading.begins_of_spells h rfl
    exact ⟨t, _, rfl, ht⟩
  refine ⟨⟨nodes, n⟩, ?_, hholds nodes fun _ _ _ => rfl⟩
  simp only [Graph.ofTokens, NodeReading.run_onlyDocument hbegins hrun]

end Conform.Yaml
