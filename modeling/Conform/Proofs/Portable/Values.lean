import Conform.Proofs.Portable.Nodes
import Conform.Proofs.Yaml.Values

/-!
# The value of a document that stands for one

A document that stands for a value is found to have it (`Graph.value_eq_ok`), and so a portable text
means the same as YAML as it does as JSON (`parse_eq_ok`).

The nodes are visited in rounds, one for each level.  While a round lasts, all that was found of the
nodes is final but for the collections that still wait for their parts (`Build.Progress`).  Visiting
the parts of a collection makes it final and adds new collections that stand for values of a level
less; so after the rounds nothing waits, and the values can be put together (`assemble_eq_ok`).
-/

namespace Conform.Yaml

variable {nodes : Array Node}

/-! ## What nodes are found to be -/

/-- What a node is found to be in the end. -/
inductive Found (nodes : Array Node) (n : Nat) : Built → Prop
  | scalar {tag : Tag} {text : List Char} {v : Value} (hn : nodes[n]? = some (.scalar tag text))
      (hread : tag.readScalar text = .ok v) : Found nodes n (.scalar v)
  | list {items : List Nat} (hn : nodes[n]? = some (.sequence .seq items)) :
      Found nodes n (.list items)
  | map {entries : List (Nat × Nat)} {es : List (Value × Nat)}
      (hn : nodes[n]? = some (.mapping .map entries))
      (hes : List.Forall₂ (fun e e' => IsKey nodes e.1 e'.1 ∧ e'.2 = e.2) entries es) :
      Found nodes n (.map (es.foldl (fun done e => Value.put done e.1 e.2) []))

def IsCollection (nodes : Array Node) (n : Nat) : Prop :=
  (∃ items, nodes[n]? = some (.sequence .seq items)) ∨
    ∃ entries, nodes[n]? = some (.mapping .map entries)

namespace Found

variable {n : Nat} {b : Built}

theorem eq_scalar (h : Found nodes n b) {tag : Tag} {text : List Char} {v : Value}
    (hn : nodes[n]? = some (.scalar tag text)) (hread : tag.readScalar text = .ok v) :
    b = .scalar v := by
  cases h with
  | scalar hn' hread' =>
      obtain ⟨rfl, rfl⟩ := Node.scalar.inj (Option.some.inj (hn.symm.trans hn'))
      rw [Except.ok.inj (hread.symm.trans hread')]
  | list hn' | map hn' => cases hn.symm.trans hn'

theorem eq_list (h : Found nodes n b) {items : List Nat}
    (hn : nodes[n]? = some (.sequence .seq items)) : b = .list items := by
  cases h with
  | list hn' =>
      obtain ⟨-, rfl⟩ := Node.sequence.inj (Option.some.inj (hn.symm.trans hn'))
      rfl
  | scalar hn' | map hn' => cases hn.symm.trans hn'

theorem exists_eq_map (h : Found nodes n b) {entries : List (Nat × Nat)}
    (hn : nodes[n]? = some (.mapping .map entries)) : ∃ ns : List (Value × Nat),
      List.Forall₂ (fun e e' => IsKey nodes e.1 e'.1 ∧ e'.2 = e.2) entries ns ∧
        b = .map (ns.foldl (fun done e => Value.put done e.1 e.2) []) := by
  cases h with
  | map hn' hns =>
      obtain ⟨-, rfl⟩ := Node.mapping.inj (Option.some.inj (hn.symm.trans hn'))
      exact ⟨_, hns, rfl⟩
  | scalar hn' | list hn' => cases hn.symm.trans hn'

end Found

namespace Build

def IsFound (s : Builder) (n : Nat) : Prop := ∃ b, s.built[n]? = some (some b)

/-- What the node is was found, and also what its parts are. -/
structure Final (nodes : Array Node) (s : Builder) (n : Nat) (b : Built) : Prop where
  found : Found nodes n b
  parts : ∀ m ∈ b.parts, IsFound s m

/-- Some collections still wait for their parts to be visited, those of a round and new ones; all
else that was found is final. -/
structure Progress (nodes : Array Node) (levels : Nat) (todo : List Nat) (s : Builder) : Prop where
  graph : s.nodes = nodes
  size : s.built.size = nodes.size
  built : ∀ n b, s.built[n]? = some (some b) → Final nodes s n b ∨ n ∈ todo ∨ n ∈ s.waiting
  round : ∀ n ∈ todo, IsCollection nodes n
  waiting : ∀ n ∈ s.waiting, IsCollection nodes n ∧ ∃ v, Holds nodes levels n v

variable {levels fuel n : Nat} {todo : List Nat} {s s' : Builder} {v : Value} {b : Built}

/-- What was found stays found. -/
def Keeps (s s' : Builder) : Prop := ∀ n, IsFound s n → IsFound s' n

theorem Keeps.refl (s : Builder) : Keeps s s := fun _ h => h

theorem Keeps.trans {s'' : Builder} (h : Keeps s s') (h' : Keeps s' s'') : Keeps s s'' :=
  fun n hn => h' n (h n hn)

theorem Final.of_keeps (h : Final nodes s n b) (hkeeps : Keeps s s') : Final nodes s' n b :=
  ⟨h.found, fun m hm => hkeeps m (h.parts m hm)⟩

/-- A step comes to a result and to a state with progress, in which all that was found is found. -/
def Advances {α : Type} (nodes : Array Node) (levels : Nat) (todo : List Nat) (r : Build α)
    (s : Builder) (P : α → Builder → Prop) : Prop :=
  ∃ a s', r.run s = .ok (a, s') ∧ Progress nodes levels todo s' ∧ Keeps s s' ∧ P a s'

theorem run_get_bind {α : Type} (f : Builder → Build α) (s : Builder) :
    (get >>= f).run s = (f s).run s := rfl

theorem run_modify_bind {α : Type} (g : Builder → Builder) (f : Unit → Build α) (s : Builder) :
    (modify g >>= f).run s = (f ()).run (g s) := rfl

theorem run_nodeAt {node : Node} (h : s.nodes[n]? = some node) :
    (nodeAt n).run s = .ok (node, s) := by
  unfold nodeAt
  refine (run_get_bind _ s).trans ?_
  rw [h]
  rfl

/-! ### Noting what a node is -/

/-- The state after it was noted what a node is. -/
def noted (s : Builder) (n : Nat) (b : Built) : Builder :=
  { s with built := s.built.setIfInBounds n (some b) }

theorem run_note (n : Nat) (b : Built) : (note n b).run s = .ok ((), noted s n b) := rfl

theorem getElem?_noted {m : Nat} (hn : n < s.built.size) :
    (noted s n b).built[m]? = if m = n then some (some b) else s.built[m]? := by
  unfold noted
  rw [Array.getElem?_setIfInBounds]
  by_cases h : m = n
  · rw [if_pos h.symm, if_pos h, if_pos hn]
  · rw [if_neg (Ne.symm h), if_neg h]

theorem isFound_noted (hn : n < s.built.size) : IsFound (noted s n b) n :=
  ⟨b, by rw [getElem?_noted hn, if_pos rfl]⟩

theorem keeps_noted (hn : n < s.built.size) : Keeps s (noted s n b) := by
  intro m hm
  by_cases h : m = n
  · subst h
    exact isFound_noted hn
  · obtain ⟨b', hb'⟩ := hm
    exact ⟨b', by rw [getElem?_noted hn, if_neg h, hb']⟩

theorem Progress.lt_size (h : Progress nodes levels todo s) {node : Node}
    (hn : nodes[n]? = some node) : n < s.built.size := by
  rw [h.size]
  exact (Array.getElem?_eq_some_iff.mp hn).1

/-- What is final may be noted. -/
theorem Progress.settle (h : Progress nodes levels todo s) (hn : n < s.built.size)
    (hfinal : Final nodes s n b) : Progress nodes levels todo (noted s n b) := by
  refine ⟨h.graph, (Array.size_setIfInBounds ..).trans h.size, fun m b' hb' => ?_, h.round,
    h.waiting⟩
  rw [getElem?_noted hn] at hb'
  split at hb'
  · rename_i heq
    obtain rfl := Option.some.inj (Option.some.inj hb')
    exact .inl (heq ▸ hfinal.of_keeps (keeps_noted hn))
  · exact (h.built m b' hb').imp_left (·.of_keeps (keeps_noted hn))

/-- A collection of the round of which something final was noted need not wait any more. -/
theorem Progress.done (h : Progress nodes levels (n :: todo) s) (hn : n < s.built.size)
    (hfinal : Final nodes s n b) : Progress nodes levels todo (noted s n b) := by
  have hnoted := h.settle hn hfinal
  refine ⟨hnoted.graph, hnoted.size, fun m b' hb' => ?_,
    fun m hm => h.round m (List.mem_cons_of_mem n hm), h.waiting⟩
  by_cases heq : m = n
  · rw [getElem?_noted hn, if_pos heq] at hb'
    obtain rfl := Option.some.inj (Option.some.inj hb')
    exact .inl (heq ▸ hfinal.of_keeps (keeps_noted hn))
  · exact (hnoted.built m b' hb').imp_right (.imp_left fun hm =>
      (List.mem_cons.mp hm).resolve_left heq)

/-! ### Visiting -/

theorem Progress.of_scalar (h : Progress nodes levels todo s) {tag : Tag} {text : List Char}
    (hn : nodes[n]? = some (.scalar tag text)) (hread : tag.readScalar text = .ok v)
    (hb : s.built[n]? = some (some b)) : b = .scalar v := by
  have hno : ¬ IsCollection nodes n := by
    rintro (⟨items, hitems⟩ | ⟨entries, hentries⟩)
    · rw [hn] at hitems
      exact nomatch hitems
    · rw [hn] at hentries
      exact nomatch hentries
  rcases h.built n b hb with hfinal | hm | hm
  · exact hfinal.found.eq_scalar hn hread
  · exact absurd (h.round n hm) hno
  · exact absurd (h.waiting n hm).1 hno

theorem run_visit_found (h : IsFound s n) : (visit fuel n).run s = .ok ((), s) := by
  obtain ⟨b, hb⟩ := h
  refine (run_get_bind _ s).trans ?_
  rw [hb]
  rfl

theorem run_scalarOf (fuel : Nat) {tag : Tag} {text : List Char}
    (hn : s.nodes[n]? = some (.scalar tag text)) (hread : tag.readScalar text = .ok v) :
    (scalarOf (fuel + 1) n).run s = .ok (v, s) := by
  have htext : (textOf (fuel + 1) n).run s = .ok (text, s) := by
    rw [textOf]
    exact (run_bind (run_nodeAt hn)).trans rfl
  refine (run_bind (run_nodeAt hn)).trans ((run_bind htext).trans ?_)
  simp only [Node.tag, hread]
  rfl

theorem join_eq_none (h : ¬ IsFound s n) : (s.built[n]?).join = none := by
  cases hb : s.built[n]? with
  | none => rfl
  | some o =>
      cases o with
      | none => rfl
      | some b => exact absurd ⟨b, hb⟩ h

theorem run_visit_scalar (h : ¬ IsFound s n) {tag : Tag} {text : List Char}
    (hn : s.nodes[n]? = some (.scalar tag text)) (htag : tag.IsPlain)
    (hread : tag.readScalar text = .ok v) :
    (visit (fuel + 1) n).run s = .ok ((), noted s n (.scalar v)) := by
  refine (run_get_bind _ s).trans ?_
  rw [join_eq_none h]
  refine (run_bind (run_nodeAt hn)).trans ?_
  have hscalar := run_bind (f := fun v => note n (.scalar v)) (run_scalarOf fuel hn hread)
  rcases htag with rfl | rfl | rfl | rfl | rfl <;> exact hscalar

/-- The state after a collection was found, which waits now. -/
def awaiting (s : Builder) (n : Nat) : Builder :=
  { noted s n (.list []) with waiting := n :: s.waiting }

theorem run_visit_collection (h : ¬ IsFound s n) (hn : IsCollection s.nodes n) :
    (visit fuel n).run s = .ok ((), awaiting s n) := by
  refine (run_get_bind _ s).trans ?_
  rw [join_eq_none h]
  rcases hn with ⟨items, hn⟩ | ⟨entries, hn⟩ <;> exact (run_bind (run_nodeAt hn)).trans rfl

theorem Progress.await (h : Progress nodes levels todo s) (hn : n < s.built.size)
    (hcollection : IsCollection nodes n) (hv : Holds nodes levels n v) :
    Progress nodes levels todo (awaiting s n) := by
  refine ⟨h.graph, (Array.size_setIfInBounds ..).trans h.size, fun m b hb => ?_, h.round,
    List.forall_mem_cons.mpr ⟨⟨hcollection, v, hv⟩, h.waiting⟩⟩
  have hb' : (noted s n (.list [])).built[m]? = some (some b) := hb
  rw [getElem?_noted hn] at hb'
  split at hb'
  · rename_i heq
    exact .inr (.inr (heq ▸ List.mem_cons_self))
  · exact (h.built m b hb').imp (·.of_keeps (keeps_noted hn))
      (.imp_right (List.mem_cons_of_mem n))

/-- A visited node is found: a scalar is final, a collection waits. -/
theorem advances_visit (fuel : Nat) (hs : Progress nodes levels todo s)
    (hn : Holds nodes levels n v) :
    Advances nodes levels todo (visit (fuel + 1) n) s fun _ s' => IsFound s' n := by
  by_cases hfound : IsFound s n
  · exact ⟨(), s, run_visit_found hfound, hs, Keeps.refl s, hfound⟩
  have hawait (hcollection : IsCollection nodes n) (hlt : n < s.built.size) :
      Advances nodes levels todo (visit (fuel + 1) n) s fun _ s' => IsFound s' n :=
    ⟨(), _, run_visit_collection hfound (hs.graph ▸ hcollection), hs.await hlt hcollection hn,
      keeps_noted hlt, isFound_noted hlt⟩
  cases levels with
  | zero => exact hn.elim
  | succ levels =>
      rcases hn with ⟨tag, text, hn, htag, hread⟩ | ⟨items, -, hn, -⟩ | ⟨entries, -, hn, -⟩
      · have hlt := hs.lt_size hn
        exact ⟨(), _, run_visit_scalar hfound (hs.graph ▸ hn) htag hread,
          hs.settle hlt ⟨.scalar hn hread, List.forall_mem_nil _⟩, keeps_noted hlt,
          isFound_noted hlt⟩
      · exact hawait (.inl ⟨items, hn⟩) (hs.lt_size hn)
      · exact hawait (.inr ⟨entries, hn⟩) (hs.lt_size hn)

/-! ### Visiting parts -/

variable {α β : Type} {P : α → Builder → Prop} {Q : β → Builder → Prop}

theorem Advances.bind {todo' : List Nat} {r : Build α} {f : α → Build β}
    (h : Advances nodes levels todo r s P)
    (hf : ∀ a s', Progress nodes levels todo s' → P a s' →
      Advances nodes levels todo' (f a) s' Q) : Advances nodes levels todo' (r >>= f) s Q := by
  obtain ⟨a, s', hrun, hs', hkeeps, hP⟩ := h
  obtain ⟨b, s'', hrun', hs'', hkeeps', hQ⟩ := hf a s' hs' hP
  exact ⟨b, s'', (run_bind hrun).trans hrun', hs'', hkeeps.trans hkeeps', hQ⟩

theorem Advances.imp {P' : α → Builder → Prop} {r : Build α} (h : Advances nodes levels todo r s P)
    (hP : ∀ a s', Keeps s s' → P a s' → P' a s') : Advances nodes levels todo r s P' := by
  obtain ⟨a, s', hrun, hs', hkeeps, h⟩ := h
  exact ⟨a, s', hrun, hs', hkeeps, hP a s' hkeeps h⟩

theorem advances_forM (fuel : Nat) {items : List Nat} {xs : List Value}
    (h : List.Forall₂ (Holds nodes levels) items xs) : ∀ {s : Builder},
      Progress nodes levels todo s → Advances nodes levels todo (items.forM (visit (fuel + 1))) s
        fun _ s' => ∀ m ∈ items, IsFound s' m := by
  induction h with
  | nil => exact fun hs => ⟨(), _, rfl, hs, Keeps.refl _, List.forall_mem_nil _⟩
  | cons hn _ ih =>
      intro s hs
      refine (advances_visit fuel hs hn).bind fun _ s' hs' hfound => ?_
      exact (ih hs').imp fun _ s'' hkeeps hall =>
        List.forall_mem_cons.mpr ⟨hkeeps _ hfound, hall⟩

section

variable {entries : List (Nat × Nat)} {es : List (Value × Value)}

theorem run_hasTag_str {text : List Char} (hn : s.nodes[n]? = some (.scalar .str text)) :
    (hasTag .merge n).run s = .ok (false, s) :=
  (run_bind (run_nodeAt hn)).trans rfl

theorem run_splitAtMerge : ∀ entries : List (Nat × Nat),
    (∀ e ∈ entries, ∃ k, IsKey s.nodes e.1 k) → (splitAtMerge entries).run s = .ok (none, s)
  | [], _ => rfl
  | (k, v) :: entries, h => by
      obtain ⟨⟨key, text, hk, -⟩, hentries⟩ := List.forall_mem_cons.mp h
      rw [splitAtMerge]
      refine (run_bind (run_hasTag_str hk)).trans ?_
      exact (run_bind (run_splitAtMerge entries hentries)).trans rfl

theorem run_settleValueKeys : ∀ entries : List (Nat × Nat),
    (∀ e ∈ entries, ∃ k, IsKey s.nodes e.1 k) → (settleValueKeys entries).run s = .ok ((), s)
  | [], _ => rfl
  | (k, v) :: entries, h => by
      obtain ⟨⟨key, text, hk, -⟩, hentries⟩ := List.forall_mem_cons.mp h
      have hsettle : (settleValueKey k).run s = .ok ((), s) :=
        (run_bind (run_nodeAt hk)).trans rfl
      rw [settleValueKeys]
      exact (run_bind hsettle).trans (run_settleValueKeys entries hentries)

theorem run_entriesOf {tag : Tag} (hn : s.nodes[n]? = some (.mapping tag entries)) :
    (entriesOf n).run s = .ok (entries, s) :=
  (run_bind (run_nodeAt hn)).trans rfl

/-- Where all keys are texts, there is nothing to merge. -/
theorem run_flattenMap (hn : s.nodes[n]? = some (.mapping .map entries))
    (hkeys : ∀ e ∈ entries, ∃ k, IsKey s.nodes e.1 k) :
    (flattenMap (fuel + 1) n).run s = .ok ((), s) := by
  have hcollect : (collectMerges (fuel + 1) n 0).run s = .ok ([], s) := by
    rw [collectMerges]
    refine (run_bind (run_entriesOf hn)).trans ?_
    refine (run_bind (run_splitAtMerge _ hkeys)).trans ?_
    exact (run_bind (run_settleValueKeys _ hkeys)).trans rfl
  exact (run_bind hcollect).trans rfl

theorem holds_of_isKey {m : Nat} {k : Value} (hk : IsKey nodes n k) (hv : Holds nodes levels m v) :
    Holds nodes levels n k := by
  cases levels with
  | zero => exact hv.elim
  | succ levels =>
      obtain ⟨text, hn, rfl⟩ := hk
      exact .inl ⟨.str, text, hn, .inr (.inr (.inr (.inr rfl))), rfl⟩

theorem run_keyAt (hs : Progress nodes levels todo s) {k : Value} (hk : IsKey nodes n k)
    (hfound : IsFound s n) : (keyAt n).run s = .ok (k, s) := by
  obtain ⟨text, hn, rfl⟩ := hk
  obtain ⟨b, hb⟩ := hfound
  obtain rfl := hs.of_scalar hn rfl hb
  refine (run_get_bind _ s).trans ?_
  rw [hb]
  rfl

theorem advances_visitEntries (fuel : Nat)
    (h : List.Forall₂ (fun e e' => IsKey nodes e.1 e'.1 ∧ Holds nodes levels e.2 e'.2)
      entries es) : ∀ {s : Builder} (done : List (Value × Nat)),
      Progress nodes levels todo s →
        Advances nodes levels todo (visitEntries (fuel + 1) done entries) s
          fun found s' => (∀ e ∈ entries, IsFound s' e.2) ∧ ∃ ns : List (Value × Nat),
            List.Forall₂ (fun e e' => IsKey nodes e.1 e'.1 ∧ e'.2 = e.2) entries ns ∧
              found = ns.foldl (fun done e => Value.put done e.1 e.2) done := by
  induction h with
  | nil => exact fun _ hs => ⟨_, _, rfl, hs, Keeps.refl _, List.forall_mem_nil _, [], .nil, rfl⟩
  | @cons e e' entries es hhead _ ih =>
      intro s done hs
      obtain ⟨k, v⟩ := e
      obtain ⟨hk, hv⟩ := hhead
      rw [visitEntries]
      refine (advances_visit fuel hs (holds_of_isKey hk hv)).bind fun _ s₁ hs₁ hfound => ?_
      have hkey : Advances nodes levels todo (keyAt k) s₁ fun key _ => key = e'.1 :=
        ⟨_, s₁, run_keyAt hs₁ hk hfound, hs₁, Keeps.refl s₁, rfl⟩
      refine hkey.bind fun key s₂ hs₂ heq => ?_
      refine (advances_visit fuel hs₂ hv).bind fun _ s₃ hs₃ hfound' => ?_
      subst heq
      refine (ih _ hs₃).imp fun found s₄ hkeeps h => ?_
      obtain ⟨hall, ns, hns, hput⟩ := h
      exact ⟨List.forall_mem_cons.mpr ⟨hkeeps _ hfound', hall⟩, (e'.1, v) :: ns,
        .cons ⟨hk, rfl⟩ hns, hput⟩

end

/-- What follows from the elements of one list holds of the corresponding ones. -/
theorem forall_of_forall₂ {γ δ : Type} {R : γ → δ → Prop} {p : δ → Prop} {xs : List γ}
    {ys : List δ} (h : List.Forall₂ R xs ys) (hp : ∀ x y, x ∈ xs → R x y → p y) :
    ∀ y ∈ ys, p y := by
  induction h with
  | nil => exact List.forall_mem_nil _
  | cons hxy _ ih =>
      exact List.forall_mem_cons.mpr ⟨hp _ _ List.mem_cons_self hxy,
        ih fun x y hx => hp x y (List.mem_cons_of_mem _ hx)⟩

theorem advances_visitParts (hs : Progress nodes levels (n :: todo) s)
    (hn : Holds nodes (levels + 1) n v) :
    Advances nodes levels todo (visitParts (fuel + 1) n) s fun _ _ => True := by
  -- Once the parts are found, it is noted what the collection is.
  have hnote {r : Build Built} {node : Node} (hnode : nodes[n]? = some node)
      (hr : Advances nodes levels (n :: todo) r s fun b s' =>
        Found nodes n b ∧ ∀ m ∈ b.parts, IsFound s' m) :
      Advances nodes levels todo (r >>= note n) s fun _ _ => True := by
    refine hr.bind fun b s' hs' hb => ?_
    have hlt := hs'.lt_size hnode
    exact ⟨(), _, run_note n b, hs'.done hlt ⟨hb.1, hb.2⟩, keeps_noted hlt, trivial⟩
  rcases hn with ⟨tag, text, hn, -⟩ | ⟨items, xs, hn, -, hitems⟩ | ⟨entries, es, hn, -, hentries⟩
  · rcases hs.round n List.mem_cons_self with ⟨items, hn'⟩ | ⟨entries, hn'⟩ <;>
      exact nomatch hn.symm.trans hn'
  · have hnode : s.nodes[n]? = some (.sequence .seq items) := hs.graph ▸ hn
    obtain ⟨_, s', hrun, hs', hkeeps, hfound⟩ := advances_forM fuel hitems hs
    obtain ⟨_, s'', hrun', hs'', hkeeps', -⟩ := hnote hn
      (r := do items.forM (visit (fuel + 1)); return Built.list items)
      ⟨_, s', (run_bind hrun).trans rfl, hs', hkeeps, .list hn, hfound⟩
    refine ⟨(), s'', (run_bind (run_nodeAt hnode)).trans ?_, hs'', hkeeps', trivial⟩
    rw [bind_assoc] at hrun'
    exact hrun'
  · have hnode : s.nodes[n]? = some (.mapping .map entries) := hs.graph ▸ hn
    have hkeys : ∀ e ∈ entries, ∃ k, IsKey s.nodes e.1 k :=
      hs.graph ▸ forall_of_forall₂ hentries.flip fun _ _ _ h => ⟨_, h.1⟩
    obtain ⟨found, s', hrun, hs', hkeeps, hfound, ns, hns, rfl⟩ :=
      advances_visitEntries fuel hentries [] hs
    have hmerged : (mergedEntries (fuel + 1) n).run s =
        .ok (ns.foldl (fun done e => Value.put done e.1 e.2) [], s') := by
      refine (run_bind (run_entriesOf hnode)).trans ?_
      refine (run_bind (run_flattenMap hnode hkeys)).trans ?_
      exact (run_bind (run_entriesOf hnode)).trans hrun
    have hparts : ∀ m ∈ (ns.foldl (fun done e => Value.put done e.1 e.2) []).map (·.2),
        IsFound s' m := by
      have hns' : ∀ e ∈ ns, True ∧ IsFound s' e.2 := forall_of_forall₂ hns fun e e' he h =>
        ⟨trivial, h.2 ▸ hfound e he⟩
      refine List.forall_mem_map.mpr fun e he => ?_
      exact (Value.forall_foldl_put (K := fun _ => True) hns' e he).2
    obtain ⟨_, s'', hrun', hs'', hkeeps', -⟩ := hnote hn
      (r := do return Built.map (← mergedEntries (fuel + 1) n))
      ⟨_, s', (run_bind hmerged).trans rfl, hs', hkeeps, .map hn hns, hparts⟩
    refine ⟨(), s'', (run_bind (run_nodeAt hnode)).trans ?_, hs'', hkeeps', trivial⟩
    rw [bind_assoc] at hrun'
    exact hrun'

/-- Visiting the parts of the collections of a round leaves only new ones. -/
theorem advances_round (fuel : Nat) : ∀ {todo : List Nat} {s : Builder},
    Progress nodes levels todo s → (∀ n ∈ todo, ∃ v, Holds nodes (levels + 1) n v) →
      Advances nodes levels [] (todo.forM (visitParts (fuel + 1))) s fun _ _ => True
  | [], s, hs, _ => ⟨(), s, rfl, hs, Keeps.refl s, trivial⟩
  | n :: todo, s, hs, h => by
      obtain ⟨⟨v, hn⟩, htodo⟩ := List.forall_mem_cons.mp h
      obtain ⟨_, s', hrun, hs', hkeeps, -⟩ := advances_visitParts hs hn
      obtain ⟨_, s'', hrun', hs'', hkeeps', -⟩ := advances_round fuel hs' htodo
      exact ⟨(), s'', (run_bind hrun).trans hrun', hs'', hkeeps.trans hkeeps', trivial⟩

theorem Progress.final (h : Progress nodes levels [] s) (hempty : s.waiting = []) :
    ∀ n b, s.built[n]? = some (some b) → Final nodes s n b := by
  intro n b hb
  rcases h.built n b hb with hfinal | hn | hn
  · exact hfinal
  · exact nomatch hn
  · rw [hempty] at hn
    exact nomatch hn

/-- Nothing that stands for a value in no levels waits. -/
theorem Progress.waiting_eq_nil (h : Progress nodes 0 todo s) : s.waiting = [] := by
  refine List.eq_nil_iff_forall_not_mem.mpr fun n hn => ?_
  obtain ⟨-, v, hv⟩ := h.waiting n hn
  exact hv

theorem Progress.next (h : Progress nodes (levels + 1) [] s) :
    Progress nodes levels s.waiting.reverse { s with waiting := [] } := by
  refine ⟨h.graph, h.size, fun n b hb => ?_, fun n hn => ?_, List.forall_mem_nil _⟩
  · rcases h.built n b hb with hfinal | hn | hn
    · exact .inl ⟨hfinal.found, hfinal.parts⟩
    · exact nomatch hn
    · exact .inr (.inl (List.mem_reverse.mpr hn))
  · exact (h.waiting n (List.mem_reverse.mp hn)).1

/-- With a round for each level, all that is found becomes final. -/
theorem exists_visitWaiting (fuel : Nat) {rounds : Nat} (hle : levels ≤ rounds)
    (hs : Progress nodes levels [] s) :
    ∃ s', (visitWaiting (fuel + 1) rounds).run s = .ok ((), s') ∧ Keeps s s' ∧
      ∀ n b, s'.built[n]? = some (some b) → Final nodes s' n b := by
  induction rounds generalizing levels s with
  | zero =>
      obtain rfl := Nat.le_zero.mp hle
      exact ⟨s, rfl, Keeps.refl s, hs.final hs.waiting_eq_nil⟩
  | succ rounds ih =>
      rw [visitWaiting]
      by_cases hempty : s.waiting = []
      · refine ⟨s, (run_get_bind _ s).trans ?_, Keeps.refl s, hs.final hempty⟩
        rw [hempty]
        rfl
      · obtain ⟨levels, rfl⟩ : ∃ k, levels = k + 1 :=
          Nat.exists_eq_succ_of_ne_zero fun h => hempty (h ▸ hs).waiting_eq_nil
        have hround : ∀ n ∈ s.waiting.reverse, ∃ v, Holds nodes (levels + 1) n v :=
          fun n hn => (hs.waiting n (List.mem_reverse.mp hn)).2
        obtain ⟨_, s', hrun, hs', hkeeps, -⟩ := advances_round fuel hs.next hround
        obtain ⟨s'', hrun', hkeeps', hfinal⟩ := ih (Nat.le_of_succ_le_succ hle) hs'
        refine ⟨s'', (run_get_bind _ s).trans ?_, hkeeps.trans hkeeps', hfinal⟩
        have hne : s.waiting.reverse.isEmpty = false := by simpa using hempty
        simp only [hne, Bool.false_eq_true, if_false]
        exact (run_modify_bind (fun s => { s with waiting := [] }) _ s).trans
          ((run_bind hrun).trans hrun')

end Build

/-! ## Putting together -/

theorem forall₂_put {α β : Type} {S : α → β → Prop} {es : List (Value × α)} {fs : List (Value × β)}
    (h : List.Forall₂ (fun e f => e.1 = f.1 ∧ S e.2 f.2) es fs) (k : Value) {a : α} {b : β}
    (hab : S a b) : List.Forall₂ (fun e f => e.1 = f.1 ∧ S e.2 f.2)
      (Value.put es k a) (Value.put fs k b) := by
  induction h with
  | nil => exact .cons ⟨rfl, hab⟩ .nil
  | @cons e f es fs hef hrest ih =>
      obtain ⟨k', a'⟩ := e
      obtain ⟨k'', b'⟩ := f
      obtain ⟨rfl, hab'⟩ := hef
      rw [Value.put, Value.put]
      split
      · exact .cons ⟨rfl, hab⟩ hrest
      · exact .cons ⟨rfl, hab'⟩ ih

theorem forall₂_foldl_put {α β : Type} {S : α → β → Prop} {es : List (Value × α)}
    {fs : List (Value × β)} (h : List.Forall₂ (fun e f => e.1 = f.1 ∧ S e.2 f.2) es fs) :
    ∀ {done : List (Value × α)} {done' : List (Value × β)},
      List.Forall₂ (fun e f => e.1 = f.1 ∧ S e.2 f.2) done done' →
        List.Forall₂ (fun e f => e.1 = f.1 ∧ S e.2 f.2)
          (es.foldl (fun d e => Value.put d e.1 e.2) done)
          (fs.foldl (fun d e => Value.put d e.1 e.2) done') := by
  induction h with
  | nil => exact id
  | @cons e f es fs hef _ ih =>
      intro done done' hdone
      have hput := forall₂_put hdone e.1 hef.2
      rw [List.foldl_cons, List.foldl_cons, ← hef.1]
      exact ih hput

theorem mapM_eq_ok_of_forall₂ {α β : Type} {f : α → Except Fault β} {xs : List α} {ys : List β}
    (h : List.Forall₂ (fun x y => f x = .ok y) xs ys) : xs.mapM f = .ok ys := by
  induction h with
  | nil => rfl
  | cons hx _ ih =>
      rw [List.mapM_cons, hx, ih]
      rfl

theorem IsKey.eq {n : Nat} {k k' : Value} (h : IsKey nodes n k) (h' : IsKey nodes n k') :
    k = k' := by
  obtain ⟨text, hn, rfl⟩ := h
  obtain ⟨text', hn', rfl⟩ := h'
  rw [(Node.scalar.inj (Option.some.inj (hn.symm.trans hn'))).2]

/-- What a map was found to be corresponds to the entries that it stands for. -/
theorem forall₂_of_entries {levels : Nat} {entries : List (Nat × Nat)} {ns : List (Value × Nat)}
    {es : List (Value × Value)}
    (hns : List.Forall₂ (fun e e' => IsKey nodes e.1 e'.1 ∧ e'.2 = e.2) entries ns)
    (hes : List.Forall₂ (fun e e' => IsKey nodes e.1 e'.1 ∧ Holds nodes levels e.2 e'.2)
      entries es) :
    List.Forall₂ (fun e f => e.1 = f.1 ∧ Holds nodes levels e.2 f.2) ns es := by
  induction hns generalizing es with
  | nil =>
      cases hes
      exact .nil
  | cons hn _ ih =>
      cases hes with
      | cons he hes => exact .cons ⟨hn.1.eq he.1, hn.2 ▸ he.2⟩ (ih hes)

/-- Where all that was found is final, what stands for a value is put together as that value. -/
theorem assemble_eq_ok {s : Builder}
    (hfinal : ∀ n b, s.built[n]? = some (some b) → Build.Final nodes s n b) :
    ∀ {levels fuel n : Nat} {v : Value}, levels ≤ fuel → Holds nodes levels n v →
      Build.IsFound s n → assemble s.built fuel n = .ok v
  | 0, _, _, _, _, h, _ => h.elim
  | levels + 1, 0, _, _, hle, _, _ => absurd hle (by omega)
  | levels + 1, fuel + 1, n, v, hle, h, ⟨b, hb⟩ => by
      obtain ⟨hfound, hparts⟩ := hfinal n b hb
      have hrec {m : Nat} {v : Value} (hm : Holds nodes levels m v) (hfound : Build.IsFound s m) :
          assemble s.built fuel m = .ok v :=
        assemble_eq_ok hfinal (Nat.le_of_succ_le_succ hle) hm hfound
      rw [assemble, hb, Option.join_some]
      rcases h with ⟨tag, text, hn, -, hread⟩ | ⟨items, xs, hn, rfl, hitems⟩ |
        ⟨entries, es, hn, rfl, hentries⟩
      · rw [hfound.eq_scalar hn hread]
      · obtain rfl := hfound.eq_list hn
        have hall := (List.forall₂_and_left _ _).mpr ⟨hparts, hitems⟩
        have hmap : items.mapM (assemble s.built fuel) = .ok xs :=
          mapM_eq_ok_of_forall₂ (hall.imp fun _ _ h => hrec h.2 h.1)
        dsimp only
        rw [hmap]
        rfl
      · obtain ⟨ns, hns, rfl⟩ := hfound.exists_eq_map hn
        have hput := forall₂_foldl_put (forall₂_of_entries hns hentries) .nil
        have hvisited : ∀ e ∈ ns.foldl (fun d e => Value.put d e.1 e.2) [],
            Build.IsFound s e.2 := fun e he => hparts e.2 (List.mem_map_of_mem he)
        have hall := (List.forall₂_and_left _ _).mpr ⟨hvisited, hput⟩
        have hmap : (ns.foldl (fun d e => Value.put d e.1 e.2) []).mapM
            (fun e => do return (e.1, ← assemble s.built fuel e.2)) =
              .ok (es.foldl (fun d e => Value.put d e.1 e.2) []) := by
          refine mapM_eq_ok_of_forall₂ (hall.imp fun e f h => ?_)
          rw [hrec h.2.2 h.1, h.2.1]
          rfl
        dsimp only
        rw [hmap]
        rfl

theorem Graph.value_eq_ok {g : Graph} {v : Value} (h : Holds g.nodes g.nodes.size g.root v) :
    g.value = .ok v := by
  unfold Graph.value
  extract_lets size parts fuel start
  have hstart : Build.Progress g.nodes size [] start := by
    refine ⟨rfl, Array.size_replicate, fun n b hb => ?_, List.forall_mem_nil _,
      List.forall_mem_nil _⟩
    rw [Array.getElem?_replicate] at hb
    split at hb
    · cases hb
    · cases hb
  obtain ⟨_, s, hrun, hs, -, hroot⟩ := Build.advances_visit (size + parts + 1) hstart h
  obtain ⟨s', hrun', hkeeps, hfinal⟩ := Build.exists_visitWaiting (size + parts + 1)
    (show size ≤ fuel from Nat.le_add_right_of_le (Nat.le_add_right size parts)) hs
  have hvisits : (do Build.visit fuel g.root; Build.visitWaiting fuel fuel : Build Unit).run start =
      .ok ((), s') := (run_bind hrun).trans hrun'
  rw [hvisits]
  exact assemble_eq_ok hfinal (show size ≤ size + parts + 2 by omega) h (hkeeps _ hroot)

/-- A portable text means the same as YAML as it does as JSON. -/
theorem parse_eq_ok {cs : List Char} {v : Value} (hcs : Json.Portable cs)
    (hread : Json.parse cs = .ok v) : parse cs = .ok v := by
  obtain ⟨ts, htokens, hts⟩ := exists_ofText hread hcs
  obtain ⟨g, hg, hholds⟩ := Graph.exists_ofTokens hts
  unfold parse
  rw [htokens, hg]
  exact Graph.value_eq_ok hholds

end Conform.Yaml
