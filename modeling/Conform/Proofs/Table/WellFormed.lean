import Conform.Proofs.Table.Build
import Conform.Proofs.Table.References
import Mathlib.Data.List.Chain
import Mathlib.Data.List.Perm.Subperm

/-!
# Well-formed named shapes

What makes named shapes a table, said without the search for faults.  Named shapes are closed if
every reference in an entry, nested as deep as it may be, is a name.  They are circular if bare
references lead from the name of some entry to a name for the second time.

`Table.build` makes a table of those that are closed and not circular; otherwise it reports the
first fault, and the names on the way to it (`build_decides`).

The search along bare references stops after as many steps as there are entries.  As long as it has
revisited no name, the names on its way are distinct and so at most as many as that; when the search
finds nothing, then, it has come to a shape that is no reference (`revisit?_cases`).
-/

namespace Conform

namespace Shape

/-- The name, if the shape is a bare reference. -/
def bareName? : Shape → Option String
  | .ref name => some name
  | _ => none

theorem bareName?_eq_some_iff {s : Shape} {name : String} :
    s.bareName? = some name ↔ s = .ref name := by
  cases s <;> simp [bareName?]

/-- References come up in the order of the parts, outer before inner. -/
theorem references_eq_filterMap (s : Shape) : s.references = s.parts.filterMap bareName? := by
  induction s using byChildren with
  | step s ih =>
      rw [references_eq, parts_eq, List.filterMap_cons, List.filterMap_flatMap]
      cases s with
      | ref name => rfl
      | _ => exact List.flatMap_congr ih

end Shape

namespace NamedShapes

variable {es : NamedShapes}

/-- Every reference nested in an entry is a name. -/
def Closed (es : NamedShapes) : Prop :=
  ∀ e ∈ es, ∀ name, .ref name ∈ e.2.parts → name ∈ es.names

/-- In the entry of a referrer there is a reference that is no name, and all references before it,
over the entries in order and outer before inner parts, are names. -/
def FirstUnknown (es : NamedShapes) (name referrer : String) : Prop :=
  ∃ before s after, es = before ++ (referrer, s) :: after ∧
    (∀ e ∈ before, ∀ n, .ref n ∈ e.2.parts → n ∈ es.names) ∧
    ∃ earlier later, s.parts = earlier ++ .ref name :: later ∧
      (∀ n, .ref n ∈ earlier → n ∈ es.names) ∧ name ∉ es.names

/-- The shape under the first name is a bare reference to the second. -/
def Hop (es : NamedShapes) (a b : String) : Prop := es.get? a = some (.ref b)

/-- Bare references lead from a name on to a name for the second time. -/
def Revisits (es : NamedShapes) (start : String) : Prop :=
  ∃ rest, (start :: rest).IsChain es.Hop ∧ ¬ (start :: rest).Nodup

/-- Bare references lead from some entry on to a name for the second time. -/
def Circular (es : NamedShapes) : Prop := ∃ e ∈ es, es.Revisits e.1

/-- The chain of bare references from a name on, up to and with the first name that is there for the
second time. -/
def ClosesAt (es : NamedShapes) (start : String) (chain : List String) : Prop :=
  ∃ way last, chain = start :: way ++ [last] ∧ chain.IsChain es.Hop ∧ (start :: way).Nodup ∧
    last ∈ start :: way

/-- The chain is that of the first entry which leads to a name for the second time. -/
def FirstCycle (es : NamedShapes) (chain : List String) : Prop :=
  ∃ before e after, es = before ++ e :: after ∧ (∀ f ∈ before, ¬ es.Revisits f.1) ∧
    es.ClosesAt e.1 chain

/-- Bare references lead from a name through distinct others to a last one, under which the shape
stands. -/
structure Follows (es : NamedShapes) (start : String) (rest : List String) (s : Shape) : Prop where
  linked : (start :: rest).IsChain es.Hop
  distinct : (start :: rest).Nodup
  named : start :: rest ⊆ es.names
  ends : ∃ last, (start :: rest).getLast? = some last ∧ es.get? last = some s

/-! ## Unknown references -/

theorem closed_iff : es.Closed ↔ es.firstUnknown? = none := by
  rw [firstUnknown?_eq_none_iff]
  refine forall₂_congr fun e _ => forall_congr' fun name => ?_
  rw [Shape.mem_references_iff]

theorem exists_of_find?_references {names : List String} {s : Shape} {name : String}
    (h : s.references.find? (fun r => !names.contains r) = some name) :
    ∃ earlier later, s.parts = earlier ++ .ref name :: later ∧
      (∀ n, .ref n ∈ earlier → n ∈ names) ∧ name ∉ names := by
  rw [Shape.references_eq_filterMap, List.find?_filterMap] at h
  obtain ⟨p, hp, hname⟩ := Option.bind_eq_some_iff.mp h
  obtain rfl := Shape.bareName?_eq_some_iff.mp hname
  obtain ⟨hfound, earlier, later, hparts, hearlier⟩ := List.find?_eq_some_iff_append.mp hp
  refine ⟨earlier, later, hparts, fun n hn => ?_, ?_⟩
  · simpa [Shape.bareName?] using hearlier _ hn
  · simpa [Shape.bareName?] using hfound

theorem firstUnknown_of_eq_some {name referrer : String}
    (h : es.firstUnknown? = some (name, referrer)) : es.FirstUnknown name referrer := by
  obtain ⟨before, e, after, hes, he, hbefore⟩ := List.findSome?_eq_some_iff.mp h
  obtain ⟨r, hr, heq⟩ := Option.map_eq_some_iff.mp he
  obtain ⟨rfl, rfl⟩ := Prod.mk.inj heq
  refine ⟨before, e.2, after, hes, fun f hf n hn => ?_, exists_of_find?_references hr⟩
  have hnone := Option.map_eq_none_iff.mp (hbefore f hf)
  simpa using List.find?_eq_none.mp hnone n (Shape.mem_references_iff.mpr hn)

/-! ## Chains of bare references -/

theorem Hop.unique {a b c : String} (hb : es.Hop a b) (hc : es.Hop a c) : b = c :=
  Shape.ref.inj (Option.some.inj (hb.symm.trans hc))

theorem chains_comparable : ∀ {start : String} {l m : List String},
    (start :: l).IsChain es.Hop → (start :: m).IsChain es.Hop → l <+: m ∨ m <+: l
  | _, [], _, _, _ => Or.inl (List.nil_prefix)
  | _, _ :: _, [], _, _ => Or.inr (List.nil_prefix)
  | _, b :: l, c :: m, hl, hm => by
      obtain ⟨hb, hl⟩ := List.isChain_cons_cons.mp hl
      obtain ⟨hc, hm⟩ := List.isChain_cons_cons.mp hm
      obtain rfl := hb.unique hc
      exact (chains_comparable hl hm).imp (List.prefix_cons_inj b).mpr (List.prefix_cons_inj b).mpr

namespace Follows

variable {start : String} {rest : List String} {s : Shape}

theorem length_lt (h : es.Follows start rest s) : rest.length < es.length := by
  have hle := (List.subperm_of_subset h.distinct h.named).length_le
  rwa [List.length_cons, names, List.length_map] at hle

theorem linked_concat {name : String} (h : es.Follows start rest (.ref name)) :
    (start :: rest ++ [name]).IsChain es.Hop := by
  refine List.isChain_append.mpr ⟨h.linked, List.isChain_singleton name, ?_⟩
  intro a ha b hb
  obtain ⟨last, hlast, hs⟩ := h.ends
  obtain rfl := Option.some.inj (hlast.symm.trans ha)
  obtain rfl := Option.some.inj hb
  exact hs

theorem step {name : String} (h : es.Follows start rest (.ref name)) (hn : name ∉ start :: rest)
    (hs : es.get? name = some s) : es.Follows start (rest ++ [name]) s where
  linked := h.linked_concat
  distinct := by
    rw [← List.cons_append, ← List.concat_eq_append]
    exact h.distinct.concat hn
  named := by
    rw [← List.cons_append]
    have hname : name ∈ es.names := List.mem_map_of_mem (f := (·.1)) (mem_of_get? hs)
    exact List.append_subset.mpr ⟨h.named, List.cons_subset.mpr ⟨hname, List.nil_subset _⟩⟩
  ends := ⟨name, by rw [← List.cons_append, List.getLast?_concat], hs⟩

/-- A way to a shape that is no reference goes no further, and so has no name twice. -/
theorem not_revisits (h : es.Follows start rest s) (hs : ∀ name, s ≠ .ref name) :
    ¬ es.Revisits start := by
  rintro ⟨other, hother, hrepeat⟩
  rcases chains_comparable hother h.linked with hp | hp
  · exact hrepeat (h.distinct.sublist ((List.prefix_cons_inj start).mpr hp).sublist)
  · obtain ⟨more, rfl⟩ := hp
    cases more with
    | nil =>
        rw [List.append_nil] at hrepeat
        exact hrepeat h.distinct
    | cons name more =>
        obtain ⟨last, hlast, hget⟩ := h.ends
        rw [← List.cons_append] at hother
        have hhop := (List.isChain_append.mp hother).2.2 last hlast name rfl
        exact hs name (Option.some.inj (hget.symm.trans hhop))

end Follows

theorem Closed.exists_get? (h : es.Closed) {name target : String}
    (hn : es.get? name = some (.ref target)) : ∃ s, es.get? target = some s :=
  NamedShapes.exists_get? (h _ (mem_of_get? hn) target (Shape.self_mem_parts _))

theorem ClosesAt.revisits {start : String} {chain : List String} (h : es.ClosesAt start chain) :
    es.Revisits start := by
  obtain ⟨way, last, rfl, hlinked, -, hlast⟩ := h
  refine ⟨way ++ [last], hlinked, fun hn => ?_⟩
  rw [← List.cons_append, ← List.concat_eq_append] at hn
  exact (List.nodup_concat _ _).mp hn |>.1 hlast

/-- From any place on its way, the search finds where the chain closes, or it comes to a shape that
is no reference. -/
theorem revisit?_cases (hclosed : es.Closed) {start : String} :
    ∀ {steps : Nat} {rest : List String} {s : Shape}, es.Follows start rest s →
      es.length ≤ steps + rest.length →
      (∃ chain, revisit? es steps (start :: rest) s = some chain ∧ es.ClosesAt start chain) ∨
      revisit? es steps (start :: rest) s = none ∧
        ∃ way concrete, es.Follows start way concrete ∧ ∀ name, concrete ≠ .ref name
  | 0, rest, s, h, hsteps => by
      have := h.length_lt
      omega
  | steps + 1, rest, s, h, hsteps => by
      cases s with
      | ref name =>
          rw [revisit?]
          by_cases hm : name ∈ start :: rest
          · rw [if_pos hm]
            exact Or.inl ⟨_, rfl, rest, name, rfl, h.linked_concat, h.distinct, hm⟩
          · obtain ⟨last, -, hlast⟩ := h.ends
            obtain ⟨target, htarget⟩ := hclosed.exists_get? hlast
            rw [if_neg hm, htarget]
            have hleft : es.length ≤ steps + (rest ++ [name]).length := by
              rw [List.length_append, List.length_singleton]
              omega
            exact revisit?_cases hclosed (h.step hm htarget) hleft
      | _ => exact Or.inr ⟨rfl, rest, _, h, by simp⟩

theorem get?_of_mem (hn : es.names.Nodup) {e : String × Shape} (he : e ∈ es) :
    es.get? e.1 = some e.2 := by
  obtain ⟨s, hs⟩ := exists_get? (List.mem_map_of_mem he)
  rw [hs, ← List.inj_on_of_nodup_map hn (mem_of_get? hs) he rfl]

theorem follows_entry (hn : es.names.Nodup) {e : String × Shape} (he : e ∈ es) :
    es.Follows e.1 [] e.2 where
  linked := List.isChain_singleton e.1
  distinct := List.nodup_singleton e.1
  named := List.cons_subset.mpr ⟨List.mem_map_of_mem he, List.nil_subset _⟩
  ends := ⟨e.1, rfl, get?_of_mem hn he⟩

/-- If no name is unknown, then the first entry is found from which a name is revisited, or from
every entry a shape is reached that is no reference. -/
theorem firstCycle?_cases (hn : es.names.Nodup) (hclosed : es.Closed) :
    (∃ chain, es.firstCycle? = some chain ∧ es.FirstCycle chain) ∨
      es.firstCycle? = none ∧ ∀ e ∈ es, ∃ rest s, es.Follows e.1 rest s ∧ ∀ n, s ≠ .ref n := by
  have hcases (e : String × Shape) (he : e ∈ es) :=
    revisit?_cases hclosed (follows_entry hn he) (Nat.le_succ es.length)
  cases hfirst : es.firstCycle? with
  | some chain =>
      obtain ⟨before, e, after, hes, hfound, hbefore⟩ := List.findSome?_eq_some_iff.mp hfirst
      refine Or.inl ⟨chain, rfl, before, e, after, hes, fun f hf => ?_, ?_⟩
      · rcases hcases f (by simp [hes, hf]) with ⟨chain, hsome, -⟩ | ⟨-, rest, s, hf, hs⟩
        · rw [hbefore f hf] at hsome
          cases hsome
        · exact hf.not_revisits hs
      · rcases hcases e (by simp [hes]) with ⟨chain, hsome, hcloses⟩ | ⟨hnone, -⟩
        · rwa [← Option.some.inj (hsome.symm.trans hfound)]
        · rw [hfound] at hnone
          cases hnone
  | none =>
      refine Or.inr ⟨rfl, fun e he => ?_⟩
      rcases hcases e he with ⟨chain, hsome, -⟩ | ⟨-, hreaches⟩
      · rw [List.findSome?_eq_none_iff.mp hfirst e he] at hsome
        cases hsome
      · exact hreaches

theorem not_circular (h : ∀ e ∈ es, ∃ rest s, es.Follows e.1 rest s ∧ ∀ n, s ≠ .ref n) :
    ¬ es.Circular := by
  rintro ⟨e, he, hrevisits⟩
  obtain ⟨rest, s, hfollows, hs⟩ := h e he
  exact hfollows.not_revisits hs hrevisits

theorem FirstCycle.circular {chain : List String} (h : es.FirstCycle chain) : es.Circular := by
  obtain ⟨before, e, after, rfl, -, hcloses⟩ := h
  exact ⟨e, by simp, hcloses.revisits⟩

end NamedShapes

namespace Table

section

variable {pairs : List (String × Shape)}

theorem build_of_not_closed (h : ¬ (NamedShapes.ofList pairs).Closed) : ∃ name referrer,
    build pairs = .error (.unknownReference name referrer) ∧
      (NamedShapes.ofList pairs).FirstUnknown name referrer := by
  rcases build_cases pairs with ⟨name, referrer, hunknown, hbuild⟩ | ⟨hnone, -⟩
  · exact ⟨name, referrer, hbuild, NamedShapes.firstUnknown_of_eq_some hunknown⟩
  · exact absurd (NamedShapes.closed_iff.mpr hnone) h

/-- Closed shapes are reported for their first cycle, or they are a table and bare references lead
from every name to a shape that is no reference. -/
theorem build_of_closed (h : (NamedShapes.ofList pairs).Closed) :
    (∃ chain, build pairs = .error (.cycle chain) ∧
      (NamedShapes.ofList pairs).FirstCycle chain) ∨
    (∃ t, build pairs = .ok t) ∧ ∀ e ∈ NamedShapes.ofList pairs, ∃ rest s,
      (NamedShapes.ofList pairs).Follows e.1 rest s ∧ ∀ n, s ≠ .ref n := by
  have hcases := NamedShapes.firstCycle?_cases (NamedShapes.nodup_ofList pairs) h
  rcases build_cases pairs with ⟨name, referrer, hunknown, -⟩ | ⟨-, hbuild⟩
  · rw [NamedShapes.closed_iff, hunknown] at h
    cases h
  · rcases hbuild with ⟨chain, hcycle, hbuild⟩ | ⟨hcycle, t, hbuild⟩ <;> rw [hcycle] at hcases
    · obtain ⟨chain', hchain, hfirst⟩ | ⟨hnone, -⟩ := hcases
      · exact Or.inl ⟨chain, hbuild, Option.some.inj hchain ▸ hfirst⟩
      · cases hnone
    · obtain ⟨chain, hchain, -⟩ | ⟨-, hreaches⟩ := hcases
      · cases hchain
      · exact Or.inr ⟨⟨t, hbuild⟩, hreaches⟩

end

/-- Named shapes are a table exactly if they are closed and not circular.  If they are not closed,
the first reference that is no name is reported with the entry that it is in.  If they are closed
and circular, the first entry is reported from which bare references lead to a name for the second
time, with all names on the way.  In a table, bare references lead from every name to a shape that
is no reference, and there are fewer of them than entries. -/
theorem build_decides (pairs : List (String × Shape)) :
    let es := NamedShapes.ofList pairs
    ((∃ t, build pairs = .ok t) ↔ es.Closed ∧ ¬ es.Circular) ∧
    (¬ es.Closed → ∃ name referrer, build pairs = .error (.unknownReference name referrer) ∧
      es.FirstUnknown name referrer) ∧
    (es.Closed → es.Circular → ∃ chain, build pairs = .error (.cycle chain) ∧
      es.FirstCycle chain ∧
      (TableFault.cycle chain).message =
        "Reference cycle without a concrete descriptor: " ++ " -> ".intercalate chain) ∧
    ∀ t, build pairs = .ok t → t.entries = es ∧ ∀ name ∈ t.names, ∃ rest s,
      es.Follows name rest s ∧ (∀ n, s ≠ .ref n) ∧ rest.length < es.length := by
  intro es
  by_cases hclosed : es.Closed
  · rcases build_of_closed hclosed with ⟨chain, hbuild, hfirst⟩ | ⟨⟨t, hbuild⟩, hreaches⟩
    · have hno (t : Table) : build pairs ≠ .ok t := by simp [hbuild]
      refine ⟨⟨fun ⟨t, ht⟩ => absurd ht (hno t), fun h => absurd hfirst.circular h.2⟩,
        fun h => absurd hclosed h, fun _ _ => ⟨chain, hbuild, hfirst, rfl⟩,
        fun t ht => absurd ht (hno t)⟩
    · have hstraight : ¬ es.Circular := NamedShapes.not_circular hreaches
      refine ⟨⟨fun _ => ⟨hclosed, hstraight⟩, fun _ => ⟨t, hbuild⟩⟩, fun h => absurd hclosed h,
        fun _ h => absurd h hstraight, fun t ht => ⟨entries_of_build ht, fun name hname => ?_⟩⟩
      rw [names, entries_of_build ht] at hname
      obtain ⟨e, he, rfl⟩ := List.mem_map.mp hname
      obtain ⟨rest, s, hfollows, hs⟩ := hreaches e he
      exact ⟨rest, s, hfollows, hs, hfollows.length_lt⟩
  · obtain ⟨name, referrer, hbuild, hfirst⟩ := build_of_not_closed hclosed
    have hno (t : Table) : build pairs ≠ .ok t := by simp [hbuild]
    exact ⟨⟨fun ⟨t, ht⟩ => absurd ht (hno t), fun h => absurd h.1 hclosed⟩,
      fun _ => ⟨name, referrer, hbuild, hfirst⟩, fun h => absurd h hclosed,
      fun t ht => absurd ht (hno t)⟩

/-- An entry that only leads into a cycle comes first, and so it is the start of what is
reported. -/
theorem build_decides_lead :
    let es : NamedShapes := [("Lead", .ref "A"), ("A", .ref "B"), ("B", .ref "A")]
    es.Closed ∧ es.Circular ∧ build es = .error (.cycle ["Lead", "A", "B", "A"]) ∧
      es.FirstCycle ["Lead", "A", "B", "A"] := by
  intro es
  have hes : NamedShapes.ofList es = es := NamedShapes.ofList_eq (by decide)
  have hclosed : es.Closed := NamedShapes.closed_iff.mpr (by decide)
  have hcircular : es.Circular :=
    ⟨("A", .ref "B"), by decide, ["B", "A"], .cons_cons rfl (.cons_cons rfl (.singleton _)),
      by decide⟩
  have hbuild : build es = .error (.cycle ["Lead", "A", "B", "A"]) := by with_unfolding_all rfl
  have hdecides := (build_decides es).2.2.1
  rw [hes] at hdecides
  obtain ⟨chain, hchain, hfirst, -⟩ := hdecides hclosed hcircular
  obtain rfl := TableFault.cycle.inj (Except.error.inj (hbuild.symm.trans hchain))
  exact ⟨hclosed, hcircular, hbuild, hfirst⟩

end Table

end Conform
