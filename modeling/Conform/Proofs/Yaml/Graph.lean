import Conform.Yaml.Document
import Mathlib.Data.List.Perm.Subperm
import Mathlib.Logic.Relation

/-!
# What stands in the way of a value

A graph of nodes can be read by all rules of the notation and still have no value.  `Graph.Obstacle`
lists the reasons: a scalar that is tagged, or looks, as something that its text is not, and a
timestamp that is a map.  A node that contains itself is listed as well, but not as a failure of
reading: its value would be cyclic, and so lies outside the finite values described here.

From a node that starts a way of more nodes than there are, one comes to a node that contains itself
(`Graph.exists_contains_self`).  So counting levels is enough to find such nodes.
-/

namespace Conform.Yaml

def Node.parts : Node → List Nat
  | .scalar _ _ => []
  | .sequence _ items => items
  | .mapping _ entries => entries.flatMap fun e => [e.1, e.2]

theorem Node.mem_parts_mapping {tag : Tag} {entries : List (Nat × Nat)} {e : Nat × Nat}
    (h : e ∈ entries) : e.1 ∈ (mapping tag entries).parts ∧ e.2 ∈ (mapping tag entries).parts :=
  ⟨List.mem_flatMap.mpr ⟨e, h, List.mem_cons_self⟩,
    List.mem_flatMap.mpr ⟨e, h, List.mem_cons_of_mem _ List.mem_cons_self⟩⟩

namespace Graph

def HasPart (g : Graph) (n m : Nat) : Prop := ∃ node, g.nodes[n]? = some node ∧ m ∈ node.parts

/-- The second node is a part of the first, or a part of a part, and so on. -/
abbrev Contains (g : Graph) : Nat → Nat → Prop := Relation.TransGen g.HasPart

/-- Why a graph of nodes has no value although the notation is followed. -/
inductive Obstacle (g : Graph) : Fault → Prop where
  /-- The text of a node, which for a map is that of a node in it, cannot be read under the tag of
  the node. -/
  | unreadable {n m : Nat} {node : Node} {tag : Tag} {text : List Char} {fault : Fault}
      (hnode : g.nodes[n]? = some node)
      (htag : node.tag ∈ [.bool, .int, .float, .timestamp])
      (hm : Relation.ReflTransGen g.HasPart n m) (htext : g.nodes[m]? = some (.scalar tag text))
      (hread : node.tag.readScalar text = .error fault) (hfault : fault ≠ .malformed) :
      Obstacle g fault
  | timestampOfMap {n : Nat} {entries : List (Nat × Nat)}
      (hnode : g.nodes[n]? = some (.mapping .timestamp entries)) : Obstacle g .timestampOfMap
  /-- The value of the node would be cyclic, which is outside the values described here. -/
  | endless {n : Nat} (h : g.Contains n n) : Obstacle g .endless

variable {g : Graph}

theorem Obstacle.ne_malformed {fault : Fault} (h : g.Obstacle fault) : fault ≠ .malformed := by
  cases h with
  | unreadable _ _ _ _ _ hfault => exact hfault
  | timestampOfMap | endless => nofun

/-! ## Ways through a graph -/

/-- There is a way of so many nodes from the node on, each of which contains the next. -/
def Way (g : Graph) : Nat → Nat → Prop
  | 0, _ => True
  | length + 1, n => n < g.nodes.size ∧ ∃ m, g.Contains n m ∧ g.Way length m

theorem exists_of_way : ∀ {length n : Nat}, g.Way length n →
    ∃ path : List Nat, path.length = length ∧ path.Pairwise g.Contains ∧
      ∀ m ∈ path, m < g.nodes.size ∧ (m = n ∨ g.Contains n m)
  | 0, _, _ => ⟨[], rfl, .nil, nofun⟩
  | length + 1, n, ⟨hn, m, hnm, hway⟩ => by
      obtain ⟨path, hlength, hpath, hmem⟩ := exists_of_way hway
      have hbehind : ∀ a ∈ path, g.Contains n a := fun a ha =>
        (hmem a ha).2.elim (fun h => h ▸ hnm) hnm.trans
      refine ⟨n :: path, by simp [hlength], .cons hbehind hpath, fun a ha => ?_⟩
      rcases List.mem_cons.mp ha with rfl | ha
      · exact ⟨hn, .inl rfl⟩
      · exact ⟨(hmem a ha).1, .inr (hbehind a ha)⟩

/-- On a way that is longer than there are nodes, one of them comes twice. -/
theorem exists_contains_self {length n : Nat} (h : g.Way length n)
    (hlong : g.nodes.size < length) : ∃ m, g.Contains m m := by
  by_contra hno
  push Not at hno
  obtain ⟨path, hlength, hpath, hmem⟩ := exists_of_way h
  have hnodup : path.Nodup := hpath.imp fun hab heq => by
    rw [heq] at hab
    exact hno _ hab
  have hsubset : path ⊆ List.range g.nodes.size := fun m hm => List.mem_range.mpr (hmem m hm).1
  have hle := (List.subperm_of_subset hnodup hsubset).length_le
  rw [List.length_range, hlength] at hle
  omega

end Graph

/-! ## Scalars -/

/-- Only truth values, numbers and timestamps can be well written and yet stand for nothing. -/
theorem Tag.mem_of_readScalar {tag : Tag} {text : List Char} {fault : Fault}
    (h : tag.readScalar text = .error fault) (hfault : fault ≠ .malformed) :
    tag ∈ [.bool, .int, .float, .timestamp] := by
  cases tag with
  | bool | int | float | timestamp => decide
  | null | str => cases h
  | binary =>
      simp only [readScalar, readBinary] at h
      split at h
      · exact absurd (Except.error.inj h).symm hfault
      · split at h
        · cases h
        · exact absurd (Except.error.inj h).symm hfault
  | _ => exact absurd (Except.error.inj h).symm hfault

end Conform.Yaml
