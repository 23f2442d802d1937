import Conform.Proofs.Conversion.Budget
import Conform.Proofs.Table.Productive

/-!
# Conversions end

In a productive table every conversion of a value with writable integers ends, with a converted
value or a rejection (`run_ends`).

Going into a value makes it less high, a field that a map does not have counting as a value of
height zero, so the induction is on the height.  While the value stays the same, the members of
unions are smaller shapes, and the names that are met on the way do not come up again.
-/

namespace Conform.Conversion

variable {table : Table} {direction : Direction}

/-- The conversion ends in some number of steps. -/
def Ends (table : Table) (direction : Direction) (v : Value) (s : Shape) : Prop :=
  ∃ n, verdict table direction n v s ≠ .error .unbounded

theorem refusal_ne_unbounded (v : Value) : refusal v ≠ .unbounded := by
  rw [refusal]
  split <;> simp

theorem exists_common_steps : ∀ {qs : List (Value × Shape)},
    (∀ q ∈ qs, Ends table direction q.1 q.2) →
      ∃ n, ∀ q ∈ qs, verdict table direction n q.1 q.2 ≠ .error .unbounded
  | [], _ => ⟨0, by simp⟩
  | q :: qs, h => by
      obtain ⟨n, hn⟩ := h q List.mem_cons_self
      obtain ⟨m, hm⟩ := exists_common_steps fun p hp => h p (List.mem_cons_of_mem q hp)
      refine ⟨max n m, fun p hp => ?_⟩
      rcases List.mem_cons.mp hp with rfl | hp
      · rw [verdict_of_le (Nat.le_max_left n m) hn]
        exact hn
      · rw [verdict_of_le (Nat.le_max_right n m) (hm p hp)]
        exact hm p hp

theorem ends_of_asked {v : Value} {s : Shape}
    (h : ∀ q ∈ asked table direction v s, Ends table direction q.1 q.2) :
    Ends table direction v s := by
  obtain ⟨n, hn⟩ := exists_common_steps h
  refine ⟨n + 1, fun hu => ?_⟩
  rcases judge_eq_error hu with hr | ⟨_, -, -, hname⟩ | ⟨q, hq, hu⟩
  · exact refusal_ne_unbounded v hr.symm
  · cases hname
  · exact hn q hq hu

/-- If less high values end, then a value ends with a shape if it does with the names that the shape
leads to. -/
theorem ends_of_bareNames {v : Value}
    (hless : ∀ w : Value, w.height < v.height → ∀ s, Ends table direction w s) (s : Shape) :
    (∀ name ∈ s.bareNames, Ends table direction v (.ref name)) → Ends table direction v s := by
  induction s using Shape.byChildren with
  | step s ih =>
      intro hnames
      by_cases href : ∃ name, s = .ref name
      · obtain ⟨name, rfl⟩ := href
        exact hnames name List.mem_cons_self
      refine ends_of_asked fun q hq => ?_
      rcases mem_asked_cases hq with ⟨name, hs, -, -⟩ | ⟨ss, rfl, hmem, hv⟩ | ⟨-, hpart⟩
      · exact absurd ⟨name, hs⟩ href
      · rw [hv]
        exact ih q.2 hmem fun name hn => hnames name (Shape.bareNames_of_member hmem hn)
      · exact hless q.1 (height_of_part hpart) q.2

/-- If less high values end, then a value ends with every name of a productive table. -/
theorem ends_of_productive (ht : table.Productive) {v : Value}
    (hless : ∀ w : Value, w.height < v.height → ∀ s, Ends table direction w s) (name : String) :
    Ends table direction v (.ref name) := by
  refine ht.induction (P := fun name => Ends table direction v (.ref name)) (fun a ih => ?_) name
  refine ends_of_asked fun q hq => ?_
  rcases mem_asked_cases hq with ⟨_, hs, hg, hv⟩ | ⟨_, hs, -, -⟩ | ⟨hc, -⟩
  · obtain rfl := Shape.ref.inj hs
    rw [hv]
    exact ends_of_bareNames hless q.2 fun b hb => ih b ⟨q.2, hg, hb⟩
  · cases hs
  · cases hc

theorem Ends.of_productive (ht : table.Productive) (v : Value) (s : Shape) :
    Ends table direction v s := by
  have hheight : ∀ (k : Nat) (v : Value), v.height < k → ∀ s, Ends table direction v s := by
    intro k
    induction k with
    | zero => exact fun v hv => absurd hv (Nat.not_lt_zero _)
    | succ k ih =>
        intro v hv s
        have hless (w : Value) (hw : w.height < v.height) := ih w (by omega)
        exact ends_of_bareNames hless s fun name _ => ends_of_productive ht hless name
  exact hheight (v.height + 1) v (Nat.lt_succ_self _) s

/-! ## The outcome of a run -/

theorem verdict_ne_unknownType {n : Nat} {v : Value} {s : Shape} (name : String)
    (hs : s.references ⊆ table.names) :
    verdict table direction n v s ≠ .error (.unknownType name) := by
  have hb : Halt.unknownType name ≠ .unbounded := by simp
  refine verdict_ne_error (P := fun _ s => s.references ⊆ table.names) hb
    (fun v s hs q hq => references_of_mem_asked hq hs) (fun v s _ h => ?_) ?_ n v s hs
  · rw [refusal] at h
    split at h <;> cases h
  · intro v name hs hnone _
    obtain ⟨target, hg⟩ := Table.exists_get? (hs (List.mem_cons_self (a := name)))
    rw [hg] at hnone
    cases hnone

theorem verdict_ne_numeral {n : Nat} {v : Value} {s : Shape} (hv : v.isWritable = true) :
    verdict table direction n v s ≠ .error .numeral := by
  have hb : Halt.numeral ≠ .unbounded := by simp
  refine verdict_ne_error (P := fun v _ => v.isWritable = true) hb
    (fun v s hv q hq => isWritable_of_mem_asked hq hv) (fun v s hv h => ?_) ?_ n v s hv
  · rw [refusal, if_pos hv] at h
    cases h
  · intro v name _ _
    simp

/-- Every run over a productive table ends with a converted value or a rejection. -/
theorem run_ends (ht : table.Productive) {s : Shape} (hs : s.references ⊆ table.names) {v : Value}
    (hv : v.isWritable = true) :
    (∃ y, run table direction v s = .ok y) ∨
      ∃ r, run table direction v s = .error (.rejected r) := by
  obtain ⟨n, hn⟩ : Ends table direction v s := .of_productive ht v s
  have hbudget := verdict_budget hn
  rw [← forget_run] at hbudget
  cases hrun : run table direction v s with
  | ok y => exact Or.inl ⟨y, rfl⟩
  | error stop =>
      rw [hrun, forget_error] at hbudget
      cases stop with
      | rejected r => exact Or.inr ⟨r, rfl⟩
      | unknownType name => exact absurd hbudget.symm (verdict_ne_unknownType name hs)
      | unbounded => exact absurd hbudget.symm hn
      | numeral => exact absurd hbudget.symm (verdict_ne_numeral hv)

/-- A tree with one branch and a remark, whose type is recursive. -/
theorem run_ends_binaryTrees :
    let tree : Value := .map [(.text "left", .map []), (.text "remark", .int 7)]
    (∃ y, run .binaryTrees .decode tree (.ref "Tree") = .ok y) ∨
      ∃ r, run .binaryTrees .decode tree (.ref "Tree") = .error (.rejected r) :=
  run_ends Table.productive_binaryTrees (by decide) (by decide +kernel)

end Conform.Conversion
