import Conform.Proofs.Conversion.Termination

/-!
# Final verdicts

The verdict of a run is the one that any larger number of steps gives, too, so it does not speak of
steps any more: it follows from the final verdicts about what the conversion asks for
(`final_eq_judge`).  A conversion in some number of steps is a premise that one does induction on;
what it leads to is stated with final verdicts.

A verdict says which way a run goes (`run_eq_ok_iff`, `exists_run_eq_rejected_iff`), and in a
productive table a value with writable integers is accepted or rejected (`final_cases`).
-/

namespace Conform.Conversion

open Traversal

variable {table : Table} {d : Direction} {v : Value} {s : Shape}

/-- The verdict about a value and a shape in as many steps as a run has. -/
def final (table : Table) (d : Direction) (v : Value) (s : Shape) : Verdict :=
  verdict table d (budget table v s) v s

def Accepts (table : Table) (d : Direction) (v : Value) (s : Shape) : Prop :=
  ∃ y, run table d v s = .ok y

/-! ## Final verdicts and runs -/

theorem run_eq_ok_iff {y : Value} :
    run table d v s = .ok y ↔ final table d v s = .ok y :=
  run_eq_ok

theorem accepts_iff : Accepts table d v s ↔ ∃ y, final table d v s = .ok y :=
  exists_congr fun _ => run_eq_ok_iff

theorem forget_eq_rejected_iff {α : Type} {x : Except Stop α} :
    forget x = .error .rejected ↔ ∃ r, x = .error (.rejected r) := by
  cases x with
  | ok a => simp
  | error stop => cases stop <;> simp [Stop.halt]

/-- Only a rejection has words that are left out. -/
theorem forget_eq_error_iff {α : Type} {x : Except Stop α} {stop : Stop}
    (hstop : stop.halt ≠ .rejected) : forget x = .error stop.halt ↔ x = .error stop := by
  cases x with
  | ok a => simp
  | error stop' => cases stop' <;> cases stop <;> simp_all [Stop.halt]

theorem exists_run_eq_rejected_iff :
    (∃ r, run table d v s = .error (.rejected r)) ↔
      final table d v s = .error .rejected := by
  rw [final, ← forget_run]
  exact forget_eq_rejected_iff.symm

theorem run_eq_error_iff {stop : Stop} (hstop : stop.halt ≠ .rejected) :
    run table d v s = .error stop ↔ final table d v s = .error stop.halt := by
  rw [final, ← forget_run]
  exact (forget_eq_error_iff hstop).symm

theorem run_eq_numeral_iff :
    run table d v s = .error .numeral ↔ final table d v s = .error .numeral :=
  run_eq_error_iff (by simp [Stop.halt])

theorem run_eq_unbounded_iff :
    run table d v s = .error .unbounded ↔ final table d v s = .error .unbounded :=
  run_eq_error_iff (by simp [Stop.halt])

/-! ## Steps do not matter -/

theorem final_of_verdict {n : Nat} {x : Verdict} (hx : x ≠ .error .unbounded)
    (h : verdict table d n v s = x) : final table d v s = x := by
  rw [← h] at hx ⊢
  exact verdict_budget hx

theorem final_of_verdict_ok {n : Nat} {y : Value} (h : verdict table d n v s = .ok y) :
    final table d v s = .ok y :=
  final_of_verdict (by simp) h

/-- With a run's steps or more, the verdict is the final one, also if it is that there is no end. -/
theorem verdict_eq_final {n : Nat} (h : budget table v s ≤ n) :
    verdict table d n v s = final table d v s := by
  by_cases hn : verdict table d n v s = .error .unbounded
  · rcases verdict_below h v s with hu | heq
    · rw [hn, final, hu]
    · exact heq.symm
  · exact (verdict_budget hn).symm

/-- Finitely many verdicts become final in one number of steps. -/
theorem exists_steps_eq_final (table : Table) (d : Direction) :
    ∀ qs : List (Value × Shape), ∃ n, ∀ m, n ≤ m → ∀ q ∈ qs,
      verdict table d m q.1 q.2 = final table d q.1 q.2
  | [] => ⟨0, by simp⟩
  | q :: qs => by
      obtain ⟨n, hn⟩ := exists_steps_eq_final table d qs
      refine ⟨max n (budget table q.1 q.2), fun m hm p hp => ?_⟩
      rcases List.mem_cons.mp hp with rfl | hp
      · exact verdict_eq_final (by omega)
      · exact hn m (by omega) p hp

theorem judge_congr {ask ask' : Value → Shape → Verdict}
    (h : ∀ q ∈ asked table d v s, ask q.1 q.2 = ask' q.1 q.2) :
    judge table d ask v s = judge table d ask' v s := by
  have hto : Below .unbounded (judge table d ask v s) (judge table d ask' v s) :=
    judge_below fun q hq => Or.inr (h q hq)
  have hfrom : Below .unbounded (judge table d ask' v s) (judge table d ask v s) :=
    judge_below fun q hq => Or.inr (h q hq).symm
  rcases hto with hu | heq
  · rcases hfrom with hu' | heq
    · rw [hu, hu']
    · exact heq.symm
  · exact heq

/-- A final verdict follows from the final verdicts about what is asked for. -/
theorem final_eq_judge (table : Table) (d : Direction) (v : Value) (s : Shape) :
    final table d v s = judge table d (final table d) v s := by
  obtain ⟨n, hn⟩ := exists_steps_eq_final table d (asked table d v s)
  let m := max n (budget table v s)
  calc final table d v s
      = verdict table d (m + 1) v s := (verdict_eq_final (by omega)).symm
    _ = judge table d (verdict table d m) v s := rfl
    _ = judge table d (final table d) v s :=
        judge_congr (hn m (by omega))

/-! ## Which final verdicts there are -/

theorem final_ne_numeral (hv : v.isWritable = true) :
    final table d v s ≠ .error .numeral :=
  verdict_ne_numeral hv

theorem final_ne_unbounded (ht : table.Productive) : final table d v s ≠ .error .unbounded := by
  obtain ⟨n, hn⟩ : Ends table d v s := .of_productive ht v s
  rw [final, verdict_budget hn]
  exact hn

/-- A shape without parts does not put a value into words that has an overlong integer. -/
theorem final_leaf_eq_numeral (hs : isLeaf s = true) (h : leaf? d v s = none)
    (hv : ¬ v.isWritable = true) : final table d v s = .error .numeral := by
  rw [final_eq_judge, judge_leaf hs, h, ofLeaf, refusal, if_neg hv]

/-- Over a productive table, a value is accepted or rejected, or it has an integer that is too long
to be put into words. -/
theorem final_cases (ht : table.Productive) (hs : s.references ⊆ table.names) :
    (∃ y, final table d v s = .ok y) ∨ final table d v s = .error .rejected ∨
      final table d v s = .error .numeral := by
  cases hf : final table d v s with
  | ok y => exact Or.inl ⟨y, rfl⟩
  | error halt =>
      cases halt with
      | rejected => exact Or.inr (Or.inl rfl)
      | numeral => exact Or.inr (Or.inr rfl)
      | unbounded => exact absurd hf (final_ne_unbounded ht)
      | unknownType name => exact absurd hf (verdict_ne_unknownType name hs)

theorem final_cases_of_isWritable (ht : table.Productive) (hs : s.references ⊆ table.names)
    (hv : v.isWritable = true) :
    (∃ y, final table d v s = .ok y) ∨ final table d v s = .error .rejected := by
  rcases final_cases (d := d) (v := v) ht hs with hy | hr | hn
  · exact Or.inl hy
  · exact Or.inr hr
  · exact absurd hn (final_ne_numeral hv)

theorem not_accepts_iff (ht : table.Productive) (hs : s.references ⊆ table.names)
    (hv : v.isWritable = true) : ¬ Accepts table d v s ↔ final table d v s = .error .rejected := by
  rw [accepts_iff]
  constructor
  · intro h
    exact (final_cases_of_isWritable ht hs hv).resolve_left h
  · rintro h ⟨y, hy⟩
    rw [h] at hy
    cases hy

end Conform.Conversion
