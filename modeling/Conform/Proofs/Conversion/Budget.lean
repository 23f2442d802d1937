import Conform.Proofs.Conversion.Asked
import Mathlib.Data.Finset.Card

/-!
# The budget of a run

A run is given `Conversion.budget` many nested steps, and a conversion that ends in any number of
steps ends in these (`verdict_budget`), so a run that is not over then would never be.

The reason is a count.  If the steps of a conversion are just too few, then so are those of one that
it asks for, with one step less, and so on down.  No shape comes up twice on the way while the value
stays the same, for the two conversions would need the same number of steps; and all shapes are
nested in the first one or in the table.  Each time the value changes, it becomes less high.
-/

namespace Conform.Conversion

open Traversal

variable {table : Table} {direction : Direction}

/-- If the steps are one too few, then so are those of a conversion that is asked for. -/
theorem exists_asked_of_one_short {k : Nat} {v : Value} {s : Shape}
    (h : verdict table direction (k + 1) v s = .error .unbounded)
    (h' : verdict table direction (k + 2) v s ≠ .error .unbounded) :
    ∃ q ∈ asked table direction v s, verdict table direction k q.1 q.2 = .error .unbounded ∧
      verdict table direction (k + 1) q.1 q.2 ≠ .error .unbounded := by
  by_contra hnone
  push Not at hnone
  have hback : ∀ q ∈ asked table direction v s, Below .unbounded
      (verdict table direction (k + 1) q.1 q.2) (verdict table direction k q.1 q.2) := by
    intro q hq
    rcases verdict_below_succ k q.1 q.2 with hu | heq
    · exact Or.inl (hnone q hq hu)
    · exact Or.inr heq.symm
  rcases judge_below hback with hu | heq
  · exact h' hu
  · exact h' (heq.trans h)

open Classical in
/-- The shapes, of some, with which a value is done in so many steps. -/
noncomputable def doneIn (table : Table) (direction : Direction) (shapes : Finset Shape) (n : Nat)
    (v : Value) : Finset Shape :=
  shapes.filter fun s => verdict table direction n v s ≠ .error .unbounded

theorem mem_doneIn {shapes : Finset Shape} {n : Nat} {v : Value} {s : Shape} :
    s ∈ doneIn table direction shapes n v ↔
      s ∈ shapes ∧ verdict table direction n v s ≠ .error .unbounded := by
  simp [doneIn]

theorem card_doneIn_le (table : Table) (direction : Direction) (shapes : Finset Shape) (n : Nat)
    (v : Value) :
    (doneIn table direction shapes n v).card ≤ shapes.card :=
  Finset.card_le_card fun _ hs => (mem_doneIn.mp hs).1

/-- If the steps are one too few, then there are at most as many as there are shapes for each height
below that of the value, and shapes with which the value needs no more. -/
theorem le_card_of_one_short {shapes : Finset Shape}
    (hclosed : ∀ s ∈ shapes, ∀ v, ∀ q ∈ asked table direction v s, q.2 ∈ shapes) {k : Nat} :
    ∀ {v : Value} {s : Shape}, s ∈ shapes →
      verdict table direction k v s = .error .unbounded →
      verdict table direction (k + 1) v s ≠ .error .unbounded →
      k + 1 ≤ (doneIn table direction shapes (k + 1) v).card + v.height * shapes.card := by
  induction k with
  | zero =>
      intro v s hs _ h'
      have := Finset.card_pos.mpr ⟨s, mem_doneIn.mpr ⟨hs, h'⟩⟩
      omega
  | succ k ih =>
      intro v s hs h h'
      obtain ⟨q, hq, hu, hu'⟩ := exists_asked_of_one_short h h'
      have ih := ih (hclosed s hs v q hq) hu hu'
      rcases height_of_mem_asked hq with heq | hlt
      · -- The value stays, and with `s` it is done now and was not before.
        rw [heq] at ih
        have hsub : doneIn table direction shapes (k + 1) v ⊂
            doneIn table direction shapes (k + 1 + 1) v := by
          refine (Finset.ssubset_iff_of_subset fun u hu => ?_).mpr
            ⟨s, mem_doneIn.mpr ⟨hs, h'⟩, fun hc => (mem_doneIn.mp hc).2 h⟩
          obtain ⟨hu₁, hu₂⟩ := mem_doneIn.mp hu
          refine mem_doneIn.mpr ⟨hu₁, ?_⟩
          rw [verdict_of_le (Nat.le_succ _) hu₂]
          exact hu₂
        have := Finset.card_lt_card hsub
        omega
      · -- The value changes: all shapes may come up again, but at a smaller height.
        have hpos := Finset.card_pos.mpr ⟨s, mem_doneIn.mpr ⟨hs, h'⟩⟩
        have hle := card_doneIn_le table direction shapes (k + 1) q.1
        have hmul : (q.1.height + 1) * shapes.card ≤ v.height * shapes.card :=
          Nat.mul_le_mul_right _ hlt
        rw [Nat.add_mul, Nat.one_mul] at hmul
        omega

/-- The steps are just enough at some point between too few and enough. -/
theorem exists_one_short {v : Value} {s : Shape} {n m : Nat}
    (hn : verdict table direction n v s = .error .unbounded)
    (hm : verdict table direction m v s ≠ .error .unbounded) :
    ∃ k, n ≤ k ∧ verdict table direction k v s = .error .unbounded ∧
      verdict table direction (k + 1) v s ≠ .error .unbounded := by
  induction m with
  | zero => exact absurd rfl hm
  | succ m ih =>
      by_cases h : verdict table direction m v s = .error .unbounded
      · refine ⟨m, ?_, h, hm⟩
        by_contra hlt
        have hle : m + 1 ≤ n := by omega
        exact hm ((verdict_of_le hle hm).symm.trans hn)
      · exact ih h

/-- A conversion that ends in some number of steps ends in its budget. -/
theorem verdict_budget {n : Nat} {v : Value} {s : Shape}
    (h : verdict table direction n v s ≠ .error .unbounded) :
    verdict table direction (budget table v s) v s = verdict table direction n v s := by
  have hends : verdict table direction (budget table v s) v s ≠ .error .unbounded := by
    intro hu
    obtain ⟨k, hk, hu, hu'⟩ := exists_one_short hu h
    let shapes := (s.parts ++ table.parts).toFinset
    have hcard : shapes.card ≤ s.size + table.size := by
      have := List.toFinset_card_le (s.parts ++ table.parts)
      rwa [List.length_append, Shape.length_parts, Table.length_parts] at this
    have hclosed : ∀ p ∈ shapes, ∀ v, ∀ q ∈ asked table direction v p, q.2 ∈ shapes := by
      intro p hp v q hq
      have hp := List.mem_append.mp (List.mem_toFinset.mp hp)
      refine List.mem_toFinset.mpr (List.mem_append.mpr ?_)
      rcases shape_of_mem_asked hq with hc | ⟨name, -, hg⟩
      · exact hp.imp (Shape.mem_parts_trans (Shape.child_mem_parts hc))
          (Table.mem_parts_trans (Shape.child_mem_parts hc))
      · exact Or.inr (Table.mem_parts_of_get? hg)
    have hs : s ∈ shapes := List.mem_toFinset.mpr (List.mem_append_left _ s.self_mem_parts)
    have hle := le_card_of_one_short hclosed hs hu hu'
    have hdone := card_doneIn_le table direction shapes (k + 1) v
    have hmul : (v.height + 1) * shapes.card ≤ (v.height + 1) * (s.size + table.size) :=
      Nat.mul_le_mul_left _ hcard
    rw [budget] at hk
    rw [Nat.add_mul, Nat.one_mul] at hmul
    have hlt : (v.height + 1) * (s.size + table.size) <
        (v.height + 2) * (table.size + s.size + 1) := by
      rw [Nat.add_comm s.size]
      exact Nat.mul_lt_mul'' (Nat.lt_succ_self _) (Nat.lt_succ_self _)
    omega
  rcases Nat.le_total n (budget table v s) with hle | hle
  · exact verdict_of_le hle h
  · exact (verdict_of_le hle hends).symm

theorem run_of_verdict {n : Nat} {v y : Value} {s : Shape}
    (h : verdict table direction n v s = .ok y) : run table direction v s = .ok y := by
  refine run_eq_ok.mpr ((verdict_budget ?_).trans h)
  rw [h]
  simp

end Conform.Conversion
