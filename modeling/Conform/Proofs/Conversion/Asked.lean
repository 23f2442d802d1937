import Conform.Proofs.Conversion.Verdict
import Conform.Proofs.Table.References
import Conform.Proofs.Value.Nesting

/-!
# What a conversion asks for

`asked` lists the conversions that a conversion may ask for on its way: of the same value to the
target of a reference or a member of a union, and of the parts of a value to the parts of a shape.

A verdict depends on the verdicts of these alone, and where more is known about them, more is known
about it (`judge_below`).  A conversion halts for a reason of its own or for that of one it asks for
(`judge_eq_error`).  So more steps never change a verdict (`verdict_of_le`), and a halt that nothing
asked for has by itself never occurs (`verdict_ne_error`).
-/

namespace Conform.Conversion

open Value Traversal

variable {table : Table} {direction : Direction}

/-- The conversions that a conversion may ask for. -/
def asked (table : Table) (direction : Direction) (value : Value) : Shape → List (Value × Shape)
  | .ref name => (table.get? name).toList.map fun target => (value, target)
  | .array items => ((elements? value).getD []).map fun x => (x, items)
  | .union members => members.map fun s => (value, s)
  | .object label properties additional =>
    match value with
    | .map es =>
      let fields := FieldMap.ofObject ⟨label, properties, additional⟩ direction
      fields.map (fun e => (fieldOf es e.1, e.2.shape)) ++
        (undeclared fields es).map fun e => (e.2, additional)
    | _ => []
  | _ => []

/-! ## What is asked for is nested in the question -/

/-- A conversion asks for the same value and the target of a reference or a member of a union, or
for a part of the value, or a field that it does not have, and a part of the shape. -/
theorem mem_asked_cases {value : Value} {shape : Shape} {q : Value × Shape}
    (h : q ∈ asked table direction value shape) :
    (∃ name, shape = .ref name ∧ table.get? name = some q.2 ∧ q.1 = value) ∨
    (∃ members, shape = .union members ∧ q.2 ∈ members ∧ q.1 = value) ∨
    q.2 ∈ shape.children ∧ (q.1 ∈ value.components ∨ q.1 = .missing ∧ ∃ es, value = .map es) := by
  cases shape with
  | ref name =>
      obtain ⟨target, ht, rfl⟩ := List.mem_map.mp h
      exact Or.inl ⟨name, rfl, Option.mem_toList.mp ht, rfl⟩
  | union members =>
      obtain ⟨s, hs, rfl⟩ := List.mem_map.mp h
      exact Or.inr (Or.inl ⟨members, rfl, hs, rfl⟩)
  | array items =>
      obtain ⟨x, hx, rfl⟩ := List.mem_map.mp h
      refine Or.inr (Or.inr ⟨List.mem_cons_self, Or.inl ?_⟩)
      cases value with
      | list xs | tuple xs => exact hx
      | _ => cases hx
  | object l ps a =>
      cases value with
      | map es =>
          refine Or.inr (Or.inr ?_)
          rcases List.mem_append.mp h with h | h
          · obtain ⟨e, he, rfl⟩ := List.mem_map.mp h
            obtain ⟨p, hp, rfl⟩ := FieldMap.mem_ofObject he
            rw [FieldMap.entry_eq]
            refine ⟨List.mem_append_left _ (List.mem_map_of_mem hp), ?_⟩
            by_cases hm : fieldOf es (Shape.nameIn direction.source p) = .missing
            · exact Or.inr ⟨hm, es, rfl⟩
            · exact Or.inl (value_mem_components (mem_of_fieldOf hm))
          · obtain ⟨e, he, rfl⟩ := List.mem_map.mp h
            exact ⟨List.mem_append_right _ List.mem_cons_self,
              Or.inl (value_mem_components (List.mem_filter.mp he).1)⟩
      | _ => cases h
  | _ => cases h

/-- The shape asked for is a child of the shape, or the target of the reference that it is. -/
theorem shape_of_mem_asked {value : Value} {shape : Shape} {q : Value × Shape}
    (h : q ∈ asked table direction value shape) :
    q.2 ∈ shape.children ∨ ∃ name, shape = .ref name ∧ table.get? name = some q.2 := by
  rcases mem_asked_cases h with ⟨name, hr, hg, -⟩ | ⟨members, rfl, hm, -⟩ | ⟨hc, -⟩
  · exact Or.inr ⟨name, hr, hg⟩
  · exact Or.inl hm
  · exact Or.inl hc

theorem height_of_part {value part : Value}
    (h : part ∈ value.components ∨ part = .missing ∧ ∃ es, value = .map es) :
    part.height < value.height := by
  rcases h with h | ⟨rfl, es, rfl⟩
  · exact height_lt_of_mem_components h
  · exact Nat.lt_add_right _ Nat.one_pos

theorem height_of_mem_asked {value : Value} {shape : Shape} {q : Value × Shape}
    (h : q ∈ asked table direction value shape) : q.1 = value ∨ q.1.height < value.height := by
  rcases mem_asked_cases h with ⟨_, -, -, hv⟩ | ⟨_, -, -, hv⟩ | ⟨-, hp⟩
  · exact Or.inl hv
  · exact Or.inl hv
  · exact Or.inr (height_of_part hp)

theorem isWritable_of_mem_asked {value : Value} {shape : Shape} {q : Value × Shape}
    (h : q ∈ asked table direction value shape) (hv : value.isWritable = true) :
    q.1.isWritable = true := by
  rcases mem_asked_cases h with ⟨_, -, -, hq⟩ | ⟨_, -, -, hq⟩ | ⟨-, hq | ⟨hq, -⟩⟩
  · rw [hq, hv]
  · rw [hq, hv]
  · exact isWritable_of_mem_components hv hq
  · rw [hq]
    rfl

theorem references_of_mem_asked {value : Value} {shape : Shape} {q : Value × Shape}
    (h : q ∈ asked table direction value shape) (hs : shape.references ⊆ table.names) :
    q.2.references ⊆ table.names := by
  rcases shape_of_mem_asked h with hc | ⟨name, -, hg⟩
  · exact fun _ hn => hs (Shape.references_of_child hc hn)
  · exact Table.references_subset (Table.mem_entries_of_get? hg)

/-! ## Verdicts depend on what is asked for -/

theorem judgeFirst_below {ask ask' : Value → Shape → Verdict} {value : Value} :
    ∀ {ss : List Shape}, (∀ s ∈ ss, Below .unbounded (ask value s) (ask' value s)) →
      Below .unbounded (judgeFirst ask value ss) (judgeFirst ask' value ss)
  | [], _ => .refl _
  | s :: ss, h => by
      rw [judgeFirst, judgeFirst]
      rcases h s List.mem_cons_self with hs | hs
      · rw [hs]
        exact Or.inl rfl
      · rw [hs]
        split
        · exact judgeFirst_below fun s' hs' => h s' (List.mem_cons_of_mem s hs')
        · exact .refl _

theorem judge_below {ask ask' : Value → Shape → Verdict} {value : Value} {shape : Shape}
    (h : ∀ q ∈ asked table direction value shape,
      Below .unbounded (ask q.1 q.2) (ask' q.1 q.2)) :
    Below .unbounded (judge table direction ask value shape)
      (judge table direction ask' value shape) := by
  cases shape with
  | ref name =>
      simp only [judge]
      cases hg : table.get? name with
      | none => exact .refl _
      | some target => exact h (value, target) (by simp [asked, hg])
  | array items =>
      simp only [judge]
      cases he : elements? value with
      | none => exact .refl _
      | some xs =>
          exact (Below.mapM fun x hx => h (x, items) (by simp [asked, he, hx])).map Value.list
  | union members => exact judgeFirst_below fun s hs => h (value, s) (List.mem_map_of_mem hs)
  | object l ps a =>
      cases value with
      | map es =>
          refine (Below.mapM fun e he => ?_).bind fun own =>
            (Below.mapM fun e he => ?_).bind fun others => .refl _
          · exact h (fieldOf es e.1, e.2.shape)
              (List.mem_append_left _ (List.mem_map_of_mem he))
          · rw [judgeOther, judgeOther]
            split
            · exact h (e.2, a) (List.mem_append_right _ (List.mem_map_of_mem he))
            · exact .refl _
      | _ => exact .refl _
  | _ => exact .refl _

theorem verdict_below_succ : ∀ (n : Nat) (value : Value) (shape : Shape),
    Below .unbounded (verdict table direction n value shape)
      (verdict table direction (n + 1) value shape)
  | 0, _, _ => Or.inl rfl
  | n + 1, _, _ => judge_below fun q _ => verdict_below_succ n q.1 q.2

theorem verdict_below {n m : Nat} (h : n ≤ m) (value : Value) (shape : Shape) :
    Below .unbounded (verdict table direction n value shape)
      (verdict table direction m value shape) := by
  induction h with
  | refl => exact .refl _
  | step _ ih => exact ih.trans (verdict_below_succ _ value shape)

theorem verdict_of_le {n m : Nat} (h : n ≤ m) {value : Value} {shape : Shape}
    (hn : verdict table direction n value shape ≠ .error .unbounded) :
    verdict table direction m value shape = verdict table direction n value shape :=
  ((verdict_below h value shape).eq hn).symm

/-! ## Why a conversion halts -/

theorem isSome_keyText? (k : Value) : k.keyText?.isSome = k.isWritable := by
  cases k with
  | text => rfl
  | _ =>
      simp only [keyText?]
      split
      · rename_i h
        rw [h]
        rfl
      · rename_i h
        rw [Bool.eq_false_iff.mpr h]
        rfl

theorem isWritable_eq_false_of_keyText? {es : Entries} {e : Value × Value} (he : e ∈ es)
    (hk : ¬ e.1.keyText?.isSome = true) : (Value.map es).isWritable = false := by
  rw [isSome_keyText?] at hk
  exact Bool.eq_false_iff.mpr fun hw => hk (isWritable_of_mem_components hw (key_mem_components he))

theorem judgeFirst_eq_error {ask : Value → Shape → Verdict} {value : Value} {halt : Halt} :
    ∀ {ss : List Shape}, judgeFirst ask value ss = .error halt →
      halt = refusal value ∨ ∃ s ∈ ss, ask value s = .error halt
  | [], h => Or.inl (Except.error.inj h).symm
  | s :: ss, h => by
      rw [judgeFirst] at h
      split at h
      · rcases judgeFirst_eq_error h with h | ⟨s', hs', h⟩
        · exact Or.inl h
        · exact Or.inr ⟨s', List.mem_cons_of_mem s hs', h⟩
      · exact Or.inr ⟨s, List.mem_cons_self, h⟩

/-- A conversion halts because the value is refused, because a name is not in the table, or as a
conversion that it asks for. -/
theorem judge_eq_error {ask : Value → Shape → Verdict} {value : Value} {shape : Shape} {halt : Halt}
    (h : judge table direction ask value shape = .error halt) :
    halt = refusal value ∨
      (∃ name, shape = .ref name ∧ table.get? name = none ∧ halt = .unknownType name) ∨
      ∃ q ∈ asked table direction value shape, ask q.1 q.2 = .error halt := by
  cases shape with
  | ref name =>
      simp only [judge] at h
      cases hg : table.get? name with
      | none =>
          rw [hg] at h
          exact Or.inr (Or.inl ⟨name, rfl, hg, (Except.error.inj h).symm⟩)
      | some target =>
          rw [hg] at h
          exact Or.inr (Or.inr ⟨(value, target), by simp [asked, hg], h⟩)
  | array items =>
      simp only [judge] at h
      cases he : elements? value with
      | none =>
          rw [he] at h
          exact Or.inl (Except.error.inj h).symm
      | some xs =>
          rw [he] at h
          obtain ⟨x, hx, h⟩ := exists_of_mapM_eq_error (map_eq_error.mp h)
          exact Or.inr (Or.inr ⟨(x, items), by simp [asked, he, hx], h⟩)
  | union members =>
      rcases judgeFirst_eq_error h with h | ⟨s, hs, h⟩
      · exact Or.inl h
      · exact Or.inr (Or.inr ⟨(value, s), List.mem_map_of_mem hs, h⟩)
  | object l ps a =>
      cases value with
      | map es =>
          rcases bind_eq_error.mp h with h | ⟨own, -, h⟩
          · obtain ⟨e, he, h⟩ := exists_of_mapM_eq_error h
            exact Or.inr (Or.inr ⟨_, List.mem_append_left _ (List.mem_map_of_mem he), h⟩)
          rcases bind_eq_error.mp h with h | ⟨others, -, h⟩
          · obtain ⟨e, he, h⟩ := exists_of_mapM_eq_error h
            rw [judgeOther] at h
            split at h
            · exact Or.inr (Or.inr ⟨_, List.mem_append_right _ (List.mem_map_of_mem he), h⟩)
            · rename_i hk
              left
              rw [refusal, isWritable_eq_false_of_keyText? (List.mem_filter.mp he).1 hk]
              exact (Except.error.inj h).symm
          · cases h
      | _ => exact Or.inl (Except.error.inj h).symm
  | _ =>
      simp only [judge] at h
      exact Or.inl (ofLeaf_eq_error h)

/-- A halt does not occur if what is asked for keeps a property under which neither a refusal nor a
missing name gives this halt. -/
theorem verdict_ne_error {P : Value → Shape → Prop} {halt : Halt} (hb : halt ≠ .unbounded)
    (hasked : ∀ v s, P v s → ∀ q ∈ asked table direction v s, P q.1 q.2)
    (hrefusal : ∀ v s, P v s → refusal v ≠ halt)
    (hname : ∀ v name, P v (.ref name) → table.get? name = none → .unknownType name ≠ halt) :
    ∀ (n : Nat) (v : Value) (s : Shape), P v s → verdict table direction n v s ≠ .error halt
  | 0, _, _, _, h => hb (Except.error.inj h).symm
  | n + 1, v, s, hp, h => by
      rcases judge_eq_error h with h | ⟨name, rfl, hg, h⟩ | ⟨q, hq, h⟩
      · exact hrefusal v s hp h.symm
      · exact hname v name hp hg h.symm
      · exact verdict_ne_error hb hasked hrefusal hname n q.1 q.2 (hasked v s hp q hq) h

end Conform.Conversion
