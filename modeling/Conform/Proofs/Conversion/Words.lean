import Conform.Proofs.Conversion.Conformance
import Conform.Proofs.Conversion.RoundTrip
import Conform.Proofs.Conversion.Final

/-!
# Values in words

A rejection puts the rejected value into words, and the path to a value puts keys into words.  There
are words for a value exactly if no integer in it is overlong; else the conversion stops there, also
within a member of a union, for only a rejection leads to the next member.

So a union may give nothing although one of its members accepts and no member before that one
describes the value (`rejection_needs_words`).  It gives what the member gives exactly if all
members before it put their rejections into words, as they do if no integer is overlong
(`union_reaches_member`).
-/

namespace Conform.Conversion

open Value

variable {table : Table} {d : Direction} {v : Value}

/-! ## Which values have words -/

theorem exists_display?_iff : (∃ text, v.display? = some text) ↔ v.Everywhere IsShort := by
  rw [← isWritable_iff]
  by_cases h : v.isWritable = true
  · simp [display?, h]
  · simp [display?, h]

theorem exists_reject_iff {place : Place} {expected : String} :
    (∃ r, reject place expected v = .rejected r) ↔ v.Everywhere IsShort := by
  rw [← isWritable_iff]
  by_cases h : v.isWritable = true
  · simp [reject, h]
  · simp [reject, h]

theorem exists_atKey?_iff {place : Place} {parent : String} :
    (∃ inner, place.atKey? v parent = some inner) ↔ v.Everywhere IsShort := by
  rw [← isWritable_iff, ← Option.isSome_iff_exists, Place.atKey?, Option.isSome_map,
    isSome_keyText?]

/-! ## Members before the one that accepts -/

/-- A union comes to a member that accepts, or stops at one before it that does not just reject. -/
theorem judgeFirst_append {ask : Value → Shape → Verdict} {y : Value} {s : Shape}
    (hs : ask v s = .ok y) (after before : List Shape) :
    (∀ q ∈ before, ask v q = .error .rejected) ∧
        judgeFirst ask v (before ++ s :: after) = .ok y ∨
      ∃ q ∈ before, ask v q ≠ .error .rejected ∧
        judgeFirst ask v (before ++ s :: after) = ask v q := by
  induction before with
  | nil => simp [judgeFirst, hs]
  | cons q before ih =>
      rw [List.cons_append, judgeFirst]
      by_cases hq : ask v q = .error .rejected
      · rw [hq]
        rcases ih with ⟨hall, h⟩ | ⟨q', hq', hne, h⟩
        · exact Or.inl ⟨List.forall_mem_cons.mpr ⟨hq, hall⟩, h⟩
        · exact Or.inr ⟨q', List.mem_cons_of_mem q hq', hne, h⟩
      · refine Or.inr ⟨q, List.mem_cons_self, hq, ?_⟩
        split
        · exact absurd ‹_› hq
        · rfl

/-- A value has words exactly if no integer in it is overlong.  A union with a member that accepts,
before which no member describes the value, gives what that member gives exactly if all members
before it reject the value; it does so unless it stops for want of words. -/
theorem union_reaches_member (htable : table.Everywhere Shape.NamesDistinct) (v : Value) :
    ((∃ text, v.display? = some text) ↔ v.Everywhere IsShort) ∧
    (∀ place expected, (∃ r, reject place expected v = .rejected r) ↔ v.Everywhere IsShort) ∧
    (∀ (place : Place) parent, (∃ inner, place.atKey? v parent = some inner) ↔
      v.Everywhere IsShort) ∧
    ∀ before s after y, (∀ q ∈ before, q.Everywhere Shape.NamesDistinct) →
      (∀ q ∈ before, ¬ Conforms table d v q) → run table d v s = .ok y →
        (run table d v (.union (before ++ s :: after)) = .ok y ↔
          ∀ q ∈ before, ∃ r, run table d v q = .error (.rejected r)) ∧
        (table.Productive → (∀ q ∈ before, q.references ⊆ table.names) →
          run table d v (.union (before ++ s :: after)) = .ok y ∨
            run table d v (.union (before ++ s :: after)) = .error .numeral ∧
              ¬ v.Everywhere IsShort) := by
  refine ⟨exists_display?_iff, fun _ _ => exists_reject_iff, fun _ _ => exists_atKey?_iff, ?_⟩
  intro before s after y hnames hbefore hs
  have hrefuses : ∀ q ∈ before, ∀ z, final table d v q ≠ .ok z := by
    intro q hq z hz
    exact hbefore q hq (conforms_of_run htable (hnames q hq) (run_eq_ok_iff.mpr hz))
  have hunion : final table d v (.union (before ++ s :: after)) =
      judgeFirst (final table d) v (before ++ s :: after) := final_eq_judge ..
  simp only [exists_run_eq_rejected_iff]
  rw [run_eq_ok_iff, run_eq_numeral_iff, hunion]
  rcases judgeFirst_append (run_eq_ok_iff.mp hs) after before with ⟨hall, h⟩ | ⟨q, hq, hne, h⟩
  · exact ⟨⟨fun _ => hall, fun _ => h⟩, fun _ _ => Or.inl h⟩
  · rw [h]
    refine ⟨⟨fun hy => absurd hy (hrefuses q hq y), fun hall => absurd (hall q hq) hne⟩, ?_⟩
    intro ht hrefs
    rcases final_cases (d := d) (v := v) ht (hrefs q hq) with ⟨z, hz⟩ | hr | hn
    · exact absurd hz (hrefuses q hq z)
    · exact absurd hr hne
    · refine Or.inr ⟨hn, fun hshort => ?_⟩
      exact final_ne_numeral (isWritable_iff.mpr hshort) hn

theorem namesDistinct_of_isReversible {s : Shape} (h : s.IsReversible) : s.NamesDistinct := by
  cases s with
  | object => exact h.1
  | _ => trivial

/-- A number is no tree, and so it is left to the next member. -/
theorem union_reaches_member_int :
    ¬ Conforms .binaryTrees .decode (.int 7) (.ref "Tree") ∧
      run .binaryTrees .decode (.int 7) (.primitive .number) = .ok (.int 7) ∧
      run .binaryTrees .decode (.int 7) (.union [.ref "Tree", .primitive .number]) =
        .ok (.int 7) := by
  have htable : Table.binaryTrees.Everywhere Shape.NamesDistinct :=
    fun e he p hp => namesDistinct_of_isReversible (reversible_binaryTrees e he p hp)
  have hnames : ∀ q ∈ [Shape.ref "Tree"], q.Everywhere Shape.NamesDistinct := by
    simp [Shape.Everywhere, Shape.parts, Shape.NamesDistinct]
  have hconforms : ¬ Conforms .binaryTrees .decode (.int 7) (.ref "Tree") := by
    intro h
    cases h with
    | leaf h => cases h
    | ref hg h =>
        obtain rfl := Option.some.inj hg
        cases h with
        | leaf h => cases h
  have hrun : run .binaryTrees .decode (.int 7) (.primitive .number) = .ok (.int 7) := by
    with_unfolding_all rfl
  have hshort : (Value.int 7).Everywhere IsShort := isWritable_iff.mp (by decide +kernel)
  refine ⟨hconforms, hrun, ?_⟩
  obtain ⟨-, -, -, hunion⟩ := union_reaches_member (d := .decode) htable (.int 7)
  have hreach := hunion [.ref "Tree"] (.primitive .number) [] (.int 7) hnames
    (by simpa using hconforms) hrun
  rcases hreach.2 Table.productive_binaryTrees (by decide) with h | ⟨-, h⟩
  · exact h
  · exact absurd hshort h

/-- An overlong integer is no text, but that cannot be put into words, and so the union does not
come to the member that accepts it. -/
theorem rejection_needs_words :
    let long : Value := .int (10 ^ 4300)
    ¬ Conforms .empty .decode long (.primitive .string) ∧
      run .empty .decode long (.primitive .number) = .ok long ∧ long.display? = none ∧
      reject .top "string" long = .numeral ∧
      run .empty .decode long (.union [.primitive .string, .primitive .number]) =
        .error .numeral := by
  intro long
  have hlong : ¬ long.isWritable = true := by decide +kernel
  have hstring : final .empty .decode long (.primitive .string) = .error .numeral :=
    final_leaf_eq_numeral rfl rfl hlong
  refine ⟨fun h => ?_, by with_unfolding_all rfl, if_neg hlong, if_neg hlong, ?_⟩
  · obtain ⟨s, hs⟩ := (conforms_iff_fits rfl).mp h
    injection hs
  · rw [run_eq_numeral_iff, final_eq_judge]
    show judgeFirst (final .empty .decode) long [.primitive .string, .primitive .number] = _
    rw [judgeFirst, hstring]

end Conform.Conversion
