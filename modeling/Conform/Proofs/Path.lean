import Conform.Path
import Conform.Proofs.Number.Digits
import Conform.Proofs.Text.Run

/-!
# The text of a path

Paths have different texts if their keys are plain, that is, neither empty nor with a point or an
opening bracket in them (`formatPath_inj`).

Behind other text, a step shows by a point or a bracket where it starts, and it ends where the next
one starts (`Segment.text_append_inj`), so a text is cut into steps in one way only.  At the start
of a path a key has no point.  There it is told from a position by its first character, and the
point can be put back without looking at the path (`texts_eq_behind`).
-/

namespace Conform

namespace Segment

/-- A position, or a key that shows in a text where it starts and where it ends. -/
def IsPlain : Segment → Prop
  | .key text => text ≠ "" ∧ '.' ∉ text.toList ∧ '[' ∉ text.toList
  | .index _ => True

instance : DecidablePred IsPlain
  | .key text => inferInstanceAs (Decidable (text ≠ "" ∧ '.' ∉ text.toList ∧ '[' ∉ text.toList))
  | .index _ => .isTrue trivial

/-- The text of a step behind other text. -/
def text : Segment → List Char
  | .key text => '.' :: text.toList
  | .index i => '[' :: (Digits.ofInt i ++ [']'])

/-! ## One step -/

/-- Can the character be in a plain key? -/
def isInner (c : Char) : Bool := c != '.' && c != '['

theorem isInner_of_mem {key : String} (h : IsPlain (.key key)) :
    ∀ c ∈ key.toList, isInner c = true := by
  intro c hc
  have hpoint : c ≠ '.' := fun heq => h.2.1 (heq ▸ hc)
  have hbracket : c ≠ '[' := fun heq => h.2.2 (heq ▸ hc)
  simp [isInner, hpoint, hbracket]

theorem stops_texts (p : List Segment) : Text.Stops isInner (p.flatMap text) := by
  cases p with
  | nil => exact Text.stops_nil
  | cons s p =>
      rw [List.flatMap_cons]
      cases s <;> exact Text.stops_cons.mpr rfl

theorem ne_closing_of_mem_ofInt {i : Int} {c : Char} (h : c ∈ Digits.ofInt i) :
    (c != ']') = true := by
  rcases Digits.isDigit_of_mem_ofInt h with rfl | h
  · decide
  · rw [bne_iff_ne]
    rintro rfl
    exact absurd h (by decide)

/-- Where the texts of plain steps follow, a plain step is read off the front of a text. -/
theorem text_append_inj {s s' : Segment} (hs : s.IsPlain) (hs' : s'.IsPlain)
    {p p' : List Segment} (h : s.text ++ p.flatMap text = s'.text ++ p'.flatMap text) :
    s = s' ∧ p.flatMap text = p'.flatMap text := by
  cases s with
  | key x =>
      cases s' with
      | key y =>
          have htail := List.tail_eq_of_cons_eq h
          obtain ⟨hxy, hrest⟩ := (Text.run_append_inj (isInner_of_mem hs) (stops_texts p)
            (isInner_of_mem hs') (stops_texts p')).mp htail
          exact ⟨congrArg key (String.toList_inj.mp hxy), hrest⟩
      | index j => exact absurd (List.head_eq_of_cons_eq h) (by decide)
  | index i =>
      cases s' with
      | key y => exact absurd (List.head_eq_of_cons_eq h) (by decide)
      | index j =>
          have htail := List.tail_eq_of_cons_eq h
          simp only [List.append_eq, List.append_assoc, List.singleton_append] at htail
          have hclosing (rest : List Char) : Text.Stops (· != ']') (']' :: rest) :=
            Text.stops_cons.mpr rfl
          obtain ⟨hij, hrest⟩ := (Text.run_append_inj (fun _ => ne_closing_of_mem_ofInt)
            (hclosing _) (fun _ => ne_closing_of_mem_ofInt) (hclosing _)).mp htail
          exact ⟨congrArg index (Digits.ofInt_inj.mp hij), List.tail_eq_of_cons_eq hrest⟩

theorem text_ne_nil (s : Segment) : s.text ≠ [] := by
  cases s <;> exact List.cons_ne_nil _ _

/-! ## All steps -/

theorem texts_inj : ∀ {p q : List Segment}, (∀ s ∈ p, s.IsPlain) → (∀ s ∈ q, s.IsPlain) →
    p.flatMap text = q.flatMap text → p = q
  | [], [], _, _, _ => rfl
  | [], s :: q, _, _, h => by
      rw [List.flatMap_nil, List.flatMap_cons] at h
      exact absurd (List.append_eq_nil_iff.mp h.symm).1 s.text_ne_nil
  | s :: p, [], _, _, h => by
      rw [List.flatMap_nil, List.flatMap_cons] at h
      exact absurd (List.append_eq_nil_iff.mp h).1 s.text_ne_nil
  | s :: p, s' :: q, hp, hq, h => by
      obtain ⟨hs, hrestp⟩ := List.forall_mem_cons.mp hp
      obtain ⟨hs', hrestq⟩ := List.forall_mem_cons.mp hq
      rw [List.flatMap_cons, List.flatMap_cons] at h
      obtain ⟨rfl, hrest⟩ := text_append_inj hs hs' h
      rw [texts_inj hrestp hrestq hrest]

end Segment

theorem foldl_appendSegment (p : List Segment) : ∀ {before : List Char}, before ≠ [] →
    p.foldl appendSegment before = before ++ p.flatMap Segment.text := by
  induction p with
  | nil => intro before _; simp
  | cons s p ih =>
      intro before hbefore
      have hstep : appendSegment before s = before ++ s.text := by
        cases s with
        | key text => exact if_neg hbefore
        | index i => rfl
      rw [List.foldl_cons, hstep, ih (by simp [hbefore]), List.flatMap_cons, List.append_assoc]

/-- The text of a path as it is behind other text: a key at the start gets its point. -/
def behind : List Char → List Char
  | [] => []
  | c :: rest => if c = '[' then c :: rest else '.' :: c :: rest

theorem texts_eq_behind {p : List Segment} (hp : ∀ s ∈ p, s.IsPlain) :
    p.flatMap Segment.text = behind (formatPath p).toList := by
  rw [formatPath, String.toList_ofList]
  cases p with
  | nil => rfl
  | cons s p =>
      rw [List.foldl_cons, List.flatMap_cons]
      cases s with
      | index i =>
          have hfirst : appendSegment [] (.index i) = Segment.text (.index i) := rfl
          rw [hfirst, foldl_appendSegment p (Segment.text_ne_nil _)]
          rfl
      | key text =>
          obtain ⟨hne, -, hbracket⟩ := hp _ List.mem_cons_self
          have htext : text.toList ≠ [] := mt String.toList_eq_nil_iff.mp hne
          rw [appendSegment, if_pos rfl, foldl_appendSegment p htext, Segment.text]
          cases hcs : text.toList with
          | nil => exact absurd hcs htext
          | cons c cs =>
              have hc : c ≠ '[' := fun heq => hbracket (by rw [hcs, heq]; exact List.mem_cons_self)
              rw [List.cons_append, List.cons_append, behind, if_neg hc]

/-- Paths with plain keys have the same text only if they are the same. -/
theorem formatPath_inj {p q : List Segment} (hp : ∀ s ∈ p, s.IsPlain) (hq : ∀ s ∈ q, s.IsPlain) :
    formatPath p = formatPath q ↔ p = q := by
  refine ⟨fun h => ?_, fun h => h ▸ rfl⟩
  refine Segment.texts_inj hp hq ?_
  rw [texts_eq_behind hp, texts_eq_behind hq, h]

/-- Closing brackets and digits in keys do not make them positions. -/
theorem formatPath_inj_brackets :
    let p : List Segment := [.index 0, .key "]", .key "1]", .index 12]
    let q : List Segment := [.index 0, .key "]", .index 1, .index 12]
    (∀ s ∈ p, s.IsPlain) ∧ (∀ s ∈ q, s.IsPlain) ∧ formatPath p ≠ formatPath q := by
  intro p q
  have hp : ∀ s ∈ p, s.IsPlain := by decide
  have hq : ∀ s ∈ q, s.IsPlain := by decide
  exact ⟨hp, hq, mt (formatPath_inj hp hq).mp (by decide)⟩

-- A key with a point in it reads like two keys.
example : formatPath [.key "a.b"] = formatPath [.key "a", .key "b"] := by decide

end Conform
