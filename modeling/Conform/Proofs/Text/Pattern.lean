import Conform.Text.Pattern

/-!
# What a pattern fits

`Pattern.Matches` says which texts a pattern describes, part by part and without taking characters
one at a time.  What a pattern asks for after a character describes exactly the texts that go on
from it (`matches_after`), so `fits` decides the description (`fits_iff_matches`).

A description is taken apart constructor by constructor; `matches_star_one` and `matches_plus_one`
do it for a run of characters of one class.  A text without the characters that a pattern asks for
does not fit it (`Misses.fits_eq_false`).
-/

namespace Conform.Pattern

/-- The texts that a pattern describes. -/
inductive Matches : Pattern → List Char → Prop where
  | empty : Matches .empty []
  | one {accepts : Char → Bool} {c : Char} (h : accepts c = true) : Matches (.one accepts) [c]
  | seq {p q : Pattern} {xs ys : List Char} (hx : Matches p xs) (hy : Matches q ys) :
      Matches (.seq p q) (xs ++ ys)
  | left {p : Pattern} (q : Pattern) {xs : List Char} (h : Matches p xs) : Matches (.alt p q) xs
  | right (p : Pattern) {q : Pattern} {xs : List Char} (h : Matches q xs) : Matches (.alt p q) xs
  | done (p : Pattern) : Matches (.star p) []
  | again {p : Pattern} {xs ys : List Char} (hx : Matches p xs) (hy : Matches (.star p) ys) :
      Matches (.star p) (xs ++ ys)

variable {p q : Pattern} {cs : List Char} {c : Char}

/-! ## Descriptions, constructor by constructor -/

theorem not_matches_fail : ¬ Matches .fail cs := nofun

theorem matches_empty : Matches .empty cs ↔ cs = [] :=
  ⟨fun | .empty => rfl, fun h => h ▸ .empty⟩

theorem matches_one {accepts : Char → Bool} :
    Matches (.one accepts) cs ↔ ∃ c, cs = [c] ∧ accepts c = true :=
  ⟨fun | .one h => ⟨_, rfl, h⟩, fun ⟨_, h, hc⟩ => h ▸ .one hc⟩

theorem matches_seq :
    Matches (.seq p q) cs ↔ ∃ xs ys, cs = xs ++ ys ∧ Matches p xs ∧ Matches q ys :=
  ⟨fun | .seq hx hy => ⟨_, _, rfl, hx, hy⟩, fun ⟨_, _, h, hx, hy⟩ => h ▸ .seq hx hy⟩

theorem matches_alt : Matches (.alt p q) cs ↔ Matches p cs ∨ Matches q cs :=
  ⟨fun | .left _ h => .inl h | .right _ h => .inr h, fun h => h.elim (.left q) (.right p)⟩

/-- A repeated pattern describes nothing, or one round with a first character and the others. -/
theorem matches_star_cons :
    Matches (.star p) (c :: cs) ↔
      ∃ xs ys, cs = xs ++ ys ∧ Matches p (c :: xs) ∧ Matches (.star p) ys := by
  constructor
  · intro h
    generalize hr : Pattern.star p = r at h
    generalize hw : c :: cs = w at h
    induction h with
    | done => exact nomatch hw
    | @again p' xs ys hx hy _ ih =>
        obtain rfl : p = p' := by injection hr
        cases xs with
        -- A round that takes nothing is left out.
        | nil => exact ih rfl hw
        | cons x xs =>
            obtain ⟨rfl, rfl⟩ : c = x ∧ cs = xs ++ ys := by simpa using hw
            exact ⟨xs, ys, rfl, hx, hy⟩
    | _ => exact nomatch hr
  · rintro ⟨xs, ys, rfl, hx, hy⟩
    exact .again hx hy

/-! ## Fitting -/

theorem nullable_iff_matches : p.nullable = true ↔ Matches p [] := by
  induction p with
  | fail => exact ⟨nofun, nofun⟩
  | empty => exact ⟨fun _ => .empty, fun _ => rfl⟩
  | one accepts => simp [nullable, matches_one]
  | seq p q ihp ihq =>
      rw [nullable, Bool.and_eq_true, ihp, ihq, matches_seq]
      constructor
      · rintro ⟨hp, hq⟩
        exact ⟨[], [], rfl, hp, hq⟩
      · rintro ⟨xs, ys, h, hp, hq⟩
        obtain ⟨rfl, rfl⟩ := List.append_eq_nil_iff.mp h.symm
        exact ⟨hp, hq⟩
  | alt p q ihp ihq => rw [nullable, Bool.or_eq_true, ihp, ihq, matches_alt]
  | star p => exact ⟨fun _ => .done p, fun _ => rfl⟩

theorem matches_cat : Matches (cat p q) cs ↔ Matches (.seq p q) cs := by
  cases p with
  | fail => simp [cat, matches_seq, not_matches_fail]
  | empty =>
      rw [cat, matches_seq]
      exact ⟨fun h => ⟨[], cs, rfl, .empty, h⟩, fun ⟨_, _, h, .empty, hq⟩ => h ▸ hq⟩
  | _ => rfl

theorem matches_either : Matches (either p q) cs ↔ Matches (.alt p q) cs := by
  cases p <;> cases q <;> simp [either, matches_alt, not_matches_fail]

theorem matches_after : Matches (p.after c) cs ↔ Matches p (c :: cs) := by
  induction p generalizing cs with
  | fail => exact ⟨nofun, nofun⟩
  | empty => exact ⟨nofun, nofun⟩
  | one accepts =>
      rw [after, matches_one]
      constructor
      · intro h
        split at h
        · rename_i hc
          exact ⟨c, by rw [matches_empty.mp h], hc⟩
        · exact nomatch h
      · rintro ⟨d, hd, haccepts⟩
        obtain ⟨rfl, rfl⟩ : c = d ∧ cs = [] := by simpa using hd
        rw [if_pos haccepts]
        exact .empty
  | seq p q ihp ihq =>
      have hfirst : Matches (cat (p.after c) q) cs ↔
          ∃ xs ys, cs = xs ++ ys ∧ Matches p (c :: xs) ∧ Matches q ys := by
        simp only [matches_cat, matches_seq, ihp]
      have hcons : Matches (.seq p q) (c :: cs) ↔
          (∃ xs ys, cs = xs ++ ys ∧ Matches p (c :: xs) ∧ Matches q ys) ∨
            Matches p [] ∧ Matches q (c :: cs) := by
        rw [matches_seq]
        constructor
        · rintro ⟨xs, ys, h, hp, hq⟩
          cases xs with
          | nil => exact .inr ⟨hp, h ▸ hq⟩
          | cons x xs =>
              obtain ⟨rfl, rfl⟩ : c = x ∧ cs = xs ++ ys := by simpa using h
              exact .inl ⟨xs, ys, rfl, hp, hq⟩
        · rintro (⟨xs, ys, rfl, hp, hq⟩ | ⟨hp, hq⟩)
          · exact ⟨c :: xs, ys, rfl, hp, hq⟩
          · exact ⟨[], c :: cs, rfl, hp, hq⟩
      rw [after, hcons]
      split
      · rename_i hnull
        rw [matches_either, matches_alt, hfirst, ihq, and_iff_right (nullable_iff_matches.mp hnull)]
      · rename_i hnull
        rw [hfirst, or_iff_left fun h => hnull (nullable_iff_matches.mpr h.1)]
  | alt p q ihp ihq => rw [after, matches_either, matches_alt, matches_alt, ihp, ihq]
  | star p ih => simp only [after, matches_cat, matches_seq, matches_star_cons, ih]

theorem fits_iff_matches : p.fits cs = true ↔ Matches p cs := by
  induction cs generalizing p with
  | nil => exact nullable_iff_matches
  | cons c cs ih => exact ih.trans matches_after

/-! ## Compound patterns -/

theorem matches_opt : Matches (opt p) cs ↔ Matches p cs ∨ cs = [] := by
  rw [opt, matches_alt, matches_empty]

theorem matches_all_cons {ps : List Pattern} :
    Matches (all (p :: ps)) cs ↔ ∃ xs ys, cs = xs ++ ys ∧ Matches p xs ∧ Matches (all ps) ys :=
  matches_seq

theorem matches_star_one {accepts : Char → Bool} :
    Matches (.star (.one accepts)) cs ↔ ∀ c ∈ cs, accepts c = true := by
  induction cs with
  | nil => exact ⟨fun _ => List.forall_mem_nil _, fun _ => .done _⟩
  | cons c cs ih =>
      rw [List.forall_mem_cons, ← ih, matches_star_cons]
      constructor
      · rintro ⟨xs, ys, rfl, hx, hy⟩
        obtain ⟨d, hd, haccepts⟩ := matches_one.mp hx
        obtain ⟨rfl, rfl⟩ : c = d ∧ xs = [] := by simpa using hd
        exact ⟨haccepts, hy⟩
      · rintro ⟨hc, hcs⟩
        exact ⟨[], cs, rfl, .one hc, hcs⟩

theorem matches_plus_one {accepts : Char → Bool} :
    Matches (plus (.one accepts)) cs ↔ cs ≠ [] ∧ ∀ c ∈ cs, accepts c = true := by
  rw [plus, matches_seq]
  constructor
  · rintro ⟨xs, ys, rfl, hx, hy⟩
    obtain ⟨c, rfl, hc⟩ := matches_one.mp hx
    exact ⟨List.cons_ne_nil _ _, List.forall_mem_cons.mpr ⟨hc, matches_star_one.mp hy⟩⟩
  · rintro ⟨hne, h⟩
    obtain ⟨c, cs, rfl⟩ := List.exists_cons_of_ne_nil hne
    obtain ⟨hc, hcs⟩ := List.forall_mem_cons.mp h
    exact ⟨[c], cs, rfl, .one hc, matches_star_one.mpr hcs⟩

/-! ## Patterns that ask for something else -/

/-- Each text that the pattern describes has a character without the property. -/
def Misses (D : Char → Prop) : Pattern → Prop
  | .fail => True
  | .empty => False
  | .one accepts => ∀ c, accepts c = true → ¬ D c
  | .seq p q => p.Misses D ∨ q.Misses D
  | .alt p q => p.Misses D ∧ q.Misses D
  | .star _ => False

theorem Misses.exists_not {D : Char → Prop} (hmatch : Matches p cs) :
    p.Misses D → ∃ c ∈ cs, ¬ D c := by
  induction hmatch with
  | empty | done => exact nofun
  | one hc => exact fun h => ⟨_, List.mem_singleton_self _, h _ hc⟩
  | seq _ _ ihp ihq =>
      rintro (h | h)
      · obtain ⟨c, hc, hD⟩ := ihp h
        exact ⟨c, List.mem_append_left _ hc, hD⟩
      · obtain ⟨c, hc, hD⟩ := ihq h
        exact ⟨c, List.mem_append_right _ hc, hD⟩
  | left _ _ ih => exact fun h => ih h.1
  | right _ _ ih => exact fun h => ih h.2
  | again => exact nofun

theorem Misses.fits_eq_false {D : Char → Prop} (h : p.Misses D) (hcs : ∀ c ∈ cs, D c) :
    p.fits cs = false := by
  rw [Bool.eq_false_iff]
  intro hfits
  obtain ⟨c, hc, hD⟩ := h.exists_not (fits_iff_matches.mp hfits)
  exact hD (hcs c hc)

end Conform.Pattern
