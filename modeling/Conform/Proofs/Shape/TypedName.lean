import Conform.Proofs.Text.Lowercase
import Conform.Shape.TypedName
import Mathlib.Data.List.Infix

/-!
# Typed names by one rule

The two passes that find the words of a name come to one rule for the place between two neighbouring
characters: a word starts there if a capital follows a small letter or a digit, or if it follows a
capital and a small letter follows it (`splitWords_splitRuns`).  `separated` is what such a rule
makes of a text, all its places looked at side by side, so nothing depends on the order of the
passes or on where a pass goes on.

A typed name has no capitals left and no dollar sign in front, so it is its own typed name
(`ofSerialized_eq_separated`).
-/

namespace Conform.TypedName

open Text

/-! ## Rules for the start of a word -/

/-- A rule for where a word starts, between two neighbouring characters, given what follows them. -/
abbrev Rule := Char → Char → List Char → Bool

/-- The text with an underscore at each place where a word starts. -/
def separated (starts : Rule) (cs : List Char) : List Char :=
  cs.tails.flatMap fun
    | a :: b :: after => if starts a b after then [a, '_'] else [a]
    | short => short

/-- The last capital of several starts a word if a small letter follows it. -/
def startsInRun : Rule := fun a b after => isCapital a && isCapital b && after.head?.any isSmall

/-- A capital starts a word behind a small letter or a digit. -/
def startsBehindSmall : Rule := fun a b _ => isSmallOrDigit a && isCapital b

/-- A word starts by either rule. -/
def startsWord : Rule := fun a b after => startsBehindSmall a b after || startsInRun a b after

section

variable {starts : Rule}

theorem separated_cons_cons (a b : Char) (after : List Char) :
    separated starts (a :: b :: after) =
      (if starts a b after then [a, '_'] else [a]) ++ separated starts (b :: after) := by
  simp only [separated, List.tails_cons, List.flatMap_cons]

theorem separated_cons_of_not {a : Char} {cs : List Char}
    (h : ∀ b after, cs = b :: after → starts a b after = false) :
    separated starts (a :: cs) = a :: separated starts cs := by
  cases cs with
  | nil => rfl
  | cons b after => simp [separated_cons_cons, h b after rfl]

theorem separated_eq_self : ∀ {cs : List Char},
    (∀ a b after, a :: b :: after <:+ cs → starts a b after = false) → separated starts cs = cs
  | [], _ => rfl
  | a :: cs, h => by
      rw [separated_cons_of_not fun b after heq => h a b after (heq ▸ List.suffix_refl _),
        separated_eq_self fun x y after hs => h x y after (hs.trans (List.suffix_cons a cs))]

theorem exists_separated_cons (starts : Rule) (a : Char) : ∀ cs : List Char,
    ∃ tail, separated starts (a :: cs) = a :: tail
  | [] => ⟨[], rfl⟩
  | b :: after => by
      rw [separated_cons_cons]
      split
      · exact ⟨_, rfl⟩
      · exact ⟨_, rfl⟩

end

/-! ## Classes of characters -/

theorem isCapital_eq_false_of_isSmall {c : Char} (h : isSmall c = true) : isCapital c = false := by
  simp only [isSmall, isCapital, Bool.and_eq_true, decide_eq_true_eq, Bool.and_eq_false_iff,
    decide_eq_false_iff_not] at h ⊢
  exact Or.inr fun hZ => absurd (Char.le_trans h.1 hZ) (by decide)

theorem isSmall_eq_false_of_isCapital {c : Char} (h : isCapital c = true) : isSmall c = false := by
  by_contra hsmall
  rw [Bool.not_eq_false] at hsmall
  simp [isCapital_eq_false_of_isSmall hsmall] at h

theorem isSmallOrDigit_eq_false_of_isCapital {c : Char} (h : isCapital c = true) :
    isSmallOrDigit c = false := by
  simp only [isSmallOrDigit, isSmall, isCapital, Bool.and_eq_true, decide_eq_true_eq,
    Bool.or_eq_false_iff, Bool.and_eq_false_iff, decide_eq_false_iff_not] at h ⊢
  exact ⟨Or.inl fun ha => absurd (Char.le_trans ha h.2) (by decide),
    Or.inr fun h9 => absurd (Char.le_trans h.1 h9) (by decide)⟩

/-! ## The pass over runs of capitals -/

theorem separated_of_not_isCapital {c : Char} (hc : isCapital c = false) (cs : List Char) :
    separated startsInRun (c :: cs) = c :: separated startsInRun cs :=
  separated_cons_of_not fun b after _ => by simp [startsInRun, hc]

/-- In a run of capitals with something else behind it, the last capital starts a word if a small
letter follows it and it is not the only one. -/
theorem separated_run {c : Char} (hc : isCapital c = false) (rest : List Char) {last : Char}
    (hlast : isCapital last = true) : ∀ before : List Char, (∀ x ∈ before, isCapital x = true) →
    separated startsInRun (before ++ last :: c :: rest) =
      before ++ (if isSmall c && !before.isEmpty then ['_'] else []) ++
        last :: c :: separated startsInRun rest
  | [], _ => by
      have hno : startsInRun last c rest = false := by simp [startsInRun, hc]
      simp [separated_cons_cons, hno, separated_of_not_isCapital hc]
  | [x], h => by
      have hx : isCapital x = true := h x List.mem_cons_self
      have ih := separated_run hc rest hlast [] (List.forall_mem_nil _)
      rw [List.singleton_append, separated_cons_cons, ← List.nil_append (last :: c :: rest), ih]
      by_cases hsmall : isSmall c = true <;> simp [startsInRun, hx, hlast, hsmall]
  | x :: y :: before, h => by
      obtain ⟨-, h⟩ := List.forall_mem_cons.mp h
      have ih := separated_run hc rest hlast (y :: before) h
      -- What follows the first two is a capital, and so no small letter.
      have hno : startsInRun x y (before ++ last :: c :: rest) = false := by
        cases before with
        | nil => simp [startsInRun, isSmall_eq_false_of_isCapital hlast]
        | cons z zs => simp [startsInRun, isSmall_eq_false_of_isCapital (h z (by simp))]
      rw [List.cons_append, List.cons_append, separated_cons_cons, hno, ← List.cons_append, ih]
      simp

/-- The pass separates a run that was read already together with what follows it. -/
theorem splitRuns_eq : ∀ {run : List Char}, (∀ x ∈ run, isCapital x = true) → ∀ cs : List Char,
    splitRuns run cs = separated startsInRun (run.reverse ++ cs)
  | run, hrun, [] => by
      rw [splitRuns, List.append_nil, separated_eq_self]
      intro a b after hs
      have hafter : after.head?.any isSmall = false := by
        cases after with
        | nil => rfl
        | cons z zs =>
            have hz : isCapital z = true :=
              hrun z (List.mem_reverse.mp (hs.subset (by simp)))
            exact isSmall_eq_false_of_isCapital hz
      simp [startsInRun, hafter]
  | run, hrun, c :: rest => by
      rw [splitRuns.eq_def]
      dsimp only
      split
      · rename_i hc
        rw [splitRuns_eq (List.forall_mem_cons.mpr ⟨hc, hrun⟩) rest]
        simp
      · rename_i hc
        rw [Bool.not_eq_true] at hc
        have ih : splitRuns [] rest = separated startsInRun rest :=
          splitRuns_eq (List.forall_mem_nil _) rest
        cases run with
        | nil =>
            simp only [List.reverse_nil, List.nil_append, separated_of_not_isCapital hc, ih]
        | cons last before =>
            obtain ⟨hlast, hbefore⟩ := List.forall_mem_cons.mp hrun
            have heq := separated_run hc rest hlast before.reverse
              fun x hx => hbefore x (List.mem_reverse.mp hx)
            simp only [List.reverse_cons, List.append_assoc, List.cons_append, List.nil_append, ih,
              heq, List.isEmpty_reverse]
            split <;> simp

/-! ## The pass over single capitals -/

theorem splitWords_eq : ∀ cs : List Char, splitWords cs = separated startsBehindSmall cs
  | [] => rfl
  | [a] => rfl
  | a :: b :: rest => by
      rw [splitWords, separated_cons_cons]
      split
      · rename_i h
        -- The pass goes on behind the capital, where no word starts.
        have hb := isSmallOrDigit_eq_false_of_isCapital (Bool.and_eq_true_iff.mp h).2
        rw [separated_cons_of_not (a := b) fun x after _ => by simp [startsBehindSmall, hb],
          ← splitWords_eq rest, startsBehindSmall, if_pos h]
        rfl
      · rename_i h
        rw [← splitWords_eq (b :: rest), startsBehindSmall, if_neg h]
        rfl

/-! ## Both passes -/

/-- An underscore that the first pass put in makes no difference to the second one. -/
theorem separated_separated : ∀ cs : List Char,
    separated startsBehindSmall (separated startsInRun cs) = separated startsWord cs
  | [] => rfl
  | [a] => rfl
  | a :: b :: after => by
      have ih := separated_separated (b :: after)
      obtain ⟨tail, htail⟩ := exists_separated_cons startsInRun b after
      rw [separated_cons_cons, separated_cons_cons, ← ih, htail, startsWord]
      by_cases h : startsInRun a b after = true
      · have ha : isCapital a = true := by
          simp only [startsInRun, Bool.and_eq_true] at h
          exact h.1.1
        have hno := isSmallOrDigit_eq_false_of_isCapital ha
        have hmark : isSmallOrDigit '_' = false := by decide
        simp [h, separated_cons_cons, startsBehindSmall, hno, hmark]
      · rw [Bool.not_eq_true] at h
        simp [h, separated_cons_cons, startsBehindSmall]

theorem splitWords_splitRuns (cs : List Char) :
    splitWords (splitRuns [] cs) = separated startsWord cs := by
  rw [splitWords_eq, splitRuns_eq (List.forall_mem_nil _), List.reverse_nil, List.nil_append,
    separated_separated]

/-! ## Typed names -/

theorem ofSerialized_eq (name : String) : ofSerialized name =
    String.ofList (lower (separated startsWord (name.toList.dropWhile (· == '$')))) := by
  rw [ofSerialized, splitWords_splitRuns]

theorem separated_of_isLow {cs : List Char} (h : ∀ c ∈ cs, IsLow c) :
    separated startsWord cs = cs := by
  refine separated_eq_self fun a b after hs => ?_
  have hb : isCapital b = false := by
    by_contra hb
    rw [Bool.not_eq_false, isCapital, Bool.and_eq_true, decide_eq_true_eq, decide_eq_true_eq] at hb
    exact not_isLow_of_isUpper hb (h b (hs.subset (by simp)))
  simp [startsWord, startsBehindSmall, startsInRun, hb]

theorem head?_separated {starts : Rule} (cs : List Char) :
    (separated starts cs).head? = cs.head? := by
  cases cs with
  | nil => rfl
  | cons a cs =>
      obtain ⟨tail, htail⟩ := exists_separated_cons starts a cs
      rw [htail]
      rfl

/-- A typed name has its words separated by one rule and is in lower case, and its own typed name is
the same again. -/
theorem ofSerialized_eq_separated (name : String) :
    ofSerialized name =
        String.ofList (lower (separated startsWord (name.toList.dropWhile (· == '$')))) ∧
      ofSerialized (ofSerialized name) = ofSerialized name := by
  refine ⟨ofSerialized_eq name, ?_⟩
  let body := separated startsWord (name.toList.dropWhile (· == '$'))
  have hhead : (lower body).head? ≠ some '$' := by
    intro h
    have hdollar := head?_lower h (by decide)
    rw [head?_separated] at hdollar
    simpa [hdollar] using List.head?_dropWhile_not (· == '$') name.toList
  have hdrop : (lower body).dropWhile (· == '$') = lower body := by
    cases hl : lower body with
    | nil => rfl
    | cons c cs =>
        rw [hl] at hhead
        exact List.dropWhile_cons_of_neg fun hc => hhead (by rw [beq_iff_eq.mp hc]; rfl)
  have hlow : ∀ c ∈ lower body, IsLow c := fun _ => isLow_of_mem_lower
  calc ofSerialized (ofSerialized name)
      = ofSerialized (String.ofList (lower body)) := by rw [ofSerialized_eq name]
    _ = String.ofList (lower (separated startsWord (lower body))) := by
        rw [ofSerialized_eq, String.toList_ofList, hdrop]
    _ = String.ofList (lower body) := by rw [separated_of_isLow hlow, lower_lower]
    _ = ofSerialized name := (ofSerialized_eq name).symm

end Conform.TypedName
