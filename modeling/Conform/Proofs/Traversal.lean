/-!
# Traversals that may fail

What is known of `xs.mapM f` when `f` may fail: it succeeds with the results of all elements, in
order, or fails as one of them fails.

`Below b x y` says that `x` is `y`, or else the failure `b` that stands for a computation that has
not ended.  A traversal is monotone in this order.
-/

namespace Conform.Traversal

variable {ε α β : Type} {f g : α → Except ε β}

/-! ## Success and failure of a traversal -/

theorem bind_eq_ok {x : Except ε α} {k : α → Except ε β} {b : β} :
    (x >>= k) = .ok b ↔ ∃ a, x = .ok a ∧ k a = .ok b := by
  cases x <;> simp [bind, Except.bind]

theorem bind_eq_error {x : Except ε α} {k : α → Except ε β} {e : ε} :
    (x >>= k) = .error e ↔ x = .error e ∨ ∃ a, x = .ok a ∧ k a = .error e := by
  cases x <;> simp [bind, Except.bind]

theorem map_eq_ok {x : Except ε α} {k : α → β} {b : β} :
    x.map k = .ok b ↔ ∃ a, x = .ok a ∧ k a = b := by
  cases x <;> simp [Except.map]

theorem map_eq_error {x : Except ε α} {k : α → β} {e : ε} :
    x.map k = .error e ↔ x = .error e := by
  cases x <;> simp [Except.map]

theorem mapM_eq_ok {b : α → β} : ∀ {xs : List α},
    (∀ x ∈ xs, f x = .ok (b x)) → xs.mapM f = .ok (xs.map b)
  | [], _ => rfl
  | x :: xs, h => by
      have ih := mapM_eq_ok fun y hy => h y (List.mem_cons_of_mem x hy)
      rw [List.mapM_cons, h x List.mem_cons_self, ih]
      rfl

theorem exists_mapM_eq_ok {xs : List α} (h : ∀ x ∈ xs, ∃ b, f x = .ok b) :
    ∃ bs, xs.mapM f = .ok bs := by
  induction xs with
  | nil => exact ⟨[], rfl⟩
  | cons x xs ih =>
      obtain ⟨⟨b, hb⟩, h⟩ := List.forall_mem_cons.mp h
      obtain ⟨bs, hbs⟩ := ih h
      exact ⟨b :: bs, by rw [List.mapM_cons, hb, hbs]; rfl⟩

theorem exists_of_mapM_eq_ok [Inhabited β] {xs : List α} {ys : List β} (h : xs.mapM f = .ok ys) :
    ∃ b : α → β, (∀ x ∈ xs, f x = .ok (b x)) ∧ ys = xs.map b := by
  let b (x : α) : β := (f x).toOption.getD default
  refine ⟨b, ?_⟩
  have hb {x : α} {y : β} (hy : f x = .ok y) : b x = y := by
    simp only [b, hy]
    rfl
  induction xs generalizing ys with
  | nil => exact ⟨by simp, (Except.ok.inj h).symm⟩
  | cons x xs ih =>
      rw [List.mapM_cons] at h
      obtain ⟨y, hy, h⟩ := bind_eq_ok.mp h
      obtain ⟨zs, hzs, h⟩ := bind_eq_ok.mp h
      obtain ⟨hall, rfl⟩ := ih hzs
      refine ⟨fun z hz => ?_, ?_⟩
      · rcases List.mem_cons.mp hz with rfl | hz
        · rw [hb hy, hy]
        · exact hall z hz
      · rw [List.map_cons, hb hy]
        exact (Except.ok.inj h).symm

theorem exists_of_mapM_eq_error {e : ε} : ∀ {xs : List α},
    xs.mapM f = .error e → ∃ x ∈ xs, f x = .error e
  | [], h => by cases h
  | x :: xs, h => by
      rw [List.mapM_cons] at h
      rcases bind_eq_error.mp h with h | ⟨y, -, h⟩
      · exact ⟨x, List.mem_cons_self, h⟩
      rcases bind_eq_error.mp h with h | ⟨ys, -, h⟩
      · obtain ⟨z, hz, h⟩ := exists_of_mapM_eq_error h
        exact ⟨z, List.mem_cons_of_mem x hz, h⟩
      · cases h

/-- A traversal fails as the first element that fails. -/
theorem mapM_eq_error {e : ε} {x : α} {after : List α} (hx : f x = .error e) :
    ∀ {before : List α}, (∀ y ∈ before, ∃ b, f y = .ok b) →
      (before ++ x :: after).mapM f = .error e
  | [], _ => by
      rw [List.nil_append, List.mapM_cons, hx]
      rfl
  | y :: before, h => by
      obtain ⟨⟨b, hb⟩, h⟩ := List.forall_mem_cons.mp h
      rw [List.cons_append, List.mapM_cons, hb, mapM_eq_error hx h]
      rfl

/-! ## Faults under other names -/

theorem mapError_bind {ε' : Type} (g : ε → ε') (x : Except ε α) (k : α → Except ε β) :
    (x >>= k).mapError g = x.mapError g >>= fun a => (k a).mapError g := by
  cases x <;> rfl

theorem mapError_foldlM {ε' : Type} (g : ε → ε') (f : β → α → Except ε β) : ∀ (b : β) (xs : List α),
    (xs.foldlM f b).mapError g = xs.foldlM (fun b x => (f b x).mapError g) b
  | _, [] => rfl
  | b, x :: xs => by
      rw [List.foldlM_cons, List.foldlM_cons, mapError_bind]
      exact congrArg _ (funext fun b => mapError_foldlM g f b xs)

/-! ## Unfinished computations -/

/-- The first computation is the second one, or it has not ended. -/
def Below (b : ε) (x y : Except ε α) : Prop := x = .error b ∨ x = y

variable {b : ε}

theorem Below.refl (x : Except ε α) : Below b x x := Or.inr rfl

theorem Below.eq {x y : Except ε α} (h : Below b x y) (hx : x ≠ .error b) : x = y :=
  h.resolve_left hx

theorem Below.trans {x y z : Except ε α} (h : Below b x y) (h' : Below b y z) : Below b x z := by
  rcases h with h | rfl
  · exact Or.inl h
  · exact h'

theorem Below.bind {x y : Except ε α} {k l : α → Except ε β} (h : Below b x y)
    (hk : ∀ a, Below b (k a) (l a)) : Below b (x >>= k) (y >>= l) := by
  rcases h with rfl | rfl
  · exact Or.inl rfl
  · cases x with
    | error e => exact Or.inr rfl
    | ok a => exact hk a

theorem Below.map {x y : Except ε α} (h : Below b x y) (k : α → β) :
    Below b (x.map k) (y.map k) := by
  rcases h with rfl | rfl
  · exact Or.inl rfl
  · exact .refl _

theorem Below.mapM : ∀ {xs : List α}, (∀ x ∈ xs, Below b (f x) (g x)) →
    Below b (xs.mapM f) (xs.mapM g)
  | [], _ => .refl _
  | x :: xs, h => by
      rw [List.mapM_cons, List.mapM_cons]
      refine (h x List.mem_cons_self).bind fun y => ?_
      exact (Below.mapM fun z hz => h z (List.mem_cons_of_mem x hz)).bind fun ys => .refl _

end Conform.Traversal
