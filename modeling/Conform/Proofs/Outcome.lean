/-!
# How computations end

A computation that may fail `EndsIn` in a result that satisfies one condition, or in a fault that
satisfies another.  One that has a state besides, and keeps an invariant of it, `Runs`.

Both are passed on from the parts of a computation to the whole (`bind`), so a function gets one
lemma that says how it ends, and its callers never look inside.
-/

namespace Conform

variable {ε σ α β : Type}

/-- The result satisfies the one condition, or the fault the other. -/
def EndsIn (r : Except ε α) (P : α → Prop) (Q : ε → Prop) : Prop :=
  match r with
  | .ok a => P a
  | .error fault => Q fault

instance {P : α → Prop} {Q : ε → Prop} [DecidablePred P] [DecidablePred Q] :
    (r : Except ε α) → Decidable (EndsIn r P Q)
  | .ok a => inferInstanceAs (Decidable (P a))
  | .error fault => inferInstanceAs (Decidable (Q fault))

namespace EndsIn

variable {P : α → Prop} {R : β → Prop} {Q : ε → Prop}

theorem any (r : Except ε α) : EndsIn r (fun _ => True) fun _ => True := by
  cases r <;> exact trivial

theorem bind {r : Except ε α} {f : α → Except ε β} (h : EndsIn r P Q)
    (hf : ∀ a, P a → EndsIn (f a) R Q) : EndsIn (r >>= f) R Q := by
  cases r with
  | ok a => exact hf a h
  | error fault => exact h

theorem ite {c : Prop} [Decidable c] {r r' : Except ε α} (h : EndsIn r P Q) (h' : EndsIn r' P Q) :
    EndsIn (if c then r else r') P Q := by
  split
  · exact h
  · exact h'

theorem imp {P' : α → Prop} {r : Except ε α} (h : EndsIn r P Q) (hP : ∀ a, P a → P' a) :
    EndsIn r P' Q := by
  cases r with
  | ok a => exact hP a h
  | error fault => exact h

theorem fault {Q' : ε → Prop} {r : Except ε α} (h : EndsIn r P Q) (hQ : ∀ e, Q e → Q' e) :
    EndsIn r P Q' := by
  cases r with
  | ok a => exact h
  | error fault => exact hQ fault h

theorem mapM {f : α → Except ε β} : ∀ {xs : List α}, (∀ x ∈ xs, EndsIn (f x) R Q) →
    EndsIn (xs.mapM f) (fun ys => ∀ y ∈ ys, R y) Q
  | [], _ => by
      rw [List.mapM_nil]
      show ∀ y ∈ [], R y
      exact nofun
  | x :: xs, h => by
      rw [List.mapM_cons]
      refine (h x List.mem_cons_self).bind fun y hy => ?_
      refine (mapM fun z hz => h z (List.mem_cons_of_mem x hz)).bind fun ys hys => ?_
      exact List.forall_mem_cons.mpr ⟨hy, hys⟩

theorem of_ok {r : Except ε α} {a : α} (h : EndsIn r P Q) (hr : r = .ok a) : P a := by
  rwa [hr] at h

theorem of_error {r : Except ε α} {fault : ε} (h : EndsIn r P Q) (hr : r = .error fault) :
    Q fault := by
  rwa [hr] at h

end EndsIn

/-- Started in a state with the invariant, the computation ends as `EndsIn` says, and in a state that
has the invariant, too. -/
def Runs (I : σ → Prop) (r : StateT σ (Except ε) α) (P : α → Prop) (Q : ε → Prop) : Prop :=
  ∀ s, I s → EndsIn (r.run s) (fun p => P p.1 ∧ I p.2) Q

namespace Runs

variable {I : σ → Prop} {P : α → Prop} {R : β → Prop} {Q : ε → Prop}

theorem pure {a : α} (h : P a) : Runs I (Pure.pure a) P Q := fun _ hs => ⟨h, hs⟩

theorem throw {e : ε} (h : Q e) : Runs I (throw e : StateT σ (Except ε) α) P Q :=
  fun _ _ => h

theorem get : Runs I (get : StateT σ (Except ε) σ) I Q := fun _ hs => ⟨hs, hs⟩

theorem set {s : σ} (h : I s) :
    Runs I (set s : StateT σ (Except ε) PUnit) (fun _ => True) Q :=
  fun _ _ => ⟨trivial, h⟩

theorem modify {f : σ → σ} (h : ∀ s, I s → I (f s)) :
    Runs I (modify f : StateT σ (Except ε) PUnit) (fun _ => True) Q :=
  fun s hs => ⟨trivial, h s hs⟩

/-- A condition on the first result is one to go on with in the second computation. -/
theorem bind {r : StateT σ (Except ε) α} {f : α → StateT σ (Except ε) β} (h : Runs I r P Q)
    (hf : ∀ a, P a → Runs I (f a) R Q) : Runs I (r >>= f) R Q :=
  fun s hs => EndsIn.bind (h s hs) fun p hp => hf p.1 hp.1 p.2 hp.2

/-- A computation that is done for each of several things in turn. -/
theorem mapM {f : α → StateT σ (Except ε) β} : ∀ {xs : List α},
    (∀ x ∈ xs, Runs I (f x) R Q) → Runs I (xs.mapM f) (fun ys => ∀ y ∈ ys, R y) Q
  | [], _ => by
      rw [List.mapM_nil]
      exact .pure nofun
  | x :: xs, h => by
      rw [List.mapM_cons]
      refine (h x List.mem_cons_self).bind fun y hy => ?_
      refine (mapM fun z hz => h z (List.mem_cons_of_mem x hz)).bind fun ys hys => .pure ?_
      exact List.forall_mem_cons.mpr ⟨hy, hys⟩

theorem forM {f : α → StateT σ (Except ε) PUnit} : ∀ {xs : List α},
    (∀ x ∈ xs, Runs I (f x) (fun _ => True) Q) → Runs I (xs.forM f) (fun _ => True) Q
  | [], _ => .pure trivial
  | x :: _, h => (h x List.mem_cons_self).bind fun _ _ =>
      forM fun z hz => h z (List.mem_cons_of_mem x hz)

theorem imp {P' : α → Prop} {r : StateT σ (Except ε) α} (h : Runs I r P Q)
    (hP : ∀ a, P a → P' a) : Runs I r P' Q :=
  fun s hs => (h s hs).imp fun _ hp => ⟨hP _ hp.1, hp.2⟩

theorem fault {Q' : ε → Prop} {r : StateT σ (Except ε) α} (h : Runs I r P Q)
    (hQ : ∀ e, Q e → Q' e) : Runs I r P Q' :=
  fun s hs => (h s hs).fault hQ

end Runs

end Conform
