/-!
# Runs of characters

A run of characters of one class, and what stands behind it.  The run is exactly what a reader of
the class takes if the rest does not go on with it.

What holds of all characters of ASCII is found by going through them (`forall_ascii`).
-/

namespace Conform.Text

/-- Nothing here would go on with a run of the class. -/
def Stops (accepts : Char → Bool) (rest : List Char) : Prop :=
  ∀ c, rest.head? = some c → accepts c = false

variable {accepts : Char → Bool} {run rest : List Char} {c : Char}

theorem stops_nil : Stops accepts [] := nofun

theorem stops_cons : Stops accepts (c :: rest) ↔ accepts c = false :=
  ⟨fun h => h c rfl, fun h _ hd => Option.some.inj hd ▸ h⟩

theorem stops_of_forall (h : ∀ c ∈ rest, accepts c = false) : Stops accepts rest :=
  fun c hc => h c (List.mem_of_mem_head? hc)

theorem Stops.takeWhile_eq_nil (h : Stops accepts rest) : rest.takeWhile accepts = [] := by
  cases rest with
  | nil => rfl
  | cons c rest => exact List.takeWhile_cons_of_neg (by simp [stops_cons.mp h])

theorem Stops.dropWhile_eq_self (h : Stops accepts rest) : rest.dropWhile accepts = rest := by
  cases rest with
  | nil => rfl
  | cons c rest => exact List.dropWhile_cons_of_neg (by simp [stops_cons.mp h])

theorem takeWhile_run (hrun : ∀ c ∈ run, accepts c = true) (hrest : Stops accepts rest) :
    (run ++ rest).takeWhile accepts = run := by
  rw [List.takeWhile_append_of_pos hrun, hrest.takeWhile_eq_nil, List.append_nil]

theorem dropWhile_run (hrun : ∀ c ∈ run, accepts c = true) (hrest : Stops accepts rest) :
    (run ++ rest).dropWhile accepts = rest := by
  rw [List.dropWhile_append_of_pos hrun, hrest.dropWhile_eq_self]

/-- Two runs, each with a rest that stops it, make the same text only if both parts are the same. -/
theorem run_append_inj {run' rest' : List Char} (hrun : ∀ c ∈ run, accepts c = true)
    (hrest : Stops accepts rest) (hrun' : ∀ c ∈ run', accepts c = true)
    (hrest' : Stops accepts rest') : run ++ rest = run' ++ rest' ↔ run = run' ∧ rest = rest' := by
  constructor
  · intro h
    have htake := congrArg (List.takeWhile accepts) h
    have hdrop := congrArg (List.dropWhile accepts) h
    rw [takeWhile_run hrun hrest, takeWhile_run hrun' hrest'] at htake
    rw [dropWhile_run hrun hrest, dropWhile_run hrun' hrest'] at hdrop
    exact ⟨htake, hdrop⟩
  · rintro ⟨rfl, rfl⟩
    rfl

/-- What holds of the first half of all octets holds of the characters of ASCII. -/
theorem forall_ascii {P : Char → Prop} (h : ∀ n < 0x80, P (Char.ofNat n)) {c : Char}
    (hc : c.toNat < 0x80) : P c := by
  rw [← Char.ofNat_toNat c]
  exact h c.toNat hc

end Conform.Text
