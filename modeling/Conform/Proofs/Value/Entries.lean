import Conform.Value.Basic
import Mathlib.Data.List.Forall2
import Mathlib.Data.List.Induction
import Mathlib.Data.List.Perm.Basic
import Mathlib.Data.List.Nodup

/-!
# Entries of maps

A map has each key once: no two of its keys mean the same.  Writing entries with such keys one after
the other gives just these entries, in order; with any other keys something is overwritten
(`ofEntries_eq_map_iff`).

A text key means the same as no other key (`same_text_left`), so a field is found under its name
wherever it stands (`get?_of_mem`), and a map is, but for the order, the fields of some names
followed by the rest (`perm_written_append`).  Where entries are written over such fields, they take
the places of those with the same names, and the rest of them follow (`foldl_put_eq`).
-/

namespace Conform.Value

section

variable {α : Type}

/-! ## Keys -/

theorem same_text_left {s : String} {k : Value} : same (.text s) k = true ↔ k = .text s := by
  cases k with
  | text t => simp only [same, sameLeaf, beq_iff_eq, Value.text.injEq]; exact eq_comm
  | _ => simp [same, sameLeaf, int?]

theorem same_text_right {s : String} {k : Value} : same k (.text s) = true ↔ k = .text s := by
  cases k <;> simp [same, sameLeaf, int?]

/-- No two keys mean the same. -/
def KeysDistinct (es : List (Value × α)) : Prop := es.Pairwise fun a b => same a.1 b.1 = false

instance (es : List (Value × α)) : Decidable (KeysDistinct es) :=
  inferInstanceAs (Decidable (es.Pairwise _))

theorem KeysDistinct.sublist {es fs : List (Value × α)} (h : KeysDistinct fs)
    (hs : es.Sublist fs) : KeysDistinct es :=
  List.Pairwise.sublist hs h

theorem KeysDistinct.map {es : List (Value × α)} (h : KeysDistinct es) (f : Value × α → α) :
    KeysDistinct (es.map fun e => (e.1, f e)) :=
  List.pairwise_map.mpr h

theorem KeysDistinct.nodup {es : List (Value × α)} (h : KeysDistinct es)
    (ht : ∀ e ∈ es, ∃ s, e.1 = .text s) : es.Nodup := by
  refine List.Pairwise.imp_of_mem ?_ h
  intro a b ha _ hab heq
  obtain ⟨s, hs⟩ := ht a ha
  rw [← heq, hs, same_text_left.mpr rfl] at hab
  cases hab

theorem keysDistinct_of_nodup {es : List (Value × α)} (hn : (es.map (·.1)).Nodup)
    (ht : ∀ e ∈ es, ∃ s, e.1 = .text s) : KeysDistinct es := by
  refine List.Pairwise.imp_of_mem ?_ (List.pairwise_map.mp hn)
  intro a b ha _ hab
  obtain ⟨s, hs⟩ := ht a ha
  rw [hs] at hab ⊢
  exact Bool.eq_false_iff.mpr (mt same_text_left.mp (Ne.symm hab))

/-! ## Writing -/

theorem put_of_fresh {es : List (Value × α)} {k : Value} {a : α}
    (h : ∀ e ∈ es, same e.1 k = false) : put es k a = es ++ [(k, a)] := by
  induction es with
  | nil => rfl
  | cons e es ih =>
      obtain ⟨k', b⟩ := e
      rw [put, if_neg (by simp [h _ List.mem_cons_self]),
        ih fun e he => h e (List.mem_cons_of_mem _ he), List.cons_append]

theorem length_put_of_has {es : List (Value × α)} {k : Value} {a : α} (h : has es k = true) :
    (put es k a).length = es.length := by
  induction es with
  | nil => cases h
  | cons e es ih =>
      obtain ⟨k', b⟩ := e
      rw [put]
      by_cases hk : same k' k = true
      · rw [if_pos hk, List.length_cons, List.length_cons]
      · rw [if_neg hk, List.length_cons, List.length_cons, ih (by simpa [has, hk] using h)]

/-- An entry after writing is one from before, or its value is the written one and its key the
written one or one from before. -/
theorem mem_put {es : List (Value × α)} {k : Value} {a : α} {e : Value × α} (h : e ∈ put es k a) :
    e ∈ es ∨ e.2 = a ∧ (e.1 = k ∨ ∃ b ∈ es, b.1 = e.1) := by
  induction es with
  | nil =>
      rw [put, List.mem_singleton] at h
      subst h
      exact Or.inr ⟨rfl, Or.inl rfl⟩
  | cons f es ih =>
      obtain ⟨k', b⟩ := f
      rw [put] at h
      split at h
      · rcases List.mem_cons.mp h with rfl | h
        · exact Or.inr ⟨rfl, Or.inr ⟨(k', b), List.mem_cons_self, rfl⟩⟩
        · exact Or.inl (List.mem_cons_of_mem _ h)
      · rcases List.mem_cons.mp h with rfl | h
        · exact Or.inl List.mem_cons_self
        · rcases ih h with h | ⟨hv, hk | ⟨f, hf, hk⟩⟩
          · exact Or.inl (List.mem_cons_of_mem _ h)
          · exact Or.inr ⟨hv, Or.inl hk⟩
          · exact Or.inr ⟨hv, Or.inr ⟨f, List.mem_cons_of_mem _ hf, hk⟩⟩

theorem mem_foldl_put {es : List (Value × α)} : ∀ {done : List (Value × α)} {e : Value × α},
    e ∈ es.foldl (fun d e => put d e.1 e.2) done →
      e ∈ done ∨ (∃ a ∈ es, a.2 = e.2) ∧ ∃ b ∈ done ++ es, b.1 = e.1 := by
  induction es with
  | nil => intro done e h; exact Or.inl h
  | cons f es ih =>
      intro done e h
      rcases ih h with h | ⟨⟨a, ha, hv⟩, b, hb, hk⟩
      · rcases mem_put h with h | ⟨hv, hk | ⟨b, hb, hk⟩⟩
        · exact Or.inl h
        · exact Or.inr ⟨⟨f, List.mem_cons_self, hv.symm⟩, f, by simp, hk.symm⟩
        · exact Or.inr ⟨⟨f, List.mem_cons_self, hv.symm⟩, b, by simp [hb], hk⟩
      · refine Or.inr ⟨⟨a, List.mem_cons_of_mem f ha, hv⟩, ?_⟩
        rcases List.mem_append.mp hb with hb | hb
        · rcases mem_put hb with hb | ⟨-, hk' | ⟨c, hc, hk'⟩⟩
          · exact ⟨b, by simp [hb], hk⟩
          · exact ⟨f, by simp, hk'.symm.trans hk⟩
          · exact ⟨c, by simp [hc], hk'.trans hk⟩
        · exact ⟨b, by simp [hb], hk⟩

/-- Writing entries one after the other brings in no keys and no values but theirs. -/
theorem forall_foldl_put {K : Value → Prop} {D : α → Prop} {es : List (Value × α)}
    (h : ∀ e ∈ es, K e.1 ∧ D e.2) :
    ∀ e ∈ es.foldl (fun d e => put d e.1 e.2) [], K e.1 ∧ D e.2 := by
  intro e he
  obtain ⟨⟨a, ha, hv⟩, b, hb, hk⟩ := (mem_foldl_put he).resolve_left nofun
  exact ⟨hk ▸ (h b hb).1, hv ▸ (h a ha).2⟩

theorem has_eq_false {es : List (Value × α)} {k : Value} :
    has es k = false ↔ ∀ e ∈ es, same e.1 k = false := by
  simp [has]

theorem has_eq_isSome_get? (es : List (Value × α)) (k : Value) :
    has es k = (get? es k).isSome := by
  rw [has, get?, Option.isSome_map, Bool.eq_iff_iff, List.any_eq_true, List.find?_isSome]

theorem length_put_le (es : List (Value × α)) (k : Value) (a : α) :
    (put es k a).length ≤ es.length + 1 := by
  by_cases h : has es k = true
  · rw [length_put_of_has h]; exact Nat.le_succ _
  · rw [put_of_fresh (has_eq_false.mp (Bool.eq_false_iff.mpr h)), List.length_append]
    exact Nat.le_refl _

theorem length_foldl_put_le (es : List (Value × α)) : ∀ done : List (Value × α),
    (es.foldl (fun d e => put d e.1 e.2) done).length ≤ done.length + es.length := by
  induction es with
  | nil => intro done; exact Nat.le_refl _
  | cons e es ih =>
      intro done
      have h₁ := ih (put done e.1 e.2)
      have h₂ := length_put_le done e.1 e.2
      rw [List.foldl_cons, List.length_cons]
      omega

/-! ### Keys after writing -/

theorem keysDistinct_iff_map {es : List (Value × α)} :
    KeysDistinct es ↔ (es.map (·.1)).Pairwise fun a b => same a b = false := by
  rw [KeysDistinct, List.pairwise_map]

/-- A written key is new at the end, or the same as one that stays. -/
theorem map_fst_put (es : List (Value × α)) (k : Value) (a : α) :
    (put es k a).map (·.1) = if has es k then es.map (·.1) else es.map (·.1) ++ [k] := by
  induction es with
  | nil => rfl
  | cons e es ih =>
      obtain ⟨k', b⟩ := e
      rw [put, has, List.any_cons]
      by_cases hk : same k' k = true
      · rw [if_pos hk, hk]
        rfl
      · rw [if_neg hk, Bool.eq_false_iff.mpr hk, Bool.false_or, List.map_cons, ih]
        show _ = if has es k = true then _ else _
        by_cases hes : has es k = true
        · rw [if_pos hes, if_pos hes, List.map_cons]
        · rw [if_neg hes, if_neg hes, List.map_cons, List.cons_append]

theorem keysDistinct_put {es : List (Value × α)} (h : KeysDistinct es) (k : Value) (a : α) :
    KeysDistinct (put es k a) := by
  rw [keysDistinct_iff_map] at h ⊢
  rw [map_fst_put]
  split
  · exact h
  · rename_i hk
    refine List.pairwise_append.mpr ⟨h, List.pairwise_singleton _ _, ?_⟩
    intro x hx y hy
    obtain ⟨e, he, rfl⟩ := List.mem_map.mp hx
    rw [List.mem_singleton.mp hy]
    exact has_eq_false.mp (Bool.eq_false_iff.mpr hk) e he

theorem keysDistinct_foldl_put (es : List (Value × α)) : ∀ {done : List (Value × α)},
    KeysDistinct done → KeysDistinct (es.foldl (fun d e => put d e.1 e.2) done) := by
  induction es with
  | nil => exact fun h => h
  | cons e es ih => exact fun h => ih (keysDistinct_put h e.1 e.2)

/-! ### All entries kept -/

/-- Entries are all kept exactly if no key among them, or already written, means the same. -/
theorem foldl_put_eq_append_iff (es : List (Value × α)) : ∀ {done : List (Value × α)},
    KeysDistinct done →
      (es.foldl (fun d e => put d e.1 e.2) done = done ++ es ↔ KeysDistinct (done ++ es)) := by
  induction es with
  | nil => intro done h; simpa using h
  | cons e es ih =>
      intro done h
      rw [List.foldl_cons]
      by_cases hk : has done e.1 = true
      · constructor
        · intro heq
          have hle := length_foldl_put_le es (put done e.1 e.2)
          rw [heq, length_put_of_has hk, List.length_append, List.length_cons] at hle
          omega
        · intro hd
          obtain ⟨a, ha, hsame⟩ := List.any_eq_true.mp hk
          have := (List.pairwise_append.mp hd).2.2 a ha e List.mem_cons_self
          rw [hsame] at this
          cases this
      · have hfresh := has_eq_false.mp (Bool.eq_false_iff.mpr hk)
        have hd : KeysDistinct (done ++ [e]) := by
          refine List.pairwise_append.mpr ⟨h, List.pairwise_singleton _ _, ?_⟩
          intro a ha b hb
          rw [List.mem_singleton.mp hb]
          exact hfresh a ha
        rw [put_of_fresh hfresh, List.append_cons done e es]
        exact ih hd

end

theorem ofEntries_eq_map_iff {es : Entries} : ofEntries es = .map es ↔ KeysDistinct es := by
  have h := foldl_put_eq_append_iff es (List.Pairwise.nil (R := fun a b : Value × Value =>
    same a.1 b.1 = false))
  simpa [ofEntries] using h

/-! ## Looking up a name -/

section

variable {α : Type} {es : List (Value × α)} {name : String} {v : α}

theorem get?_cons_self (es : List (Value × α)) (name : String) (v : α) :
    get? ((.text name, v) :: es) (.text name) = some v := by
  rw [get?, List.find?_cons_of_pos (by exact same_text_left.mpr rfl), Option.map_some]

theorem get?_cons_of_ne {e : Value × α} (h : e.1 ≠ .text name) (es : List (Value × α)) :
    get? (e :: es) (.text name) = get? es (.text name) := by
  rw [get?, List.find?_cons_of_neg (p := fun e : Value × α => same e.1 (.text name))
    (mt same_text_right.mp h), get?]

theorem get?_eq_none (h : ∀ e ∈ es, e.1 ≠ .text name) : get? es (.text name) = none := by
  rw [get?, Option.map_eq_none_iff, List.find?_eq_none]
  exact fun e he => mt same_text_right.mp (h e he)

theorem mem_of_get? (h : get? es (.text name) = some v) : (.text name, v) ∈ es := by
  obtain ⟨e, he, rfl⟩ := Option.map_eq_some_iff.mp h
  have hkey := List.find?_some he
  rw [← same_text_right.mp hkey]
  exact List.mem_of_find?_eq_some he

theorem get?_of_mem (h : KeysDistinct es) (hm : (.text name, v) ∈ es) :
    get? es (.text name) = some v := by
  induction es with
  | nil => cases hm
  | cons e es ih =>
      have hd := List.pairwise_cons.mp h
      rcases List.mem_cons.mp hm with rfl | hm
      · exact get?_cons_self es name v
      · have hne : e.1 ≠ .text name := by
          intro heq
          have := hd.1 _ hm
          rw [heq, same_text_left.mpr rfl] at this
          cases this
        rw [get?_cons_of_ne hne]
        exact ih hd.2 hm

theorem get?_put_of_ne {k : Value} (h : k ≠ .text name) (a : α) :
    get? (put es k a) (.text name) = get? es (.text name) := by
  induction es with
  | nil => exact get?_cons_of_ne h []
  | cons e es ih =>
      obtain ⟨k', b⟩ := e
      rw [put]
      split
      · rename_i hs
        have hk' : k' ≠ .text name := by
          rintro rfl
          exact h (same_text_left.mp hs)
        rw [get?_cons_of_ne hk', get?_cons_of_ne hk']
      · by_cases hk' : k' = .text name
        · subst hk'
          rw [get?_cons_self, get?_cons_self]
        · rw [get?_cons_of_ne hk', get?_cons_of_ne hk', ih]

theorem get?_foldl_put_of_ne {fs : List (Value × α)} : ∀ {es : List (Value × α)},
    (∀ e ∈ fs, e.1 ≠ .text name) →
      get? (fs.foldl (fun d e => put d e.1 e.2) es) (.text name) = get? es (.text name) := by
  induction fs with
  | nil => intro es _; rfl
  | cons f fs ih =>
      intro es h
      have h := List.forall_mem_cons.mp h
      rw [List.foldl_cons, ih h.2, get?_put_of_ne h.1]

end

/-! ## Fields -/

/-- The value of a field, which is `missing` if the map does not have it. -/
def fieldOf (es : Entries) (name : String) : Value := (get? es (.text name)).getD .missing

theorem mem_of_fieldOf {es : Entries} {name : String} (h : fieldOf es name ≠ .missing) :
    (.text name, fieldOf es name) ∈ es := by
  refine mem_of_get? ?_
  rw [fieldOf] at h ⊢
  cases hg : get? es (.text name) with
  | none => exact absurd (by rw [hg]; rfl) h
  | some v => rfl

theorem fieldOf_eq_of_mem {es : Entries} (h : KeysDistinct es) {name : String} {v : Value}
    (hm : (.text name, v) ∈ es) : fieldOf es name = v := by
  rw [fieldOf, get?_of_mem h hm, Option.getD_some]

/-- What is found under the name of a field with a value: nothing if it is `missing`. -/
def present? : Value → Option Value
  | .missing => none
  | v => some v

theorem present?_of_ne {v : Value} (h : v ≠ .missing) : present? v = some v := by
  cases v <;> first | rfl | exact absurd rfl h

theorem getD_present? (v : Value) : (present? v).getD .missing = v := by
  cases v <;> rfl

/-! ## Written fields -/

/-- One entry for each name whose value is not `missing`, in order. -/
def written : List String → List Value → Entries
  | name :: names, v :: vs =>
      match v with
      | .missing => written names vs
      | v => (.text name, v) :: written names vs
  | _, _ => []

theorem written_cons_missing (name : String) (names : List String) (vs : List Value) :
    written (name :: names) (.missing :: vs) = written names vs := rfl

theorem written_cons {v : Value} (h : v ≠ .missing) (name : String) (names : List String)
    (vs : List Value) :
    written (name :: names) (v :: vs) = (.text name, v) :: written names vs := by
  cases v <;> first | rfl | exact absurd rfl h

theorem mem_written {e : Value × Value} : ∀ {names : List String} {vs : List Value},
    e ∈ written names vs ↔
      ∃ p ∈ names.zip vs, p.2 ≠ .missing ∧ e = (.text p.1, p.2)
  | [], _ => by simp [written]
  | _ :: _, [] => by simp [written]
  | name :: names, v :: vs => by
      rw [List.zip_cons_cons, List.exists_mem_cons_iff, ← mem_written]
      by_cases hv : v = .missing
      · subst hv
        rw [written_cons_missing]
        exact ⟨Or.inr, fun h => h.resolve_left fun h => h.1 rfl⟩
      · rw [written_cons hv, List.mem_cons]
        exact or_congr_left ⟨fun h => ⟨hv, h⟩, fun h => h.2⟩

theorem key_of_mem_written {e : Value × Value} {names : List String} {vs : List Value}
    (h : e ∈ written names vs) : ∃ name ∈ names, e.1 = .text name := by
  obtain ⟨p, hp, -, rfl⟩ := mem_written.mp h
  exact ⟨p.1, (List.of_mem_zip hp).1, rfl⟩

/-- Fields are written in the same places as others that are `missing` where they are. -/
theorem forall₂_written {R : Value → Value → Prop} {S : Value × Value → Value × Value → Prop}
    (hmissing : ∀ v w, R v w → (v = .missing ↔ w = .missing))
    (hentry : ∀ k v w, R v w → S (k, v) (k, w)) : ∀ {names : List String} {vs ws : List Value},
      List.Forall₂ R vs ws → List.Forall₂ S (written names vs) (written names ws)
  | [], _, _, _ => .nil
  | _ :: _, _, _, .nil => .nil
  | name :: names, v :: vs, w :: ws, .cons h hs => by
      by_cases hv : v = .missing
      · obtain rfl := (hmissing v w h).mp hv
        rw [hv, written_cons_missing, written_cons_missing]
        exact forall₂_written hmissing hentry hs
      · rw [written_cons hv, written_cons (mt (hmissing v w h).mpr hv)]
        exact .cons (hentry _ v w h) (forall₂_written hmissing hentry hs)

theorem get?_written_append {others : Entries} {name : String} {v : Value}
    (hf : ∀ e ∈ others, e.1 ≠ .text name) : ∀ {names : List String} {vs : List Value},
      names.Nodup → (name, v) ∈ names.zip vs →
        get? (written names vs ++ others) (.text name) = present? v
  | [], _, _, h => by simp at h
  | _ :: _, [], _, h => by simp at h
  | n :: names, w :: vs, hn, h => by
      have hn := List.nodup_cons.mp hn
      rw [List.zip_cons_cons] at h
      rcases List.mem_cons.mp h with heq | h
      · obtain ⟨rfl, rfl⟩ := Prod.mk.inj heq
        by_cases hv : v = .missing
        · subst hv
          rw [written_cons_missing]
          refine get?_eq_none fun e he => ?_
          rcases List.mem_append.mp he with he | he
          · obtain ⟨m, hm, hk⟩ := key_of_mem_written he
            rw [hk]
            intro h'
            exact hn.1 (Value.text.inj h' ▸ hm)
          · exact hf e he
        · rw [written_cons hv, List.cons_append, get?_cons_self, present?_of_ne hv]
      · have hne : n ≠ name := fun heq => hn.1 (heq ▸ (List.of_mem_zip h).1)
        have ih := get?_written_append hf hn.2 h
        by_cases hw : w = .missing
        · subst hw
          rw [written_cons_missing, ih]
        · rw [written_cons hw, List.cons_append,
            get?_cons_of_ne fun h' => hne (Value.text.inj h'), ih]

theorem keysDistinct_written {names : List String} (hn : names.Nodup) (vs : List Value) :
    KeysDistinct (written names vs) := by
  induction names generalizing vs with
  | nil => exact .nil
  | cons name names ih =>
      have hn := List.nodup_cons.mp hn
      cases vs with
      | nil => exact .nil
      | cons v vs =>
          by_cases hv : v = .missing
          · subst hv
            exact ih hn.2 vs
          · rw [written_cons hv]
            refine List.pairwise_cons.mpr ⟨fun e he => ?_, ih hn.2 vs⟩
            obtain ⟨m, hm, hk⟩ := key_of_mem_written he
            rw [hk, Bool.eq_false_iff]
            intro hs
            exact hn.1 (Value.text.inj (same_text_left.mp hs) ▸ hm)

theorem keysDistinct_written_append_iff {names : List String} {vs : List Value} {others : Entries}
    (hn : names.Nodup) (ho : KeysDistinct others) :
    KeysDistinct (written names vs ++ others) ↔
      ∀ p ∈ names.zip vs, p.2 ≠ .missing → ∀ e ∈ others, e.1 ≠ .text p.1 := by
  rw [KeysDistinct, List.pairwise_append]
  constructor
  · rintro ⟨-, -, h⟩ p hp hv e he heq
    have := h _ (mem_written.mpr ⟨p, hp, hv, rfl⟩) e he
    rw [heq, same_text_left.mpr rfl] at this
    cases this
  · intro h
    refine ⟨keysDistinct_written hn vs, ho, fun a ha e he => ?_⟩
    obtain ⟨p, hp, hv, rfl⟩ := mem_written.mp ha
    rw [Bool.eq_false_iff]
    exact fun hs => h p hp hv e he (same_text_left.mp hs)

/-! ## A map as its fields and the rest -/

/-- Is the key one of the names? -/
def isNamed (names : List String) : Value → Bool
  | .text s => decide (s ∈ names)
  | _ => false

theorem isNamed_iff {names : List String} {k : Value} :
    isNamed names k = true ↔ ∃ name ∈ names, k = .text name := by
  cases k <;> simp [isNamed]

/-- A map is, but for the order, the fields of some names and the entries under other keys. -/
theorem perm_written_append {es : Entries} (h : KeysDistinct es) (hm : ∀ e ∈ es, e.2 ≠ .missing)
    {names : List String} (hn : names.Nodup) :
    es.Perm (written names (names.map (fieldOf es)) ++ es.filter fun e => !isNamed names e.1) := by
  have hfields : (es.filter fun e => isNamed names e.1).Perm
      (written names (names.map (fieldOf es))) := by
    refine (List.perm_ext_iff_of_nodup ?_ ?_).mpr fun e => ?_
    · refine (h.sublist List.filter_sublist).nodup fun e he => ?_
      obtain ⟨name, -, hk⟩ := isNamed_iff.mp (List.mem_filter.mp he).2
      exact ⟨name, hk⟩
    · refine (keysDistinct_written hn _).nodup fun e he => ?_
      obtain ⟨name, -, hk⟩ := key_of_mem_written he
      exact ⟨name, hk⟩
    · have hzip : names.zip (names.map (fieldOf es)) = names.map fun n => (n, fieldOf es n) := by
        simpa using (List.zip_map' : (names.map id).zip (names.map (fieldOf es)) = _)
      rw [List.mem_filter, isNamed_iff, mem_written, hzip]
      constructor
      · rintro ⟨he, name, hname, hk⟩
        obtain ⟨k, v⟩ := e
        subst hk
        have hv : fieldOf es name = v := fieldOf_eq_of_mem h he
        exact ⟨_, List.mem_map_of_mem hname, by rw [hv]; exact hm _ he, by rw [hv]⟩
      · rintro ⟨p, hp, hv, rfl⟩
        obtain ⟨name, hname, rfl⟩ := List.mem_map.mp hp
        exact ⟨mem_of_fieldOf hv, name, hname, rfl⟩
  exact (List.filter_append_perm (fun e => isNamed names e.1) es).symm.trans
    (hfields.append_right _)

/-! ## Writing over fields -/

section

variable {α : Type} {es fs : List (Value × α)} {k : Value} {a : α}

theorem get?_append (es fs : List (Value × α)) (k : Value) :
    get? (es ++ fs) k = (get? es k).or (get? fs k) := by
  rw [get?, get?, get?, List.find?_append]
  cases es.find? fun e => same e.1 k <;> rfl

theorem put_append_of_has (h : has es k = true) (fs : List (Value × α)) (a : α) :
    put (es ++ fs) k a = put es k a ++ fs := by
  induction es with
  | nil => cases h
  | cons e es ih =>
      obtain ⟨k', b⟩ := e
      rw [List.cons_append, put, put]
      split
      · rfl
      · rename_i hk
        rw [List.cons_append, ih (by simpa [has, hk] using h)]

theorem put_text_eq_map {name : String} (hd : KeysDistinct es) (h : has es (.text name) = true)
    (a : α) : put es (.text name) a =
      es.map fun e => (e.1, if same e.1 (.text name) then a else e.2) := by
  induction es with
  | nil => cases h
  | cons e es ih =>
      obtain ⟨k, b⟩ := e
      have hd := List.pairwise_cons.mp hd
      rw [put, List.map_cons]
      by_cases hk : same k (.text name) = true
      · have hrest : ∀ e ∈ es, (e.1, if same e.1 (.text name) then a else e.2) = e := by
          intro e he
          have hne := hd.1 e he
          rw [same_text_right.mp hk] at hne
          rw [if_neg]
          intro hs
          rw [same_text_right.mp hs, same_text_left.mpr rfl] at hne
          cases hne
        rw [if_pos hk, if_pos hk, List.map_congr_left hrest, List.map_id']
      · rw [if_neg hk, if_neg hk, ih hd.2 (by simpa [has, hk] using h)]

/-- Entries with the values that others have under their keys. -/
def overwritten (es fs : List (Value × α)) : List (Value × α) :=
  es.map fun e => (e.1, (get? fs e.1).getD e.2)

theorem has_overwritten (es fs : List (Value × α)) (k : Value) :
    has (overwritten es fs) k = has es k := by
  rw [has, has, overwritten, List.any_map]
  rfl

theorem overwritten_append_of_fresh (ht : ∀ e ∈ es, ∃ s, e.1 = .text s) (hk : has es k = false) :
    overwritten es (fs ++ [(k, a)]) = overwritten es fs := by
  refine List.map_congr_left fun e he => ?_
  obtain ⟨s, hs⟩ := ht e he
  have hne : k ≠ .text s := by
    intro heq
    have hsame := has_eq_false.mp hk e he
    rw [hs, heq, same_text_left.mpr rfl] at hsame
    cases hsame
  rw [hs, get?_append, get?_cons_of_ne hne]
  simp [get?]

theorem overwritten_append_of_has (hes : KeysDistinct es) (ht : ∀ e ∈ es, ∃ s, e.1 = .text s)
    (hk : has es k = true) (hfs : ∀ f ∈ fs, same f.1 k = false) :
    overwritten es (fs ++ [(k, a)]) = put (overwritten es fs) k a := by
  obtain ⟨e, he, hs⟩ := List.any_eq_true.mp hk
  obtain ⟨name, hname⟩ := ht e he
  obtain rfl : k = .text name := same_text_left.mp (hname ▸ hs)
  have hnone : get? fs (.text name) = none := by
    refine get?_eq_none fun f hf heq => ?_
    have hne := hfs f hf
    rw [heq, same_text_left.mpr rfl] at hne
    cases hne
  have hkeys : KeysDistinct (overwritten es fs) := hes.map _
  rw [put_text_eq_map hkeys ((has_overwritten es fs _).trans hk), overwritten, overwritten,
    List.map_map]
  refine List.map_congr_left fun e he => ?_
  obtain ⟨s, hs⟩ := ht e he
  rw [Function.comp_apply, hs, get?_append]
  by_cases heq : s = name
  · rw [heq, if_pos (same_text_left.mpr rfl), hnone, get?_cons_self]
    rfl
  · rw [if_neg fun h => heq (Value.text.inj (same_text_right.mp h)),
      get?_cons_of_ne fun h => heq (Value.text.inj h).symm]
    simp [get?]

/-- Entries written over others, whose keys are texts, take the places of those with the same keys,
and the rest of them follow. -/
theorem foldl_put_eq (hes : KeysDistinct es) (ht : ∀ e ∈ es, ∃ s, e.1 = .text s)
    (hfs : KeysDistinct fs) : fs.foldl (fun d e => put d e.1 e.2) es =
      overwritten es fs ++ fs.filter fun f => !has es f.1 := by
  -- The last entry is written over the result of the others.
  induction fs using List.reverseRecOn with
  | nil => simp [overwritten, get?]
  | append_singleton fs f ih =>
      obtain ⟨k, a⟩ := f
      obtain ⟨hfs, -, hlast⟩ := List.pairwise_append.mp hfs
      have hlast : ∀ e ∈ fs, same e.1 k = false := fun e he => hlast e he (k, a) List.mem_cons_self
      have hkeys := has_overwritten es fs k
      rw [List.foldl_append, List.foldl_cons, List.foldl_nil, ih hfs, List.filter_append]
      cases hk : has es k with
      | true =>
          have hdrop : [(k, a)].filter (fun f => !has es f.1) = [] := by simp [hk]
          rw [put_append_of_has (hkeys.trans hk), overwritten_append_of_has hes ht hk hlast, hdrop,
            List.append_nil]
      | false =>
          have hkeep : [(k, a)].filter (fun f => !has es f.1) = [(k, a)] := by simp [hk]
          rw [overwritten_append_of_fresh ht hk, put_of_fresh, hkeep, List.append_assoc]
          intro e he
          rcases List.mem_append.mp he with he | he
          · exact has_eq_false.mp (hkeys.trans hk) e he
          · exact hlast e (List.mem_filter.mp he).1

end

end Conform.Value
