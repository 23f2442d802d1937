import Conform.Proofs.UpToOrder
import Conform.Proofs.Value.Entries
import Conform.Proofs.Value.Nesting

/-!
# Values with shuffled maps

A value is `Shuffled` to another if the two differ in nothing but the order of the entries of maps,
at any depth.  Unlike the order of a tree (`Reordered`) this is about all values, tuples included.

As long as maps have each key once, a field of a shuffled map is shuffled (`shuffled_fieldOf`), and
a map that is written from shuffled entries is shuffled, whatever is overwritten on the way
(`shuffled_ofEntries`).
-/

namespace Conform.Value

mutual
/-- Equal up to the order of map entries, at any depth. -/
inductive Shuffled : Value → Value → Prop where
  | refl (v : Value) : Shuffled v v
  | list {xs ys : List Value} (items : List.Forall₂ Shuffled xs ys) : Shuffled (.list xs) (.list ys)
  | tuple {xs ys : List Value} (items : List.Forall₂ Shuffled xs ys) :
      Shuffled (.tuple xs) (.tuple ys)
  /-- The entries are put into another order, and then the value of each is shuffled. -/
  | map {es mid fs : Entries} (order : es.Perm mid) (entries : List.Forall₂ ShuffledEntry mid fs) :
      Shuffled (.map es) (.map fs)

/-- Entries under one key whose values are shuffled. -/
inductive ShuffledEntry : Value × Value → Value × Value → Prop where
  | mk (k : Value) {v w : Value} (value : Shuffled v w) : ShuffledEntry (k, v) (k, w)
end

theorem ShuffledEntry.refl (e : Value × Value) : ShuffledEntry e e := .mk e.1 (.refl e.2)

theorem ShuffledEntry.key {e f : Value × Value} (h : ShuffledEntry e f) : e.1 = f.1 := by
  cases h with
  | mk => rfl

theorem ShuffledEntry.value {e f : Value × Value} (h : ShuffledEntry e f) : Shuffled e.2 f.2 := by
  cases h with
  | mk _ h => exact h

mutual
theorem Shuffled.symm {v w : Value} : Shuffled v w → Shuffled w v
  | .refl v => .refl v
  | .list items => .list (symm_items items)
  | .tuple items => .tuple (symm_items items)
  | .map order entries =>
      have ⟨_, order, entries⟩ := UpToOrder.of_forall₂_perm (symm_entries entries) order.symm
      .map order entries

theorem ShuffledEntry.symm {e f : Value × Value} : ShuffledEntry e f → ShuffledEntry f e
  | .mk k h => .mk k h.symm

theorem symm_items {xs ys : List Value} :
    List.Forall₂ Shuffled xs ys → List.Forall₂ Shuffled ys xs
  | .nil => .nil
  | .cons h hs => .cons h.symm (symm_items hs)

theorem symm_entries {es fs : Entries} :
    List.Forall₂ ShuffledEntry es fs → List.Forall₂ ShuffledEntry fs es
  | .nil => .nil
  | .cons h hs => .cons h.symm (symm_entries hs)
end

theorem Shuffled.of_upToOrder {es fs : Entries} (h : UpToOrder ShuffledEntry es fs) :
    Shuffled (.map es) (.map fs) := by
  obtain ⟨mid, order, entries⟩ := h
  exact .map order entries

/-! ## What a shuffled value looks like -/

variable {v w : Value} {es fs : Entries}

theorem Shuffled.exists_of_map (h : Shuffled (.map es) w) :
    ∃ fs, w = .map fs ∧ UpToOrder ShuffledEntry es fs := by
  cases h with
  | refl => exact ⟨es, rfl, .refl .refl es⟩
  | map order entries => exact ⟨_, rfl, _, order, entries⟩

theorem Shuffled.missing_iff (h : Shuffled v w) : v = .missing ↔ w = .missing := by
  cases h with
  | refl => exact Iff.rfl
  | list | tuple | map => simp

theorem Shuffled.exists_component (h : Shuffled v w) {c : Value} (hc : c ∈ w.components) :
    ∃ b ∈ v.components, Shuffled b c := by
  cases h with
  | refl => exact ⟨c, hc, .refl c⟩
  | list items | tuple items => exact UpToOrder.exists_of_forall₂_right items hc
  | map order entries =>
      obtain ⟨f, hf, hc⟩ := List.mem_flatMap.mp hc
      obtain ⟨e, he, hef⟩ := UpToOrder.exists_of_mem_right ⟨_, order, entries⟩ hf
      rcases List.mem_cons.mp hc with rfl | hc
      · exact ⟨e.1, key_mem_components he, hef.key ▸ .refl e.1⟩
      · rw [List.mem_singleton.mp hc]
        exact ⟨e.2, value_mem_components he, hef.value⟩

theorem Shuffled.isShort (h : Shuffled v w) (hv : v.IsShort) : w.IsShort := by
  cases h with
  | refl => exact hv
  | list | tuple | map => exact fun n hn => by cases hn

theorem Shuffled.isWritable (h : Shuffled v w) (hv : v.isWritable = true) : w.isWritable = true := by
  induction w using byComponents generalizing v with
  | step w ih =>
      rw [isWritable_iff_components] at hv ⊢
      refine ⟨h.isShort hv.1, fun c hc => ?_⟩
      obtain ⟨b, hb, hbc⟩ := h.exists_component hc
      exact ih c hc hbc (hv.2 b hb)

/-! ## Fields -/

/-- If the value is a map, then it has each key once. -/
def HasKeysOnce : Value → Prop
  | .map es => KeysDistinct es
  | _ => True

theorem shuffled_get? (h : UpToOrder ShuffledEntry es fs) (hes : KeysDistinct es)
    (hfs : KeysDistinct fs) (name : String) :
    Option.Rel Shuffled (get? es (.text name)) (get? fs (.text name)) := by
  cases he : get? es (.text name) with
  | some v =>
      obtain ⟨⟨k, w⟩, hf, hkey⟩ := h.exists_of_mem_left (mem_of_get? he)
      obtain rfl : Value.text name = k := hkey.key
      rw [get?_of_mem hfs hf]
      exact .some hkey.value
  | none =>
      cases hf : get? fs (.text name) with
      | none => exact .none
      | some w =>
          obtain ⟨⟨k, v⟩, he', hkey⟩ := h.exists_of_mem_right (mem_of_get? hf)
          obtain rfl : k = Value.text name := hkey.key
          rw [get?_of_mem hes he'] at he
          cases he

theorem shuffled_fieldOf (h : UpToOrder ShuffledEntry es fs) (hes : KeysDistinct es)
    (hfs : KeysDistinct fs) (name : String) : Shuffled (fieldOf es name) (fieldOf fs name) := by
  have hget := shuffled_get? h hes hfs name
  rw [fieldOf, fieldOf]
  generalize get? es (.text name) = x, get? fs (.text name) = y at hget
  cases hget with
  | none => exact .refl _
  | some hvw => exact hvw

/-! ## Written maps -/

theorem shuffled_written {names : List String} {vs ws : List Value}
    (h : List.Forall₂ Shuffled vs ws) :
    List.Forall₂ ShuffledEntry (written names vs) (written names ws) :=
  forall₂_written (fun _ _ => Shuffled.missing_iff) (fun k _ _ => .mk k) h

theorem has_eq_of_shuffled {done done' : Entries} (h : List.Forall₂ ShuffledEntry done done')
    (k : Value) : has done k = has done' k := by
  induction h with
  | nil => rfl
  | cons hef _ ih => rw [has, has, List.any_cons, List.any_cons, hef.key, ← has, ← has, ih]

theorem shuffled_overwritten (h : UpToOrder ShuffledEntry es fs) (hes : KeysDistinct es)
    (hfs : KeysDistinct fs) {done done' : Entries} (hdone : List.Forall₂ ShuffledEntry done done') :
    (∀ e ∈ done, ∃ s, e.1 = .text s) →
      List.Forall₂ ShuffledEntry (overwritten done es) (overwritten done' fs) := by
  induction hdone with
  | nil => exact fun _ => .nil
  | @cons e f _ _ hef _ ih =>
      intro ht
      obtain ⟨⟨s, hs⟩, ht⟩ := List.forall_mem_cons.mp ht
      refine .cons ?_ (ih ht)
      have hget := shuffled_get? h hes hfs s
      show ShuffledEntry (e.1, (get? es e.1).getD e.2) (f.1, (get? fs f.1).getD f.2)
      rw [← hef.key, hs]
      generalize get? es (.text s) = x, get? fs (.text s) = y at hget
      cases hget with
      | none => exact .mk _ hef.value
      | some hvw => exact .mk _ hvw

/-- A map that is written from fields and from others that may take their places. -/
theorem ofEntries_written_append {names : List String} (hn : names.Nodup) (vs : List Value)
    (hes : KeysDistinct es) : ofEntries (written names vs ++ es) =
      .map (overwritten (written names vs) es ++ es.filter fun e => !has (written names vs) e.1) := by
  have hkeys := keysDistinct_written hn vs
  have htext : ∀ e ∈ written names vs, ∃ s, e.1 = .text s := by
    intro e he
    obtain ⟨name, -, hk⟩ := key_of_mem_written he
    exact ⟨name, hk⟩
  have hfields := Value.map.inj (ofEntries_eq_map_iff.mpr hkeys)
  rw [ofEntries, List.foldl_append, hfields, foldl_put_eq hkeys htext hes]

theorem shuffled_ofEntries {names : List String} (hn : names.Nodup) {vs ws : List Value}
    (hown : List.Forall₂ Shuffled vs ws) (h : UpToOrder ShuffledEntry es fs)
    (hes : KeysDistinct es) (hfs : KeysDistinct fs) :
    Shuffled (ofEntries (written names vs ++ es)) (ofEntries (written names ws ++ fs)) := by
  have hwritten : List.Forall₂ ShuffledEntry (written names vs) (written names ws) :=
    shuffled_written hown
  rw [ofEntries_written_append hn vs hes, ofEntries_written_append hn ws hfs]
  refine .of_upToOrder (.append (.of_forall₂ ?_) (h.filter fun e f hef => ?_))
  · refine shuffled_overwritten h hes hfs hwritten fun e he => ?_
    obtain ⟨name, -, hk⟩ := key_of_mem_written he
    exact ⟨name, hk⟩
  · rw [has_eq_of_shuffled hwritten, hef.key]

end Conform.Value
