import Conform.Proofs.Conversion.Budget

/-!
# Converted objects

A map that is converted to an object has two kinds of entries: those of declared fields and the
remaining ones, which keep their keys.  The result is written in that order, first the fields under
their target names and then the remaining entries (`exists_of_verdict_object`).

Names of an object are distinct among themselves, but nothing keeps the key of a remaining entry
from being the target name of a field.  The result has all fields as they were converted, each under
its own name, exactly if that does not happen (`run_object`); if it does, the remaining entry takes
the place of the field.
-/

namespace Conform.Conversion

open Value Traversal
open Shape (nameIn)

variable {table : Table} {d : Direction} {l : Nat} {ps : List (Property Shape)} {a : Shape}

/-! ## Fields and remaining entries -/

/-- The entries under keys that no field is read from. -/
def remaining (d : Direction) (ps : List (Property Shape)) (es : Entries) : Entries :=
  es.filter fun e => !isNamed (ps.map (nameIn d.source)) e.1

/-- One entry for each field whose converted value is not `missing`, in order of declaration. -/
def fieldEntries (d : Direction) (ps : List (Property Shape)) (own : Property Shape → Value) :
    Entries :=
  written (ps.map (nameIn d.target)) (ps.map own)

/-- No key of these entries is the name of a field in the role. -/
def Apart (role : Shape.NameRole) (ps : List (Property Shape)) (es : Entries) : Prop :=
  ∀ e ∈ es, ∀ p ∈ ps, e.1 ≠ .text (nameIn role p)

theorem mem_remaining {es : Entries} {e : Value × Value} :
    e ∈ remaining d ps es ↔ e ∈ es ∧ ∀ p ∈ ps, e.1 ≠ .text (nameIn d.source p) := by
  rw [remaining, List.mem_filter, Bool.not_eq_true', Bool.eq_false_iff, Ne, isNamed_iff]
  simp

theorem apart_remaining (es : Entries) : Apart d.source ps (remaining d ps es) :=
  fun _ he => (mem_remaining.mp he).2

theorem keysDistinct_remaining {es : Entries} (h : KeysDistinct es) :
    KeysDistinct (remaining d ps es) :=
  h.sublist List.filter_sublist

theorem undeclared_ofObject (hps : Shape.repeatedName? ps = none) (es : Entries) :
    undeclared (.ofObject ⟨l, ps, a⟩ d) es = remaining d ps es := by
  rw [undeclared, remaining]
  congr 1
  funext e
  congr 1
  rw [Bool.eq_iff_iff, FieldMap.declares_iff, isNamed_iff, FieldMap.names_ofObject hps]

theorem key_of_mem_fieldEntries {own : Property Shape → Value} {e : Value × Value}
    (h : e ∈ fieldEntries d ps own) : ∃ p ∈ ps, e.1 = .text (nameIn d.target p) := by
  obtain ⟨name, hn, hk⟩ := key_of_mem_written h
  obtain ⟨p, hp, rfl⟩ := List.mem_map.mp hn
  exact ⟨p, hp, hk⟩

theorem Apart.map {role : Shape.NameRole} {es : Entries} (h : Apart role ps es)
    (f : Value × Value → Value) : Apart role ps (es.map fun e => (e.1, f e)) := by
  intro e' he'
  obtain ⟨e, he, rfl⟩ := List.mem_map.mp he'
  exact h e he

theorem get?_fieldEntries_append {own : Property Shape → Value} {others : Entries}
    (hn : (ps.map (nameIn d.target)).Nodup) (ho : Apart d.target ps others) {p : Property Shape}
    (hp : p ∈ ps) :
    get? (fieldEntries d ps own ++ others) (.text (nameIn d.target p)) = present? (own p) := by
  refine get?_written_append (fun e he => ho e he p hp) hn ?_
  rw [List.zip_map']
  exact List.mem_map_of_mem hp

theorem fieldOf_fieldEntries_append {own : Property Shape → Value} {others : Entries}
    (hn : (ps.map (nameIn d.target)).Nodup) (ho : Apart d.target ps others) {p : Property Shape}
    (hp : p ∈ ps) :
    fieldOf (fieldEntries d ps own ++ others) (nameIn d.target p) = own p := by
  rw [fieldOf, get?_fieldEntries_append hn ho hp, getD_present?]

theorem keysDistinct_fieldEntries_append {own : Property Shape → Value} {others : Entries}
    (hn : (ps.map (nameIn d.target)).Nodup) (hd : KeysDistinct others)
    (ho : Apart d.target ps others) : KeysDistinct (fieldEntries d ps own ++ others) := by
  refine (keysDistinct_written_append_iff hn hd).mpr fun q hq _ e he => ?_
  obtain ⟨p, hp, heq⟩ := List.mem_map.mp (List.of_mem_zip hq).1
  rw [← heq]
  exact ho e he p hp

theorem remaining_fieldEntries_append {d' : Direction} (hd : d'.source = d.target)
    {own : Property Shape → Value} {others : Entries} (ho : Apart d.target ps others) :
    remaining d' ps (fieldEntries d ps own ++ others) = others := by
  rw [remaining, List.filter_append, hd, List.filter_eq_nil_iff.mpr, List.nil_append,
    List.filter_eq_self.mpr]
  · intro e he
    rw [Bool.not_eq_true', Bool.eq_false_iff, Ne, isNamed_iff]
    rintro ⟨name, hname, hk⟩
    obtain ⟨p, hp, rfl⟩ := List.mem_map.mp hname
    exact ho e he p hp hk
  · intro e he
    obtain ⟨p, hp, hk⟩ := key_of_mem_fieldEntries he
    rw [Bool.not_eq_true, Bool.not_eq_false', isNamed_iff]
    exact ⟨_, List.mem_map_of_mem hp, hk⟩

/-! ## The verdict about an object -/

theorem judgeObject_ofObject (hps : Shape.repeatedName? ps = none)
    (ask : Value → Shape → Verdict) (m : Entries) :
    judgeObject ask (.ofObject ⟨l, ps, a⟩ d) a m = (do
      let own ← ps.mapM fun p => ask (fieldOf m (nameIn d.source p)) p.shape
      let others ← (remaining d ps m).mapM (judgeOther ask a)
      return ofEntries (written (ps.map (nameIn d.target)) own ++
        ((remaining d ps m).map (·.1)).zip others)) := by
  have hown : ((FieldMap.ofObject ⟨l, ps, a⟩ d).mapM fun e => ask (fieldOf m e.1) e.2.shape) =
      ps.mapM fun p => ask (fieldOf m (nameIn d.source p)) p.shape := by
    rw [FieldMap.ofObject_eq_map hps, List.mapM_map]
    exact congrArg (List.mapM · ps) (funext fun p => by
      rw [Function.comp_apply, FieldMap.entry_eq])
  have htargets : (FieldMap.ofObject ⟨l, ps, a⟩ d).targets = ps.map (nameIn d.target) :=
    FieldMap.targets_ofObject hps d
  simp only [judgeObject, hown, assembled, undeclared_ofObject hps, htargets]

theorem judgeOther_eq_ok {ask : Value → Shape → Verdict} {e : Value × Value} {y : Value} :
    judgeOther ask a e = .ok y ↔ e.1.keyText?.isSome = true ∧ ask e.2 a = .ok y := by
  rw [judgeOther]
  by_cases hk : e.1.keyText?.isSome = true
  · rw [if_pos hk]
    exact ⟨fun h => ⟨hk, h⟩, fun h => h.2⟩
  · rw [if_neg hk]
    constructor
    · intro h
      cases h
    · exact fun h => absurd h.1 hk

/-- A converted object has its fields in order of declaration, then the remaining entries. -/
theorem exists_of_judge_object (hps : Shape.repeatedName? ps = none)
    {ask : Value → Shape → Verdict} {m : Entries} {y : Value}
    (h : judge table d ask (.map m) (.object l ps a) = .ok y) :
    ∃ (own : Property Shape → Value) (other : Value × Value → Value),
      (∀ p ∈ ps, ask (fieldOf m (nameIn d.source p)) p.shape = .ok (own p)) ∧
      (∀ e ∈ remaining d ps m, e.1.keyText?.isSome = true ∧ ask e.2 a = .ok (other e)) ∧
      y = ofEntries (fieldEntries d ps own ++ (remaining d ps m).map fun e => (e.1, other e)) := by
  rw [judge, judgeObject_ofObject hps] at h
  obtain ⟨ys, hys, h⟩ := bind_eq_ok.mp h
  obtain ⟨zs, hzs, h⟩ := bind_eq_ok.mp h
  obtain ⟨own, hown, rfl⟩ := exists_of_mapM_eq_ok hys
  obtain ⟨other, hother, rfl⟩ := exists_of_mapM_eq_ok hzs
  refine ⟨own, other, hown, fun e he => judgeOther_eq_ok.mp (hother e he), ?_⟩
  rw [fieldEntries, ← List.zip_map']
  exact (Except.ok.inj h).symm

theorem exists_of_verdict_object (hps : Shape.repeatedName? ps = none) {n : Nat} {m : Entries}
    {y : Value} (h : verdict table d (n + 1) (.map m) (.object l ps a) = .ok y) :
    ∃ (own : Property Shape → Value) (other : Value × Value → Value),
      (∀ p ∈ ps, verdict table d n (fieldOf m (nameIn d.source p)) p.shape = .ok (own p)) ∧
      (∀ e ∈ remaining d ps m,
        e.1.keyText?.isSome = true ∧ verdict table d n e.2 a = .ok (other e)) ∧
      y = ofEntries (fieldEntries d ps own ++ (remaining d ps m).map fun e => (e.1, other e)) :=
  exists_of_judge_object hps h

/-- An object is converted if its fields and the remaining entries are, here those of a list with
other values. -/
theorem judge_object_eq_ok (hps : Shape.repeatedName? ps = none) {ask : Value → Shape → Verdict}
    {m rest : Entries} {own : Property Shape → Value} {given other : Value × Value → Value}
    (hown : ∀ p ∈ ps, ask (fieldOf m (nameIn d.source p)) p.shape = .ok (own p))
    (hrest : remaining d ps m = rest.map fun e => (e.1, given e))
    (hother : ∀ e ∈ rest, e.1.keyText?.isSome = true ∧ ask (given e) a = .ok (other e)) :
    judge table d ask (.map m) (.object l ps a) =
      .ok (ofEntries (fieldEntries d ps own ++ rest.map fun e => (e.1, other e))) := by
  have hys := mapM_eq_ok hown
  have hzs : (remaining d ps m).mapM (judgeOther ask a) = .ok (rest.map other) := by
    rw [hrest, List.mapM_map]
    exact mapM_eq_ok fun e he => judgeOther_eq_ok.mpr (hother e he)
  rw [judge, judgeObject_ofObject hps, hys, hzs, hrest, List.map_map, fieldEntries,
    ← List.zip_map']
  rfl

theorem judge_object_ne_rejected (hps : Shape.repeatedName? ps = none)
    {ask : Value → Shape → Verdict} {m : Entries}
    (hown : ∀ p ∈ ps, ask (fieldOf m (nameIn d.source p)) p.shape ≠ .error .rejected)
    (hother : ∀ e ∈ remaining d ps m, ask e.2 a ≠ .error .rejected) :
    judge table d ask (.map m) (.object l ps a) ≠ .error .rejected := by
  rw [judge, judgeObject_ofObject hps]
  intro hr
  rcases bind_eq_error.mp hr with hr | ⟨own, -, hr⟩
  · obtain ⟨p, hp, hr⟩ := exists_of_mapM_eq_error hr
    exact hown p hp hr
  rcases bind_eq_error.mp hr with hr | ⟨others, -, hr⟩
  · obtain ⟨e, he, hr⟩ := exists_of_mapM_eq_error hr
    rw [judgeOther] at hr
    split at hr
    · exact hother e he hr
    · cases hr
  · cases hr

theorem ofEntries_fieldEntries_append (hps : Shape.repeatedName? ps = none)
    {own : Property Shape → Value} {others : Entries} (hd : KeysDistinct others)
    (ho : Apart d.target ps others) :
    ofEntries (fieldEntries d ps own ++ others) = .map (fieldEntries d ps own ++ others) :=
  ofEntries_eq_map_iff.mpr
    (keysDistinct_fieldEntries_append (Shape.repeatedName?_eq_none_iff.mp hps _) hd ho)

theorem judge_object_back (hps : Shape.repeatedName? ps = none) {ask : Value → Shape → Verdict}
    {d' : Direction} (hd : d'.source = d.target) {rest : Entries}
    {own back : Property Shape → Value} {given other : Value × Value → Value}
    (ho : Apart d.target ps rest) (hback : ∀ p ∈ ps, ask (own p) p.shape = .ok (back p))
    (hother : ∀ e ∈ rest, e.1.keyText?.isSome = true ∧ ask (given e) a = .ok (other e)) :
    judge table d' ask (.map (fieldEntries d ps own ++ rest.map fun e => (e.1, given e)))
        (.object l ps a) =
      .ok (ofEntries (fieldEntries d' ps back ++ rest.map fun e => (e.1, other e))) := by
  have hn := Shape.repeatedName?_eq_none_iff.mp hps d.target
  refine judge_object_eq_ok hps (fun p hp => ?_)
    (remaining_fieldEntries_append hd (ho.map given)) hother
  rw [hd, fieldOf_fieldEntries_append hn (ho.map given) hp]
  exact hback p hp

/-! ## Whether fields are kept -/

/-- The value is a map of the converted fields, in order of declaration, and then of the remaining
entries; under the name of a field is what the field was converted to, or nothing if that is
`missing`. -/
def KeepsFields (d : Direction) (ps : List (Property Shape)) (own : Property Shape → Value)
    (others : Entries) (y : Value) : Prop :=
  y = .map (fieldEntries d ps own ++ others) ∧
    ∀ p ∈ ps, get? (fieldEntries d ps own ++ others) (.text (nameIn d.target p)) = present? (own p)

theorem keepsFields_iff (hps : Shape.repeatedName? ps = none) {own : Property Shape → Value}
    {others : Entries} (hd : KeysDistinct others) :
    KeepsFields d ps own others (ofEntries (fieldEntries d ps own ++ others)) ↔
      Apart d.target ps others := by
  have hn := Shape.repeatedName?_eq_none_iff.mp hps d.target
  constructor
  · rintro ⟨hy, hget⟩ e he p hp hk
    have hp' := hget p hp
    by_cases hown : own p = .missing
    · -- The field is not there, and so the entry is found under its name.
      rw [hown] at hp'
      have hnone := List.find?_eq_none.mp (Option.map_eq_none_iff.mp hp') e
        (List.mem_append_right _ he)
      exact hnone (same_text_right.mpr hk)
    · -- The field is there, and so its name is a key twice.
      have hzip : (nameIn d.target p, own p) ∈ (ps.map (nameIn d.target)).zip (ps.map own) := by
        rw [List.zip_map']
        exact List.mem_map_of_mem hp
      exact (keysDistinct_written_append_iff hn hd).mp (ofEntries_eq_map_iff.mp hy) _ hzip hown e he
        hk
  · intro ho
    exact ⟨ofEntries_fieldEntries_append hps hd ho,
      fun p hp => get?_fieldEntries_append hn ho hp⟩

/-- A map that is converted to an object has its fields and the remaining entries converted, and
keeps the fields exactly if no key of a remaining entry is the target name of a field. -/
theorem run_object (hps : Shape.repeatedName? ps = none) {m : Entries} (hm : KeysDistinct m)
    {y : Value} (h : run table d (.map m) (.object l ps a) = .ok y) :
    ∃ (own : Property Shape → Value) (other : Value × Value → Value),
      (∀ p ∈ ps, run table d (fieldOf m (nameIn d.source p)) p.shape = .ok (own p)) ∧
      (∀ e ∈ remaining d ps m, run table d e.2 a = .ok (other e)) ∧
      (KeepsFields d ps own ((remaining d ps m).map fun e => (e.1, other e)) y ↔
        Apart d.target ps (remaining d ps m)) := by
  have h := run_eq_ok.mp h
  cases hb : budget table (.map m) (.object l ps a) with
  | zero =>
      rw [hb] at h
      cases h
  | succ n =>
      rw [hb] at h
      obtain ⟨own, other, hown, hother, rfl⟩ := exists_of_verdict_object hps h
      refine ⟨own, other, fun p hp => run_of_verdict (hown p hp),
        fun e he => run_of_verdict (hother e he).2, ?_⟩
      rw [keepsFields_iff hps ((keysDistinct_remaining hm).map other)]
      refine ⟨fun ho e he => ?_, fun ho => ho.map other⟩
      exact ho (e.1, other e) (List.mem_map_of_mem he)

/-- A field whose typed name differs from the serialized one. -/
def firstName : Property Shape := ⟨"firstName", "first_name", .primitive .string, none⟩

/-- A map with this field and an entry whose key is the typed name of the field. -/
def twoNames : Entries := [(.text "firstName", .text "A"), (.text "first_name", .text "B")]

theorem run_object_twoNames :
    ∃ (own : Property Shape → Value) (other : Value × Value → Value),
      (∀ p ∈ [firstName], run .empty .decode (fieldOf twoNames p.serialized) p.shape =
        .ok (own p)) ∧
      (∀ e ∈ remaining .decode [firstName] twoNames, run .empty .decode e.2 .any =
        .ok (other e)) ∧
      (KeepsFields .decode [firstName] own
          ((remaining .decode [firstName] twoNames).map fun e => (e.1, other e))
          (.map [(.text "first_name", .text "B")]) ↔
        Apart .typed [firstName] (remaining .decode [firstName] twoNames)) :=
  run_object (l := 0) (by decide) (by decide +kernel) (by with_unfolding_all rfl)

/-- The field is converted to one value, and under its name is another one. -/
theorem remaining_entry_replaces_field :
    run .empty .decode (.map twoNames) (.object 0 [firstName] .any) =
        .ok (.map [(.text "first_name", .text "B")]) ∧
      run .empty .decode (fieldOf twoNames firstName.serialized) firstName.shape =
        .ok (.text "A") := by
  constructor
  · with_unfolding_all rfl
  · with_unfolding_all rfl

end Conform.Conversion
