import Conform.Proofs.Conversion.Converted
import Conform.Proofs.Conversion.Final

/-!
# Where a rejection stands

The path of a rejection is a walk from the value that the conversion was given to the value that was
refused, and the key of the rejection is the last key on this walk (`Walk`).  A walk goes into the
items of sequences by position and into maps by the plain text of a key; only at its end may it go
to a field that the map does not have.

The walk is also one through the shape (`Descent`): into the items of arrays, the fields of objects
and the shape for other keys, each time after all that is converted before has been accepted.  It
does not go into a member of a union.  What refuses the value at its end is the shape there, a union
if each of its members rejects the value (`Refuses`).
-/

namespace Conform.Conversion

open Value Traversal

variable {table : Table} {d : Direction}

/-! ## Walks through a value -/

/-- One step into a value, and the key by which it goes if it goes into a map. -/
inductive Enters : Value → Segment → Option Value → Value → Prop
  | item {v x : Value} {xs : List Value} {i : Nat} (hv : elements? v = some xs)
      (hx : xs[i]? = some x) : Enters v (.index i) none x
  | entry {es : Entries} {k x : Value} {text : String} (he : (k, x) ∈ es)
      (hk : k.keyText? = some text) : Enters (.map es) (.key text) (some k) x

/-- A path that leads from a value to a value in it, or to a field that is not there; with it goes
the last key on the way, if there is one. -/
inductive Walk : Value → List Segment → Option Value → Value → Prop
  | nil (v : Value) : Walk v [] none v
  | cons {v x w : Value} {first : Segment} {path : List Segment} {key last : Option Value}
      (step : Enters v first key x) (rest : Walk x path last w) :
      Walk v (first :: path) (last.or key) w
  | absent {es : Entries} {name : String} (hn : get? es (.text name) = none) :
      Walk (.map es) [.key name] (some (.text name)) .missing

/-! ## Descents through a value and a shape -/

/-- The way from a value and a shape to a part of the value and the shape that it has to have, with
the last key on the way.  Whatever is converted before that part is accepted. -/
inductive Descent (table : Table) (d : Direction) :
    Value → Shape → List Segment → Option Value → Value → Shape → Prop
  | here (v : Value) (s : Shape) : Descent table d v s [] none v s
  | ref {v w : Value} {name : String} {s t : Shape} {path : List Segment} {key : Option Value}
      (hg : table.get? name = some s) (rest : Descent table d v s path key w t) :
      Descent table d v (.ref name) path key w t
  | item {v x w : Value} {before after : List Value} {items t : Shape} {path : List Segment}
      {key : Option Value} (hv : elements? v = some (before ++ x :: after))
      (hbefore : ∀ y ∈ before, Accepts table d y items)
      (rest : Descent table d x items path key w t) :
      Descent table d v (.array items) (.index before.length :: path) key w t
  | field {es : Entries} {l : Nat} {ps : List (Property Shape)} {a t : Shape}
      {before after : FieldMap} {name : String} {target : FieldTarget} {x w : Value}
      {path : List Segment} {key : Option Value}
      (hfields : FieldMap.ofObject ⟨l, ps, a⟩ d = before ++ (name, target) :: after)
      (hbefore : ∀ e ∈ before, Accepts table d (fieldOf es e.1) e.2.shape)
      (hx : get? es (.text name) = some x)
      (rest : Descent table d x target.shape path key w t) :
      Descent table d (.map es) (.object l ps a) (.key name :: path)
        (key.or (some (.text name))) w t
  | absentField {es : Entries} {l : Nat} {ps : List (Property Shape)} {a t : Shape}
      {before after : FieldMap} {name : String} {target : FieldTarget}
      (hfields : FieldMap.ofObject ⟨l, ps, a⟩ d = before ++ (name, target) :: after)
      (hbefore : ∀ e ∈ before, Accepts table d (fieldOf es e.1) e.2.shape)
      (hx : get? es (.text name) = none)
      (rest : Descent table d .missing target.shape [] none .missing t) :
      Descent table d (.map es) (.object l ps a) [.key name] (some (.text name)) .missing t
  | other {es before after : Entries} {l : Nat} {ps : List (Property Shape)} {a t : Shape}
      {k x w : Value} {text : String} {path : List Segment} {key : Option Value}
      (hfields : ∀ e ∈ FieldMap.ofObject ⟨l, ps, a⟩ d,
        Accepts table d (fieldOf es e.1) e.2.shape)
      (hes : undeclared (.ofObject ⟨l, ps, a⟩ d) es = before ++ (k, x) :: after)
      (hbefore : ∀ e ∈ before, Accepts table d e.2 a) (hk : k.keyText? = some text)
      (rest : Descent table d x a path key w t) :
      Descent table d (.map es) (.object l ps a) (.key text :: path)
        (key.or (some k)) w t

/-- The shape itself refuses the value, whatever the parts of the value are like.  A union does so
if each of its members rejects the value, and a reference leaves it to its target. -/
def Refuses (table : Table) (d : Direction) (v : Value) : Shape → Prop
  | .ref _ => False
  | .array _ => elements? v = none
  | .object .. => ∀ es, v ≠ .map es
  | .union members => ∀ s ∈ members, ∃ r, run table d v s = .error (.rejected r)
  | s => leaf? d v s = none

theorem Descent.walk {v w : Value} {s t : Shape} {path : List Segment} {key : Option Value}
    (h : Descent table d v s path key w t) : Walk v path key w := by
  induction h with
  | here v s => exact .nil v
  | ref _ _ ih => exact ih
  | @item v x w before after items t path key hv _ _ ih =>
      have hx : (before ++ x :: after)[before.length]? = some x := by simp
      have hwalk := Walk.cons (.item hv hx) ih
      rwa [Option.or_none] at hwalk
  | field _ _ hx _ ih => exact .cons (.entry (mem_of_get? hx) rfl) ih
  | absentField _ _ hx _ _ => exact .absent hx
  | @other es before after l ps a t k x w text path key _ hes _ hk _ ih =>
      have he : (k, x) ∈ undeclared (.ofObject ⟨l, ps, a⟩ d) es := by simp [hes]
      exact .cons (.entry (List.mem_filter.mp he).1 hk) ih

theorem Descent.eq_of_missing {w : Value} {s t : Shape} {path : List Segment} {key : Option Value}
    (h : Descent table d .missing s path key w t) :
    path = [] ∧ key = none ∧ w = .missing := by
  generalize hm : Value.missing = v at h
  induction h with
  | here => exact ⟨rfl, rfl, rfl⟩
  | ref _ _ ih => exact ih hm
  | item hv _ _ _ =>
      rw [← hm] at hv
      cases hv
  | field | absentField | other => cases hm

theorem Descent.of_field {es : Entries} {l : Nat} {ps : List (Property Shape)} {a t : Shape}
    {before after : FieldMap} {name : String} {target : FieldTarget} {w : Value}
    {path : List Segment} {key : Option Value}
    (rest : Descent table d (fieldOf es name) target.shape path key w t)
    (hfields : FieldMap.ofObject ⟨l, ps, a⟩ d = before ++ (name, target) :: after)
    (hbefore : ∀ e ∈ before, Accepts table d (fieldOf es e.1) e.2.shape) :
    Descent table d (.map es) (.object l ps a) (.key name :: path)
      (key.or (some (.text name))) w t := by
  cases hx : get? es (.text name) with
  | some x =>
      rw [fieldOf, hx, Option.getD_some] at rest
      exact .field hfields hbefore hx rest
  | none =>
      rw [fieldOf, hx, Option.getD_none] at rest
      obtain ⟨rfl, rfl, rfl⟩ := rest.eq_of_missing
      exact .absentField hfields hbefore hx rest

/-! ## The part of a value at which a conversion stops -/

theorem exists_of_convertItems_eq_error {step : Nat → Value → Id Outcome} {stop : Stop} :
    ∀ {i : Nat} {xs : List Value}, (convertItems step i xs).run = .error stop →
      ∃ before x after, xs = before ++ x :: after ∧
        (∀ y ∈ before, ∃ j z, (step j y).run = .ok z) ∧
        (step (i + before.length) x).run = .error stop
  | _, [], h => by cases h
  | i, x :: xs, h => by
      rw [convertItems] at h
      cases hx : (step i x).run with
      | error e =>
          simp only [Id.run_bind, Id.run_pure, hx] at h
          obtain rfl := Except.error.inj h
          exact ⟨[], x, xs, rfl, by simp, hx⟩
      | ok y =>
          cases hxs : (convertItems step (i + 1) xs).run with
          | ok ys =>
              simp only [Id.run_bind, Id.run_pure, hx, hxs] at h
              cases h
          | error e =>
              simp only [Id.run_bind, Id.run_pure, hx, hxs] at h
              obtain rfl := Except.error.inj h
              obtain ⟨before, z, after, rfl, hbefore, hz⟩ := exists_of_convertItems_eq_error hxs
              refine ⟨x :: before, z, after, rfl, ?_, ?_⟩
              · exact List.forall_mem_cons.mpr ⟨⟨i, y, hx⟩, hbefore⟩
              · rw [List.length_cons, ← Nat.add_assoc, Nat.add_right_comm]
                exact hz

theorem exists_of_convertDeclared_eq_error {step : Place → Value → Shape → Id Outcome}
    {place : Place} {parent : String} {es : Entries} {stop : Stop} :
    ∀ {done : Entries} {fields : FieldMap},
      (convertDeclared step place parent es done fields).run = .error stop →
        ∃ before name target after, fields = before ++ (name, target) :: after ∧
          (∀ e ∈ before, ∃ p z, (step p (fieldOf es e.1) e.2.shape).run = .ok z) ∧
          (step (place.atField name parent) (fieldOf es name) target.shape).run = .error stop
  | _, [], h => by cases h
  | done, (name, target) :: fields, h => by
      rw [convertDeclared] at h
      simp only [← fieldOf.eq_1] at h
      cases hx : (step (place.atField name parent) (fieldOf es name) target.shape).run with
      | error e =>
          simp only [Id.run_bind, Id.run_pure, hx] at h
          obtain rfl := Except.error.inj h
          exact ⟨[], name, target, fields, rfl, by simp, hx⟩
      | ok y =>
          -- A field that is left out and one that is written go on alike.
          obtain ⟨done, h⟩ : ∃ done,
              (convertDeclared step place parent es done fields).run = .error stop := by
            cases y <;> exact ⟨_, by simpa only [Id.run_bind, hx] using h⟩
          obtain ⟨before, n, t, after, rfl, hbefore, hn⟩ := exists_of_convertDeclared_eq_error h
          refine ⟨(name, target) :: before, n, t, after, rfl, ?_, hn⟩
          exact List.forall_mem_cons.mpr ⟨⟨_, y, hx⟩, hbefore⟩

theorem exists_of_convertOthers_eq_rejected {step : Place → Value → Id Outcome} {place : Place}
    {parent : String} {fields : FieldMap} {r : Rejection} : ∀ {done es : Entries},
      (convertOthers step place parent fields done es).run = .error (.rejected r) →
        ∃ before k x after inner, undeclared fields es = before ++ (k, x) :: after ∧
          (∀ e ∈ before, ∃ p z, (step p e.2).run = .ok z) ∧
          place.atKey? k parent = some inner ∧ (step inner x).run = .error (.rejected r)
  | _, [], h => by cases h
  | done, (k, x) :: es, h => by
      rw [convertOthers] at h
      cases hd : fields.declares k with
      | true =>
          rw [hd, if_pos rfl] at h
          have hu : undeclared fields ((k, x) :: es) = undeclared fields es := by
            simp [undeclared, hd]
          rw [hu]
          exact exists_of_convertOthers_eq_rejected h
      | false =>
          rw [hd, if_neg (by simp)] at h
          have hu : undeclared fields ((k, x) :: es) = (k, x) :: undeclared fields es := by
            simp [undeclared, hd]
          rw [hu]
          cases hk : place.atKey? k parent with
          | none =>
              rw [hk] at h
              cases h
          | some inner =>
              rw [hk] at h
              cases hx : (step inner x).run with
              | error e =>
                  simp only [Id.run_bind, Id.run_pure, hx] at h
                  obtain rfl := Except.error.inj h
                  exact ⟨[], k, x, undeclared fields es, inner, rfl, by simp, hk, hx⟩
              | ok y =>
                  simp only [Id.run_bind, hx] at h
                  obtain ⟨before, k', x', after, inner', heq, hbefore, hk', hx'⟩ :=
                    exists_of_convertOthers_eq_rejected h
                  refine ⟨(k, x) :: before, k', x', after, inner', ?_, ?_, hk', hx'⟩
                  · rw [heq, List.cons_append]
                  · exact List.forall_mem_cons.mpr ⟨⟨_, y, hx⟩, hbefore⟩

/-- Trying members in turn never ends in a rejection: the union itself rejects. -/
theorem convertFirst_ne_rejected {step : Shape → Id Outcome} {r : Rejection} :
    ∀ ss : List Shape, (convertFirst step ss).run ≠ .error (.rejected r)
  | [], h => by cases h
  | s :: ss, h => by
      rw [convertFirst] at h
      cases hs : (step s).run with
      | ok y =>
          simp only [Id.run_bind, hs] at h
          cases h
      | error stop =>
          simp only [Id.run_bind, hs] at h
          cases stop with
          | rejected => exact convertFirst_ne_rejected ss h
          | _ => cases h

theorem reject_eq_rejected {place : Place} {expected : String} {actual : Value} {r : Rejection}
    (h : reject place expected actual = .rejected r) :
    r = ⟨expected, actual, place.key, place.parent, place.path⟩ := by
  rw [reject] at h
  split at h
  · exact (Stop.rejected.inj h).symm
  · cases h

/-! ## The way to a rejection -/

theorem accepts_of_convert {n : Nat} {via : Option String} {place : Place} {v y : Value}
    {s : Shape} (h : convertAfresh table d n via place v s = .ok y) :
    Accepts table d v s := by
  refine ⟨y, run_eq_ok_iff.mpr (final_of_verdict_ok (n := n) ?_)⟩
  rw [← forget_convert table d n via place v s, h, forget_ok]

theorem accepts_of_convertDeclared {n : Nat} {place : Place} {parent : String}
    {es done done' : Entries} {fields : FieldMap}
    (h : (convertDeclared (convert (m := Id) (fun o d => pure (FieldMap.ofObject o d)) table
      d n none) place parent es done fields).run = .ok done') :
    ∀ e ∈ fields, Accepts table d (fieldOf es e.1) e.2.shape := by
  have hverdict := forget_convertDeclared
    (fun p v s => forget_convert table d n none p v s) place parent es done fields
  rw [h, forget_ok] at hverdict
  obtain ⟨own, hown, -⟩ := map_eq_ok.mp hverdict.symm
  obtain ⟨f, hf, -⟩ := exists_of_mapM_eq_ok hown
  intro e he
  exact accepts_iff.mpr ⟨_, final_of_verdict_ok (hf e he)⟩

theorem refuses_union_of_convert {n : Nat} {via : Option String} {place : Place} {v : Value}
    {members : List Shape} {r : Rejection}
    (h : convertAfresh table d n via place v (.union members) = .error (.rejected r)) :
    Refuses table d v (.union members) := by
  have hverdict := forget_convert table d n via place v (.union members)
  rw [h, forget_error] at hverdict
  cases n with
  | zero => cases hverdict
  | succ n =>
      intro s hs
      have hmember := judgeFirst_eq_rejected hverdict.symm s hs
      exact exists_run_eq_rejected_iff.mpr (final_of_verdict (by simp) hmember)

/-- A rejection of a value at a place, whose path goes on from there along a descent to the value
that was refused and the shape that refused it. -/
def Traced (table : Table) (d : Direction) (place : Place) (v : Value) (s : Shape) (r : Rejection) :
    Prop :=
  ∃ path key t, r.path = place.path ++ path ∧ r.key = key.or place.key ∧
    Descent table d v s path key r.actual t ∧ Refuses table d r.actual t

section

variable {place : Place} {v x : Value} {s items a : Shape} {r : Rejection} {es : Entries} {l : Nat}
  {ps : List (Property Shape)}

theorem Traced.of_reject {expected : String} (h : reject place expected v = .rejected r)
    (hs : Refuses table d v s) : Traced table d place v s r := by
  obtain rfl := reject_eq_rejected h
  exact ⟨[], none, s, by simp, by simp, .here v s, hs⟩

theorem Traced.of_ref {name : String} (hg : table.get? name = some s)
    (h : Traced table d place v s r) : Traced table d place v (.ref name) r := by
  obtain ⟨path, key, t, hpath, hkey, hdescent, ht⟩ := h
  exact ⟨path, key, t, hpath, hkey, .ref hg hdescent, ht⟩

theorem Traced.of_item {before after : List Value} (hv : elements? v = some (before ++ x :: after))
    (hbefore : ∀ y ∈ before, Accepts table d y items)
    (h : Traced table d (place.atIndex before.length) x items r) :
    Traced table d place v (.array items) r := by
  obtain ⟨path, key, t, hpath, hkey, hdescent, ht⟩ := h
  refine ⟨.index before.length :: path, key, t, ?_, hkey, .item hv hbefore hdescent, ht⟩
  rw [hpath, Place.atIndex, List.append_assoc, List.singleton_append]

theorem Traced.of_field {before after : FieldMap} {name parent : String} {target : FieldTarget}
    (hfields : FieldMap.ofObject ⟨l, ps, a⟩ d = before ++ (name, target) :: after)
    (hbefore : ∀ e ∈ before, Accepts table d (fieldOf es e.1) e.2.shape)
    (h : Traced table d (place.atField name parent) (fieldOf es name) target.shape r) :
    Traced table d place (.map es) (.object l ps a) r := by
  obtain ⟨path, key, t, hpath, hkey, hdescent, ht⟩ := h
  refine ⟨.key name :: path, key.or (some (.text name)), t, ?_, ?_,
    hdescent.of_field hfields hbefore, ht⟩
  · rw [hpath, Place.atField, List.append_assoc, List.singleton_append]
  · rw [hkey, Place.atField, Option.or_assoc, Option.some_or]

theorem Traced.of_other {before after : Entries} {k : Value} {parent : String} {inner : Place}
    (hfields : ∀ e ∈ FieldMap.ofObject ⟨l, ps, a⟩ d, Accepts table d (fieldOf es e.1) e.2.shape)
    (hes : undeclared (.ofObject ⟨l, ps, a⟩ d) es = before ++ (k, x) :: after)
    (hbefore : ∀ e ∈ before, Accepts table d e.2 a) (hk : place.atKey? k parent = some inner)
    (h : Traced table d inner x a r) : Traced table d place (.map es) (.object l ps a) r := by
  obtain ⟨path, key, t, hpath, hkey, hdescent, ht⟩ := h
  obtain ⟨text, htext, rfl⟩ := Option.map_eq_some_iff.mp hk
  refine ⟨.key text :: path, key.or (some k), t, ?_, ?_,
    .other hfields hes hbefore htext hdescent, ht⟩
  · rw [hpath, List.append_assoc, List.singleton_append]
  · rw [hkey, Option.or_assoc, Option.some_or]

end

theorem traced_of_convert : ∀ {n : Nat} {via : Option String} {place : Place} {v : Value}
    {s : Shape} {r : Rejection},
    convertAfresh table d n via place v s = .error (.rejected r) → Traced table d place v s r
  | 0, _, _, _, _, _, h => by cases h
  | n + 1, via, place, v, s, r, h => by
      cases s with
      | ref name =>
          simp only [convertAfresh, convert] at h
          cases hg : table.get? name with
          | none =>
              rw [hg] at h
              cases h
          | some target =>
              rw [hg] at h
              exact .of_ref hg (traced_of_convert h)
      | array items =>
          cases he : elements? v with
          | none =>
              have hr : reject place "array" v = .rejected r := by
                cases v <;> first | exact Except.error.inj h | cases he
              exact .of_reject hr he
          | some xs =>
              have hitems : (convertItems (fun i x => convert (m := Id)
                  (fun o d => pure (FieldMap.ofObject o d)) table d n none
                  (place.atIndex i) x items) 0 xs).run = .error (.rejected r) := by
                rcases elements?_eq_some he with rfl | rfl
                · exact map_eq_error.mp h
                · exact map_eq_error.mp h
              obtain ⟨before, x, after, rfl, hbefore, hx⟩ :=
                exists_of_convertItems_eq_error hitems
              rw [Nat.zero_add] at hx
              refine .of_item he (fun y hy => ?_) (traced_of_convert hx)
              obtain ⟨j, z, hz⟩ := hbefore y hy
              exact accepts_of_convert hz
      | union members =>
          have hrefuses := refuses_union_of_convert h
          simp only [convertAfresh, convert, Id.run_bind] at h
          split at h
          · rename_i stop hfirst
            obtain rfl := Except.error.inj h
            exact absurd hfirst (convertFirst_ne_rejected members)
          · cases h
          · exact .of_reject (Except.error.inj h) hrefuses
      | object l ps a =>
          cases v with
          | map es =>
              simp only [convertAfresh, convert, Id.run_bind, Id.run_pure] at h
              split at h
              · rename_i stop hdeclared
                obtain rfl := Except.error.inj h
                obtain ⟨before, name, target, after, hfields, hbefore, hx⟩ :=
                  exists_of_convertDeclared_eq_error hdeclared
                refine .of_field hfields (fun e he => ?_) (traced_of_convert hx)
                obtain ⟨p, z, hz⟩ := hbefore e he
                exact accepts_of_convert hz
              · rename_i done hdeclared
                obtain ⟨before, k, x, after, inner, hes, hbefore, hk, hx⟩ :=
                  exists_of_convertOthers_eq_rejected (map_eq_error.mp h)
                refine .of_other (accepts_of_convertDeclared hdeclared) hes (fun e he => ?_) hk
                  (traced_of_convert hx)
                obtain ⟨p, z, hz⟩ := hbefore e he
                exact accepts_of_convert hz
          | _ => exact .of_reject (Except.error.inj h) (by simp [Refuses])
      | any | primitive | literals | null | absent | never | date =>
          rw [convertAfresh_leaf rfl] at h
          split at h
          · cases h
          · rename_i hleaf
            exact .of_reject (Except.error.inj h) hleaf

/-- The path of a rejection is a walk to the refused value, with the key of the rejection as the
last one on it; and it is a descent, which enters no member of a union, to the shape that
refused. -/
theorem walk_of_run_rejected {v : Value} {s : Shape} {r : Rejection}
    (h : run table d v s = .error (.rejected r)) :
    Walk v r.path r.key r.actual ∧
      ∃ t, Descent table d v s r.path r.key r.actual t ∧
        Refuses table d r.actual t := by
  obtain ⟨path, key, t, hpath, hkey, hdescent, ht⟩ := traced_of_convert h
  rw [Place.top, List.nil_append] at hpath
  rw [Place.top, Option.or_none] at hkey
  rw [hpath, hkey]
  exact ⟨hdescent.walk, t, hdescent, ht⟩

/-- Lists of rows, each under a key of its own; a row may be missing, and its cell is a text. -/
def rowLists : Shape :=
  .object 0 [] (.array (.optional (.object 1 [⟨"cell", "cell", .primitive .string, none⟩] .never)))

/-- A row whose cell is null is refused as a whole, since a choice is what refuses it. -/
theorem walk_of_run_rejected_row :
    let row : Value := .map [(.text "cell", .null)]
    let rows : Value := .map [(.bool true, .list [row])]
    let r : Rejection :=
      ⟨"an optional object", row, some (.bool true), "", [.key "True", .index 0]⟩
    run .empty .decode rows rowLists = .error (.rejected r) ∧
      Walk rows [.key "True", .index 0] (some (.bool true)) row ∧
      ∃ t, Descent .empty .decode rows rowLists [.key "True", .index 0] (some (.bool true)) row t ∧
        Refuses .empty .decode row t := by
  intro row rows r
  have hrun : run .empty .decode rows rowLists = .error (.rejected r) := by with_unfolding_all rfl
  exact ⟨hrun, walk_of_run_rejected hrun⟩

end Conform.Conversion
