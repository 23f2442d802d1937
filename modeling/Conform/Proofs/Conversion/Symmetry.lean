import Conform.Proofs.Conversion.Conformance
import Conform.Proofs.Conversion.Final
import Conform.Proofs.Conversion.Resolution
import Conform.Proofs.Mirror

/-!
# The directions mirror each other

A conversion in one direction goes as the one in the other direction does with the names of all
fields exchanged.  The two read the same names and write the same names, they describe shapes with
the same words, and so they keep step, up to one difference: what comes out for a point in time
depends on the direction.  That does not show anywhere else, for no conversion looks at what another
one gives, except for `missing`, which decides about what an object holds but not about whether it
is accepted.

So both convert, or both reject, with the same rejection, or neither has an end, or both stop at an
overlong integer that they cannot put into words (`run_mirror`).  The last two cases are there
(`mirrored_without_answer`), since being a table does not exclude a union that leads back to itself,
and being a value does not exclude an overlong integer.
-/

namespace Conform.Conversion

open Value Traversal

/-! ## Alike outcomes -/

/-- Both fail for one reason, or both succeed, with related results. -/
inductive Alike {ε α β : Type} (R : α → β → Prop) : Except ε α → Except ε β → Prop
  | error (e : ε) : Alike R (.error e) (.error e)
  | ok {a : α} {b : β} (h : R a b) : Alike R (.ok a) (.ok b)

namespace Alike

variable {ε α β γ δ : Type} {R : α → β → Prop} {S : γ → δ → Prop} {x : Except ε α} {y : Except ε β}

theorem of_eq {x' : Except ε α} {y' : Except ε β} (hx : x = x') (hy : y = y')
    (h : Alike R x' y') : Alike R x y := by
  rw [hx, hy]
  exact h

theorem imp {R' : α → β → Prop} (h : Alike R x y) (hR : ∀ a b, R a b → R' a b) :
    Alike R' x y := by
  cases h with
  | error e => exact .error e
  | ok h => exact .ok (hR _ _ h)

theorem bind {f : α → Except ε γ} {g : β → Except ε δ} (h : Alike R x y)
    (hfg : ∀ a b, R a b → Alike S (f a) (g b)) : Alike S (x >>= f) (y >>= g) := by
  cases h with
  | error e => exact .error e
  | ok h => exact hfg _ _ h

theorem map {f : α → γ} {g : β → δ} (h : Alike R x y) (hfg : ∀ a b, R a b → S (f a) (g b)) :
    Alike S (x.map f) (y.map g) := by
  cases h with
  | error e => exact .error e
  | ok h => exact .ok (hfg _ _ h)

end Alike

/-- Equal, as far as `exact` holds. -/
def Agree {α : Type} (exact : Prop) (a b : α) : Prop := exact → a = b

theorem Alike.eq {ε α : Type} {exact : Prop} {x y : Except ε α} (h : Alike (Agree exact) x y)
    (he : exact) : x = y := by
  cases h with
  | error e => rfl
  | ok hab => rw [hab he]

theorem Agree.refl {α : Type} {exact : Prop} (a : α) : Agree exact a a := fun _ => rfl

/-! ## Parts of a conversion as chains of outcomes -/

theorem convertItems_cons (step : Nat → Value → Id Outcome) (i : Nat) (x : Value)
    (xs : List Value) : (convertItems step i (x :: xs)).run =
      (step i x).run >>= fun y => (convertItems step (i + 1) xs).run.map (y :: ·) := by
  rw [convertItems, Id.run_bind]
  cases (step i x).run with
  | error e => rfl
  | ok y =>
      rw [Id.run_bind]
      cases (convertItems step (i + 1) xs).run <;> rfl

/-- The entries after a field has been converted. -/
def stored (done : Entries) (name : String) : Value → Entries
  | .missing => done
  | y => put done (.text name) y

theorem convertDeclared_cons (step : Place → Value → Shape → Id Outcome) (place : Place)
    (parent : String) (es done : Entries) (e : String × FieldTarget) (fields : FieldMap) :
    (convertDeclared step place parent es done (e :: fields)).run =
      (step (place.atField e.1 parent) (fieldOf es e.1) e.2.shape).run >>= fun y =>
        (convertDeclared step place parent es (stored done e.2.name y) fields).run := by
  rw [convertDeclared, Id.run_bind, ← fieldOf.eq_1]
  cases (step (place.atField e.1 parent) (fieldOf es e.1) e.2.shape).run with
  | error e => rfl
  | ok y => cases y <;> rfl

theorem convertOthers_cons (step : Place → Value → Id Outcome) (place : Place) (parent : String)
    (fields : FieldMap) (done es : Entries) (key v : Value) :
    (convertOthers step place parent fields done ((key, v) :: es)).run =
      if fields.declares key then (convertOthers step place parent fields done es).run
      else match place.atKey? key parent with
        | none => .error .numeral
        | some inner => (step inner v).run >>= fun y =>
          (convertOthers step place parent fields (put done key y) es).run := by
  rw [convertOthers]
  split
  · rfl
  · cases place.atKey? key parent with
    | none => rfl
    | some inner =>
        dsimp only
        rw [Id.run_bind]
        cases (step inner v).run <;> rfl

/-- What comes out for a map: its declared fields are converted, and then the rest. -/
def fieldsOutcome (step : Place → Value → Shape → Id Outcome) (place : Place) (parent : String)
    (fields : FieldMap) (additional : Shape) (es : Entries) : Outcome := do
  let done ← (convertDeclared step place parent es [] fields).run
  (convertOthers (fun p v => step p v additional) place parent fields done es).run.map .map

theorem convertFields_eq (step : Place → Value → Shape → Id Outcome) (place : Place)
    (parent : String) (fields : FieldMap) (additional : Shape) (es : Entries) :
    (Id.run do
      match ← convertDeclared step place parent es [] fields with
      | .error stop => pure (.error stop)
      | .ok done => do
        let whole ← convertOthers (fun p v => step p v additional) place parent fields done es
        pure (whole.map .map)) = fieldsOutcome step place parent fields additional es := by
  rw [Id.run_bind, fieldsOutcome]
  cases (convertDeclared step place parent es [] fields).run <;> rfl

/-- The outcome when no shape accepts is a stop. -/
def orStop (stop : Stop) : Option Value → Outcome
  | some y => .ok y
  | none => .error stop

theorem convertMembers_eq (step : Shape → Id Outcome) (ss : List Shape) (stop : Stop) :
    (Id.run do
      match ← convertFirst step ss with
      | .error stop => pure (.error stop)
      | .ok (some y) => pure (.ok y)
      | .ok none => pure (.error stop)) = (convertFirst step ss).run >>= orStop stop := by
  rw [Id.run_bind]
  cases (convertFirst step ss).run with
  | error e => rfl
  | ok y => cases y <;> rfl

/-! ## Parts of a conversion keep step -/

section Parts

variable {exact : Prop}

theorem alike_convertItems {step step' : Nat → Value → Id Outcome}
    (h : ∀ i x, Alike (Agree exact) (step i x).run (step' i x).run) :
    ∀ (i : Nat) (xs : List Value),
      Alike (Agree exact) (convertItems step i xs).run (convertItems step' i xs).run
  | _, [] => .ok (.refl [])
  | i, x :: xs => by
      rw [convertItems_cons, convertItems_cons]
      refine (h i x).bind fun y z hyz => (alike_convertItems h (i + 1) xs).map fun ys zs hyzs => ?_
      intro he
      rw [hyz he, hyzs he]

/-- The first member that accepts is the same on both sides. -/
theorem alike_convertFirst {step step' : Shape → Id Outcome} {f : Shape → Shape} :
    ∀ {ss : List Shape}, (∀ s ∈ ss, Alike (Agree exact) (step s).run (step' (f s)).run) →
      Alike (Option.Rel (Agree exact)) (convertFirst step ss).run (convertFirst step' (ss.map f)).run
  | [], _ => .ok .none
  | s :: ss, h => by
      have ih := alike_convertFirst fun q hq => h q (List.mem_cons_of_mem s hq)
      have hs := h s List.mem_cons_self
      rw [List.map_cons, convertFirst, convertFirst, Id.run_bind, Id.run_bind]
      generalize (step s).run = x, (step' (f s)).run = y at hs
      cases hs with
      | ok hyz => exact .ok (.some hyz)
      | error e =>
          cases e with
          | rejected r => exact ih
          | _ => exact .error _

theorem alike_convertMembers {step step' : Shape → Id Outcome} {f : Shape → Shape}
    {ss : List Shape} (h : ∀ s ∈ ss, Alike (Agree exact) (step s).run (step' (f s)).run)
    (stop : Stop) : Alike (Agree exact) ((convertFirst step ss).run >>= orStop stop)
      ((convertFirst step' (ss.map f)).run >>= orStop stop) := by
  refine (alike_convertFirst h).bind fun x y hxy => ?_
  cases hxy with
  | none => exact .error _
  | some hyz => exact .ok hyz

theorem alike_convertDeclared {step step' : Place → Value → Shape → Id Outcome} {place : Place}
    {parent : String} {es : Entries} : ∀ {fields : FieldMap} {done done' : Entries},
      (∀ e ∈ fields, ∀ p v,
        Alike (Agree exact) (step p v e.2.shape).run (step' p v e.2.shape.mirror).run) →
      Agree exact done done' →
      Alike (Agree exact) (convertDeclared step place parent es done fields).run
        (convertDeclared step' place parent es done' fields.mirror).run
  | [], _, _, _, hdone => .ok hdone
  | e :: fields, done, done', h, hdone => by
      rw [FieldMap.mirror, List.map_cons, ← FieldMap.mirror, convertDeclared_cons,
        convertDeclared_cons]
      refine (h e List.mem_cons_self _ _).bind fun y z hyz => ?_
      refine alike_convertDeclared (fun e' he' => h e' (List.mem_cons_of_mem e he')) fun he => ?_
      rw [hdone he, hyz he]

theorem alike_convertOthers {step step' : Place → Value → Id Outcome}
    (h : ∀ p v, Alike (Agree exact) (step p v).run (step' p v).run) (place : Place)
    (parent : String) (fields : FieldMap) : ∀ {es done done' : Entries}, Agree exact done done' →
      Alike (Agree exact) (convertOthers step place parent fields done es).run
        (convertOthers step' place parent fields.mirror done' es).run
  | [], _, _, hdone => .ok hdone
  | (key, v) :: es, done, done', hdone => by
      rw [convertOthers_cons, convertOthers_cons, FieldMap.declares_mirror]
      split
      · exact alike_convertOthers h place parent fields hdone
      · cases place.atKey? key parent with
        | none => exact .error _
        | some inner =>
            refine (h inner v).bind fun y z hyz => ?_
            refine alike_convertOthers h place parent fields fun he => ?_
            rw [hdone he, hyz he]

theorem alike_convertFields {step step' : Place → Value → Shape → Id Outcome} {place : Place}
    {parent : String} {fields : FieldMap} {additional : Shape} {es : Entries}
    (hown : ∀ e ∈ fields, ∀ p v,
      Alike (Agree exact) (step p v e.2.shape).run (step' p v e.2.shape.mirror).run)
    (hother : ∀ p v,
      Alike (Agree exact) (step p v additional).run (step' p v additional.mirror).run) :
    Alike (Agree exact) (fieldsOutcome step place parent fields additional es)
      (fieldsOutcome step' place parent fields.mirror additional.mirror es) := by
  refine (alike_convertDeclared hown (.refl [])).bind fun done done' hdone => ?_
  exact (alike_convertOthers hother place parent fields hdone).map
    fun ys zs hyzs he => congrArg Value.map (hyzs he)

end Parts

/-! ## Conversions keep step -/

theorem alike_leaf? (d : Direction) (v : Value) (s : Shape) :
    Option.Rel (Agree (s ≠ .date)) (leaf? d v s) (leaf? d.opposite v s) := by
  by_cases hs : s = .date
  · subst hs
    have hany (a b : Value) : Agree (Shape.date ≠ .date) a b := fun h => absurd rfl h
    cases v with
    | null => exact .some (hany _ _)
    | _ =>
        dsimp only [leaf?]
        cases momentOf? _ with
        | none => exact .none
        | some m => exact .some (hany _ _)
  · have heq : leaf? d.opposite v s = leaf? d v s := by
      cases s with
      | date => exact absurd rfl hs
      | _ => rfl
    rw [heq]
    cases leaf? d v s with
    | none => exact .none
    | some y => exact .some (.refl y)

theorem alike_convert_leaf {table table' : Table} {d : Direction} {n : Nat} {via : Option String}
    {place : Place} {v : Value} {s : Shape} (hs : isLeaf s = true) :
    Alike (Agree (s ≠ .date)) (convertAfresh table d (n + 1) via place v s)
      (convertAfresh table' d.opposite (n + 1) via place v s) := by
  rw [convertAfresh_leaf hs, convertAfresh_leaf hs]
  have hleaf := alike_leaf? d v s
  generalize leaf? d v s = x, leaf? d.opposite v s = y at hleaf
  cases hleaf with
  | none => exact .error _
  | some h => exact .ok h

/-- Nothing stands for a point in time, neither in the table nor in the shape. -/
structure Timeless (table : Table) (s : Shape) : Prop where
  table : table.Everywhere (· ≠ .date)
  shape : s.Everywhere (· ≠ .date)

theorem Timeless.child {table : Table} {c s : Shape} (h : Timeless table s) (hc : c ∈ s.children) :
    Timeless table c :=
  ⟨h.table, h.shape.child hc⟩

/-- A conversion and the mirrored one in the other direction, at the same place and with the same
number of steps. -/
theorem alike_convert (table : Table) (d : Direction) : ∀ (n : Nat) (via : Option String)
    (place : Place) (v : Value) (s : Shape),
      Alike (Agree (Timeless table s)) (convertAfresh table d n via place v s)
        (convertAfresh table.mirror d.opposite n via place v s.mirror)
  | 0, _, _, _, _ => .error _
  | n + 1, via, place, v, s => by
      have hchild {c : Shape} (hc : c ∈ s.children) (p : Place) (w : Value) :
          Alike (Agree (Timeless table s)) (convertAfresh table d n none p w c)
            (convertAfresh table.mirror d.opposite n none p w c.mirror) :=
        (alike_convert table d n none p w c).imp fun _ _ h hs => h (hs.child hc)
      cases s with
      | ref name =>
          have htarget := fun target => alike_convert table d n (some name) place v target
          simp only [convertAfresh, Shape.mirror, convert, Table.get?_mirror]
          cases hg : table.get? name with
          | none => exact .error _
          | some target =>
              exact (htarget target).imp fun _ _ h hs => h ⟨hs.table, hs.table.of_get? hg⟩
      | array items =>
          simp only [convertAfresh, Shape.mirror, convert]
          cases v with
          | list xs | tuple xs =>
              exact (alike_convertItems (fun i x => hchild List.mem_cons_self _ x) 0 xs).map
                fun ys zs hyzs he => congrArg Value.list (hyzs he)
          | _ => exact .error _
      | union members =>
          have hwords := (Shape.union members).describe_mirror
          rw [Shape.mirror_union] at hwords
          simp only [convertAfresh, Shape.mirror_union, convert, hwords]
          exact .of_eq (convertMembers_eq _ _ _) (convertMembers_eq _ _ _)
            (alike_convertMembers (fun q hq => hchild hq place v) _)
      | object label properties additional =>
          simp only [convertAfresh, Shape.mirror_object, convert]
          cases v with
          | map es =>
              have hown {e : String × FieldTarget}
                  (he : e ∈ FieldMap.ofObject ⟨label, properties, additional⟩ d) :=
                hchild (FieldMap.shape_mem_children he)
              have hother := hchild (List.mem_append_right _ List.mem_cons_self)
              simp only [pure_bind, FieldMap.ofObject_mirror]
              exact .of_eq (convertFields_eq _ _ _ _ _ _) (convertFields_eq _ _ _ _ _ _)
                (alike_convertFields (fun _ he => hown he) hother)
          | _ => exact .error _
      | primitive | literals | null | absent | never | date | any =>
          exact (alike_convert_leaf rfl).imp fun _ _ h hs => h hs.shape.here

/-! ## Runs mirror each other -/

variable {table : Table} {d : Direction} {v : Value} {s : Shape}

theorem alike_run (table : Table) (d : Direction) (v : Value) (s : Shape) :
    Alike (Agree (Timeless table s)) (run table d v s) (run table.mirror d.opposite v s.mirror) := by
  have hbudget : budget table.mirror v s.mirror = budget table v s := by
    rw [budget, budget, Table.size_mirror, Shape.size_mirror]
  rw [run, run, runWith, runWith, hbudget]
  exact alike_convert table d _ none .top v s

theorem namesDistinct_mirror (h : s.NamesDistinct) : s.mirror.NamesDistinct := by
  cases s with
  | object l ps a =>
      rw [Shape.mirror_object]
      exact Shape.repeatedName?_mirrorField h
  | union ss =>
      rw [Shape.mirror_union]
      trivial
  | _ => trivial

theorem everywhere_namesDistinct_mirror (h : s.Everywhere Shape.NamesDistinct) :
    s.mirror.Everywhere Shape.NamesDistinct := by
  intro p hp
  rw [Shape.parts_mirror] at hp
  obtain ⟨q, hq, rfl⟩ := List.mem_map.mp hp
  exact namesDistinct_mirror (h q hq)

/-- Both are rejected, with the same rejection, or both are converted. -/
def EndAlike (x y : Outcome) : Prop :=
  (∃ r, x = .error (.rejected r) ∧ y = .error (.rejected r)) ∨ (∃ a, x = .ok a) ∧ ∃ b, y = .ok b

/-- The mirror of a table is a table, and has distinct names where the table has.  A conversion and
the mirrored one in the other direction end alike, unless neither ends, for want of a table that is
productive, or both stop at an overlong integer; and where nothing stands for a point in time they
have the same outcome. -/
theorem run_mirror (hs : s.references ⊆ table.names) :
    (Table.build table.mirror.entries = .ok table.mirror ∧
      (table.Everywhere Shape.NamesDistinct → table.mirror.Everywhere Shape.NamesDistinct) ∧
      (s.Everywhere Shape.NamesDistinct → s.mirror.Everywhere Shape.NamesDistinct)) ∧
    (EndAlike (run table d v s) (run table.mirror d.opposite v s.mirror) ∨
      (¬ table.Productive ∧ run table d v s = .error .unbounded ∧
        run table.mirror d.opposite v s.mirror = .error .unbounded) ∨
      ¬ v.isWritable = true ∧ run table d v s = .error .numeral ∧
        run table.mirror d.opposite v s.mirror = .error .numeral) ∧
    (table.Everywhere (· ≠ .date) → s.Everywhere (· ≠ .date) →
      run table.mirror d.opposite v s.mirror = run table d v s) := by
  have halike := alike_run table d v s
  refine ⟨⟨table.mirror.build_entries, fun h => ?_, everywhere_namesDistinct_mirror⟩, ?_, ?_⟩
  · refine h.related (fun p q hpq hp => ?_) table.entries.related_mirror
    rw [hpq]
    exact everywhere_namesDistinct_mirror hp
  · have hunknown (name : String) : run table d v s ≠ .error (.unknownType name) :=
      convert_ne_unknownType hs _ none .top v name
    have hnumeral : run table d v s = .error .numeral → ¬ v.isWritable = true :=
      fun h hv => final_ne_numeral hv (run_eq_numeral_iff.mp h)
    have hunbounded : run table d v s = .error .unbounded → ¬ table.Productive :=
      fun h ht => final_ne_unbounded ht (run_eq_unbounded_iff.mp h)
    generalize run table d v s = x, run table.mirror d.opposite v s.mirror = y at *
    cases halike with
    | ok => exact Or.inl (Or.inr ⟨⟨_, rfl⟩, _, rfl⟩)
    | error stop =>
        cases stop with
        | rejected r => exact Or.inl (Or.inl ⟨r, rfl, rfl⟩)
        | unknownType name => exact absurd rfl (hunknown name)
        | unbounded => exact Or.inr (Or.inl ⟨hunbounded rfl, rfl, rfl⟩)
        | numeral => exact Or.inr (Or.inr ⟨hnumeral rfl, rfl, rfl⟩)
  · exact fun htable hshape => (halike.eq ⟨htable, hshape⟩).symm

theorem dateless_binaryTrees : Table.binaryTrees.Everywhere (· ≠ .date) := by
  simp [Table.Everywhere, Table.binaryTrees, Shape.Everywhere, Shape.optional, Shape.parts,
    Shape.partsOfList, Shape.partsOfProperties]

/-- A tree with a number for a branch is rejected alike, and one with a branch comes out alike. -/
theorem run_mirror_binaryTrees :
    let wrong : Value := .map [(.text "left", .int 7)]
    let tree : Value := .map [(.text "left", .map []), (.text "remark", .int 7)]
    Table.binaryTrees.mirror.entries ≠ Table.binaryTrees.entries ∧
      EndAlike (run .binaryTrees .encode wrong (.ref "Tree"))
        (run Table.binaryTrees.mirror .decode wrong (.ref "Tree")) ∧
      run Table.binaryTrees.mirror .decode tree (.ref "Tree") =
        .ok (.map [(.text "right", .map []), (.text "remark", .int 7)]) := by
  intro wrong tree
  have hs : (Shape.ref "Tree").references ⊆ Table.binaryTrees.names := by decide
  have hshape : (Shape.ref "Tree").Everywhere (· ≠ .date) := by simp [Shape.Everywhere, Shape.parts]
  obtain ⟨-, hwrong, -⟩ := run_mirror (d := .encode) (v := wrong) hs
  obtain ⟨-, -, htree⟩ := run_mirror (d := .encode) (v := tree) hs
  refine ⟨by decide, ?_, ?_⟩
  · rcases hwrong with h | ⟨h, -⟩ | ⟨h, -⟩
    · exact h
    · exact absurd Table.productive_binaryTrees h
    · exact absurd (by decide +kernel) h
  · refine (htree dateless_binaryTrees hshape).trans ?_
    with_unfolding_all rfl

theorem not_endAlike {stop : Stop} {y : Outcome} (hstop : ∀ r, stop ≠ .rejected r) :
    ¬ EndAlike (.error stop) y := by
  rintro (⟨r, hr, -⟩ | ⟨⟨a, ha⟩, -⟩)
  · exact hstop r (Except.error.inj hr)
  · cases ha

/-- A union with itself for its only member. -/
def endlessTable : Table where
  entries := [("A", .union [.ref "A"])]
  distinct := by decide
  closed := by decide
  grounded := by decide

/-- The members of an endless union are followed without end, in either direction: the value is
neither rejected nor converted.  Nor is an overlong integer where a string is expected, for that it
is rejected has to be put into words. -/
theorem mirrored_without_answer :
    let long : Value := .int (10 ^ 4300)
    ((Shape.ref "A").references ⊆ endlessTable.names ∧
      Table.build [("A", .union [.ref "A"])] = .ok endlessTable ∧
      ¬ EndAlike (run endlessTable .encode .null (.ref "A"))
        (run endlessTable.mirror .decode .null (Shape.ref "A").mirror)) ∧
    (Shape.primitive .string).references ⊆ Table.empty.names ∧
      Table.build [] = .ok .empty ∧
      ¬ EndAlike (run .empty .encode long (.primitive .string))
        (run Table.empty.mirror .decode long (Shape.primitive .string).mirror) := by
  intro long
  refine ⟨⟨by decide, endlessTable.build_entries, ?_⟩, by decide, Table.empty.build_entries, ?_⟩
  · have hrun : run endlessTable .encode .null (.ref "A") = .error .unbounded := by
      with_unfolding_all rfl
    rw [hrun]
    exact not_endAlike (by simp)
  · have hrun : run .empty .encode long (.primitive .string) = .error .numeral :=
      run_eq_numeral_iff.mpr (final_leaf_eq_numeral rfl rfl (by decide +kernel))
    rw [hrun]
    exact not_endAlike (by simp)

end Conform.Conversion
