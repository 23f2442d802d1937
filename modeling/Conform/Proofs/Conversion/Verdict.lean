import Conform.Conversion.Basic
import Conform.Proofs.FieldMap
import Conform.Proofs.Traversal
import Conform.Proofs.Value.Entries

/-!
# Verdicts

The outcome of a conversion without the words of a rejection: the converted value, or which kind of
stop there was.  Where a value stands and by which name its shape was reached matter for the words
alone, so a verdict depends on the value and the shape only.

`judge` decides about a value and a shape when the verdicts about their parts are known, and
`verdict` does so in at most so many nested steps.  `forget_convert` says that this is what
`Conversion.convert` computes.
-/

namespace Conform

/-- Why a conversion gives no value, without the words. -/
inductive Halt where
  /-- A value does not have the expected shape. -/
  | rejected
  /-- A reference to a name that the table does not have. -/
  | unknownType (name : String)
  /-- The conversion has not ended. -/
  | unbounded
  /-- A value with an overlong integer would have to be put into words. -/
  | numeral
deriving DecidableEq

def Stop.halt : Stop → Halt
  | .rejected _ => .rejected
  | .unknownType name => .unknownType name
  | .unbounded => .unbounded
  | .numeral => .numeral

namespace Conversion

open Value

abbrev Verdict := Except Halt Value

def forget {α : Type} : Except Stop α → Except Halt α := Except.mapError Stop.halt

@[simp] theorem forget_ok {α : Type} (a : α) : forget (.ok a) = .ok a := rfl

@[simp] theorem forget_error {α : Type} (stop : Stop) :
    forget (.error stop : Except Stop α) = .error stop.halt := rfl

/-- The stop at a value that does not have the expected shape. -/
def refusal (value : Value) : Halt := if value.isWritable then .rejected else .numeral

theorem halt_reject (place : Place) (expected : String) (actual : Value) :
    (reject place expected actual).halt = refusal actual := by
  rw [reject, refusal]
  split <;> rfl

/-! ## One step -/

def elements? : Value → Option (List Value)
  | .list xs | .tuple xs => some xs
  | _ => none

/-- What a shape without parts makes of a value. -/
def leaf? (direction : Direction) (value : Value) : Shape → Option Value
  | .any => some value
  | .primitive kind => if isPrimitive kind value then some value else none
  | .literals values =>
    match value with
    | .text s => if s ∈ values then some value else none
    | _ => none
  | .null =>
    match value with
    | .null => some .null
    | _ => none
  | .absent =>
    match value with
    | .missing => some .missing
    | _ => none
  | .date =>
    match value with
    | .null => some .null
    | _ => (momentOf? value).map (convertMoment direction)
  | _ => none

/-- The verdict from what a shape without parts makes of a value. -/
def ofLeaf (value : Value) : Option Value → Verdict
  | some y => .ok y
  | none => .error (refusal value)

theorem ofLeaf_eq_ok {value y : Value} : ∀ {x : Option Value},
    ofLeaf value x = .ok y ↔ x = some y
  | some _ => by rw [ofLeaf, Except.ok.injEq, Option.some.injEq]
  | none => by simp [ofLeaf]

theorem ofLeaf_eq_error {value : Value} {halt : Halt} : ∀ {x : Option Value},
    ofLeaf value x = .error halt → halt = refusal value
  | some _, h => by cases h
  | none, h => (Except.error.inj h).symm

/-- The verdict of the first shape that does not reject. -/
def judgeFirst (ask : Value → Shape → Verdict) (value : Value) : List Shape → Verdict
  | [] => .error (refusal value)
  | s :: ss =>
    match ask value s with
    | .error .rejected => judgeFirst ask value ss
    | verdict => verdict

def undeclared (fields : FieldMap) (es : Entries) : Entries :=
  es.filter fun e => !fields.declares e.1

/-- The verdict about an undeclared entry, whose key has to be put into words. -/
def judgeOther (ask : Value → Shape → Verdict) (additional : Shape) (e : Value × Value) : Verdict :=
  if e.1.keyText?.isSome then ask e.2 additional else .error .numeral

/-- The entries of a converted object: its fields in order of declaration, then the rest. -/
def assembled (fields : FieldMap) (es : Entries) (own others : List Value) : Entries :=
  written fields.targets own ++ ((undeclared fields es).map (·.1)).zip others

/-- The verdict about a map and an object with a field map. -/
def judgeObject (ask : Value → Shape → Verdict) (fields : FieldMap) (additional : Shape)
    (es : Entries) : Verdict := do
  let own ← fields.mapM fun e => ask (fieldOf es e.1) e.2.shape
  let others ← (undeclared fields es).mapM (judgeOther ask additional)
  return ofEntries (assembled fields es own others)

/-- The verdict about a value and a shape, given those about what they are made of. -/
def judge (table : Table) (direction : Direction) (ask : Value → Shape → Verdict)
    (value : Value) : Shape → Verdict
  | .ref name =>
    match table.get? name with
    | some target => ask value target
    | none => .error (.unknownType name)
  | .array items =>
    match elements? value with
    | some xs => (xs.mapM fun x => ask x items).map .list
    | none => .error (refusal value)
  | .union members => judgeFirst ask value members
  | .object label properties additional =>
    match value with
    | .map es => judgeObject ask (.ofObject ⟨label, properties, additional⟩ direction) additional es
    | _ => .error (refusal value)
  | shape => ofLeaf value (leaf? direction value shape)

/-- The verdict about a value and a shape in at most so many nested steps. -/
def verdict (table : Table) (direction : Direction) : Nat → Value → Shape → Verdict
  | 0, _, _ => .error .unbounded
  | n + 1, value, shape => judge table direction (verdict table direction n) value shape

/-! ## The verdict is what a conversion computes -/

abbrev convertAfresh (table : Table) (direction : Direction) (n : Nat) (via : Option String)
    (place : Place) (value : Value) (shape : Shape) : Outcome :=
  Id.run (convert (fun o d => pure (FieldMap.ofObject o d)) table direction n via place value shape)

/-- Has the shape no parts, so that it only looks at the value as a whole? -/
def isLeaf : Shape → Bool
  | .ref _ | .array _ | .union _ | .object .. => false
  | _ => true

theorem judge_leaf {table : Table} {direction : Direction} {ask : Value → Shape → Verdict}
    {value : Value} {shape : Shape} (h : isLeaf shape = true) :
    judge table direction ask value shape = ofLeaf value (leaf? direction value shape) := by
  cases shape with
  | ref | array | union | object => cases h
  | _ => rfl

theorem convertAfresh_leaf {table : Table} {direction : Direction} {n : Nat} {via : Option String}
    {place : Place} {value : Value} {shape : Shape} (h : isLeaf shape = true) :
    convertAfresh table direction (n + 1) via place value shape =
      match leaf? direction value shape with
      | some y => .ok y
      | none => .error (reject place shape.describe value) := by
  cases shape with
  | ref | array | union | object => cases h
  | any | never => rfl
  | primitive kind =>
      simp only [convertAfresh, convert, leaf?]
      split <;> rfl
  | literals values =>
      cases value with
      | text s =>
          simp only [convertAfresh, convert, leaf?]
          split <;> rfl
      | _ => rfl
  | null | absent => cases value <;> rfl
  | date =>
      cases value with
      | null => rfl
      | _ =>
          simp only [convertAfresh, convert, leaf?]
          cases momentOf? _ <;> rfl

theorem forget_convertItems {step : Nat → Value → Id Outcome} {f : Value → Verdict}
    (h : ∀ i x, forget (step i x).run = f x) : ∀ (i : Nat) (xs : List Value),
      forget (convertItems step i xs).run = xs.mapM f
  | _, [] => rfl
  | i, x :: xs => by
      rw [List.mapM_cons, ← h i, ← forget_convertItems h (i + 1) xs, convertItems]
      cases hx : (step i x).run with
      | error stop => simp [hx]; rfl
      | ok y =>
          cases hxs : (convertItems step (i + 1) xs).run with
          | error stop => simp [hx, hxs]; rfl
          | ok ys => simp [hx, hxs]; rfl

theorem forget_convertFirst {step : Shape → Id Outcome} {ask : Value → Shape → Verdict}
    {value : Value} (h : ∀ s, forget (step s).run = ask value s) {stop : Stop}
    (hstop : stop.halt = refusal value) (ss : List Shape) :
    forget (Id.run do
      match ← convertFirst step ss with
      | .error stop => pure (.error stop)
      | .ok (some y) => pure (.ok y)
      | .ok none => pure (.error stop)) = judgeFirst ask value ss := by
  induction ss with
  | nil => exact congrArg Except.error hstop
  | cons s ss ih =>
      rw [judgeFirst, ← h s, convertFirst]
      cases hs : (step s).run with
      | ok y => simp [hs]
      | error e =>
          cases e with
          | rejected r => simpa [hs, Stop.halt] using ih
          | _ => simp [hs, Stop.halt]

theorem forget_convertDeclared {step : Place → Value → Shape → Id Outcome}
    {ask : Value → Shape → Verdict} (h : ∀ p v s, forget (step p v s).run = ask v s)
    (place : Place) (parent : String) (es : Entries) : ∀ (done : Entries) (fields : FieldMap),
      forget (convertDeclared step place parent es done fields).run =
        (fields.mapM fun e => ask (fieldOf es e.1) e.2.shape).map fun own =>
          (written (FieldMap.targets fields) own).foldl (fun d e => put d e.1 e.2) done
  | _, [] => rfl
  | done, (name, target) :: fields => by
      rw [List.mapM_cons, ← h (place.atField name parent), convertDeclared]
      have ih := fun done => forget_convertDeclared h place parent es done fields
      simp only [← fieldOf.eq_1]
      cases hx : (step (place.atField name parent) (fieldOf es name) target.shape).run with
      | error stop => simp [hx]; rfl
      | ok y =>
          cases y with
          | missing =>
              simp only [Id.run_bind, hx, ih, forget_ok]
              cases fields.mapM fun e => ask (fieldOf es e.1) e.2.shape <;> rfl
          | _ =>
              simp only [Id.run_bind, hx, ih, forget_ok]
              cases fields.mapM fun e => ask (fieldOf es e.1) e.2.shape <;> rfl

theorem forget_convertOthers {step : Place → Value → Id Outcome} {ask : Value → Shape → Verdict}
    {additional : Shape} (h : ∀ p v, forget (step p v).run = ask v additional) (place : Place)
    (parent : String) (fields : FieldMap) : ∀ (done es : Entries),
      forget (convertOthers step place parent fields done es).run =
        ((undeclared fields es).mapM (judgeOther ask additional)).map fun others =>
          (((undeclared fields es).map (·.1)).zip others).foldl (fun d e => put d e.1 e.2) done
  | _, [] => rfl
  | done, (key, value) :: es => by
      have ih := fun done => forget_convertOthers h place parent fields done es
      rw [convertOthers]
      cases hd : fields.declares key with
      | true =>
          have hu : undeclared fields ((key, value) :: es) = undeclared fields es := by
            simp [undeclared, hd]
          rw [if_pos rfl, ih, hu]
      | false =>
          have hu : undeclared fields ((key, value) :: es) =
              (key, value) :: undeclared fields es := by
            simp [undeclared, hd]
          rw [if_neg (by simp), hu, List.mapM_cons]
          cases hk : key.keyText? with
          | none => simp [Place.atKey?, judgeOther, hk]; rfl
          | some text =>
              have ht : judgeOther ask additional (key, value) = ask value additional := by
                simp [judgeOther, hk]
              rw [ht, ← h ⟨some key, parent, place.path ++ [.key text]⟩ value]
              simp only [Place.atKey?, hk, Option.map_some]
              cases hx : (step ⟨some key, parent, place.path ++ [.key text]⟩ value).run with
              | error stop => simp [hx]; rfl
              | ok y =>
                  simp only [Id.run_bind, hx, ih, forget_ok]
                  cases (undeclared fields es).mapM (judgeOther ask additional) <;> rfl

theorem forget_map {α β : Type} (f : α → β) (x : Except Stop α) :
    forget (x.map f) = (forget x).map f := by
  cases x <;> rfl

theorem forget_bind {α β : Type} (x : Except Stop α) (k : α → Except Stop β) :
    forget (x >>= k) = forget x >>= fun a => forget (k a) := by
  cases x <;> rfl

theorem forget_convertFields {step : Place → Value → Shape → Id Outcome}
    {ask : Value → Shape → Verdict} (h : ∀ p v s, forget (step p v s).run = ask v s)
    (place : Place) (parent : String) (fields : FieldMap) (additional : Shape) (es : Entries) :
    forget (Id.run do
      match ← convertDeclared step place parent es [] fields with
      | .error stop => pure (.error stop)
      | .ok done => do
        let whole ← convertOthers (fun p v => step p v additional) place parent fields done es
        pure (whole.map .map)) = judgeObject ask fields additional es := by
  let others (done : Entries) :=
    (convertOthers (fun p v => step p v additional) place parent fields done es).run
  have hothers (done : Entries) := forget_convertOthers (fun p v => h p v additional) place parent
    fields done es
  calc
    _ = forget ((convertDeclared step place parent es [] fields).run >>= fun done =>
          (others done).map .map) := by
      rw [Id.run_bind]
      cases (convertDeclared step place parent es [] fields).run <;> rfl
    _ = judgeObject ask fields additional es := by
      simp only [forget_bind, forget_map, forget_convertDeclared h, others, hothers, judgeObject]
      cases fields.mapM fun e => ask (fieldOf es e.1) e.2.shape with
      | error e => rfl
      | ok own =>
          cases (undeclared fields es).mapM (judgeOther ask additional) with
          | error e => rfl
          | ok others =>
              show Except.ok _ = Except.ok _
              rw [ofEntries, assembled, List.foldl_append]

theorem forget_convert (table : Table) (direction : Direction) : ∀ (n : Nat) (via : Option String)
    (place : Place) (value : Value) (shape : Shape),
      forget (convertAfresh table direction n via place value shape) =
        verdict table direction n value shape
  | 0, _, _, _, _ => rfl
  | n + 1, via, place, value, shape => by
      have ih := forget_convert table direction n
      have hrefuse (expected : String) (v : Value) : forget (.error (reject place expected v)) =
          (.error (refusal v) : Verdict) := by rw [forget_error, halt_reject]
      rw [verdict, convertAfresh]
      cases shape with
      | ref name =>
          simp only [judge, convert]
          cases table.get? name with
          | none => rfl
          | some target => exact ih (some name) place value target
      | array items =>
          have hitems := forget_convertItems (fun i x => ih none (place.atIndex i) x items) 0
          simp only [judge, convert]
          cases value with
          | list xs | tuple xs =>
              exact (forget_map _ _).trans (congrArg (Except.map Value.list) (hitems xs))
          | _ => exact hrefuse _ _
      | union members =>
          simp only [judge, convert]
          exact forget_convertFirst (fun s => ih none place value s) (halt_reject _ _ _) members
      | object label properties additional =>
          simp only [judge, convert]
          cases value with
          | map es => exact forget_convertFields (fun p v s => ih none p v s) _ _ _ _ _
          | _ => exact hrefuse _ _
      | any | primitive | literals | null | absent | never | date =>
          rw [← convertAfresh, convertAfresh_leaf rfl, judge_leaf rfl]
          cases leaf? direction value _ with
          | some y => rfl
          | none => exact hrefuse _ _

theorem forget_run (table : Table) (direction : Direction) (value : Value) (shape : Shape) :
    forget (run table direction value shape) =
      verdict table direction (budget table value shape) value shape :=
  forget_convert _ _ _ _ _ _ _

theorem run_eq_ok {table : Table} {direction : Direction} {value y : Value} {shape : Shape} :
    run table direction value shape = .ok y ↔
      verdict table direction (budget table value shape) value shape = .ok y := by
  rw [← forget_run]
  cases run table direction value shape <;> simp

end Conversion

end Conform
