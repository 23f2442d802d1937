import Conform.Number.Binary64
import Conform.Number.Digits
import Conform.Calendar.Basic

/-!
# Values

The trees that documents are read into and that typed values are made of.  A map is a list of
entries in order; its keys are values too.  `missing` stands for a field that its map does not
have, and so is never part of a document.

Two values are the *same* when they mean the same: `true`, `1` and `1.0` are one key, two moments
with offsets are compared as instants, and the order of a map's entries does not count.  Writing
under a key that is already there replaces the value and keeps the first key and its place.
-/

namespace Conform

inductive Value where
  | null
  | bool (b : Bool)
  | int (n : Int)
  | float (x : Binary64)
  | text (s : String)
  | list (items : List Value)
  | tuple (items : List Value)
  | map (entries : List (Value × Value))
  | date (d : Date)
  | moment (m : Moment)
  | bytes (octets : List UInt8)
  | set (items : List Value)
  | missing
deriving Inhabited

namespace Value

/-! ## Sameness -/

/-- A number that is an integer, truth values counting as `0` and `1`. -/
def int? : Value → Option Int
  | .bool b => some (if b then 1 else 0)
  | .int n => some n
  | _ => none

/-- Sameness of values that have no parts. -/
def sameLeaf : Value → Value → Bool
  | .null, .null => true
  | .float x, .float y => x.same y
  | .text s, .text t => s == t
  | .date d, .date e => d == e
  | .moment m, .moment n => m.same n
  | .bytes x, .bytes y => x == y
  | .missing, .missing => true
  | .float x, v | v, .float x => match v.int? with
    | some n => x.sameInt n
    | none => false
  | a, b => match a.int?, b.int? with
    | some m, some n => m == n
    | _, _ => false

mutual
/-- Do two values mean the same? -/
def same : Value → Value → Bool
  | .list xs, .list ys => sameItems xs ys
  | .tuple xs, .tuple ys => sameItems xs ys
  | .map xs, .map ys => xs.length == ys.length && sameEntries xs ys
  | .set xs, .set ys => xs.length == ys.length && allAmong xs ys
  | a, b => sameLeaf a b

def sameItems : List Value → List Value → Bool
  | [], [] => true
  | x :: xs, y :: ys => same x y && sameItems xs ys
  | _, _ => false

/-- Does each entry of the first map have one with the same key and value in the second? -/
def sameEntries : List (Value × Value) → List (Value × Value) → Bool
  | [], _ => true
  | (k, v) :: rest, ys =>
    (match ys.find? (fun e => same k e.1) with
      | some e => same v e.2
      | none => false) && sameEntries rest ys

/-- Does each item of the first set have one that is the same in the second? -/
def allAmong : List Value → List Value → Bool
  | [], _ => true
  | x :: xs, ys => ys.any (same x ·) && allAmong xs ys
end

/-! ## Entries of maps -/

abbrev Entries := List (Value × Value)

section

variable {α : Type}

/-- Writes something under a key: over what the same key has, or at the end. -/
def put (entries : List (Value × α)) (key : Value) (a : α) : List (Value × α) :=
  match entries with
  | [] => [(key, a)]
  | (k, b) :: rest => if same k key then (k, a) :: rest else (k, b) :: put rest key a

def get? (entries : List (Value × α)) (key : Value) : Option α :=
  (entries.find? fun e => same e.1 key).map (·.2)

def has (entries : List (Value × α)) (key : Value) : Bool := entries.any fun e => same e.1 key

end

/-- The map that results from writing entries one after the other. -/
def ofEntries (entries : Entries) : Value :=
  .map (entries.foldl (fun done e => put done e.1 e.2) [])

/-! ## Measures -/

mutual
/-- How deep the value nests; a value without parts has height zero. -/
def height : Value → Nat
  | .list xs | .tuple xs | .set xs => 1 + heightOfItems xs
  | .map es => 1 + heightOfEntries es
  | _ => 0

def heightOfItems : List Value → Nat
  | [] => 0
  | x :: xs => max x.height (heightOfItems xs)

def heightOfEntries : List (Value × Value) → Nat
  | [] => 0
  | (k, v) :: es => max (max k.height v.height) (heightOfEntries es)
end

mutual
/-- Can every integer in the value be written, keys included?  Numerals have a limited length. -/
def isWritable : Value → Bool
  | .int n => Digits.withinLimit n
  | .list xs | .tuple xs | .set xs => areWritable xs
  | .map es => entriesWritable es
  | _ => true

def areWritable : List Value → Bool
  | [] => true
  | x :: xs => x.isWritable && areWritable xs

def entriesWritable : List (Value × Value) → Bool
  | [] => true
  | (k, v) :: es => k.isWritable && v.isWritable && entriesWritable es
end

end Value

end Conform
