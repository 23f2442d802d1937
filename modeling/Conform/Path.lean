import Conform.Number.Digits

/-!
# Paths

A path leads from a value to a value inside it: by the text of a map key, or by the position in a
sequence.  `formatPath` writes a path with points between keys and positions in brackets.
-/

namespace Conform

/-- One step into a value. -/
inductive Segment where
  | key (text : String)
  | index (position : Int)
deriving DecidableEq

/-- Appends a step to the text of a path; the first text of a path has no point before it. -/
def appendSegment (path : List Char) : Segment → List Char
  | .index i => path ++ '[' :: (Digits.ofInt i ++ [']'])
  | .key text => if path = [] then text.toList else path ++ '.' :: text.toList

def formatPath (path : List Segment) : String := String.ofList (path.foldl appendSegment [])

end Conform
