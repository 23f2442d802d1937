import Conform.Text.Lowercase

/-!
# Typed names

The typed name of a field that declares none: its serialized name in lower case with underscores
between the words, without leading dollar signs.

Words are found in two passes.  The first separates a run of capitals from the capital that starts
the next word (`LLMSpec`), the second a capital from the small letter or digit before it
(`maxLength`).  Only ASCII letters and digits make boundaries.
-/

namespace Conform.TypedName

def isCapital (c : Char) : Bool := 'A' ≤ c && c ≤ 'Z'

def isSmall (c : Char) : Bool := 'a' ≤ c && c ≤ 'z'

def isSmallOrDigit (c : Char) : Bool := isSmall c || ('0' ≤ c && c ≤ '9')

/-- Separates the last capital of a run from the others where a small letter follows the run.  The
run read so far is kept in reverse. -/
def splitRuns (run : List Char) : List Char → List Char
  | [] => run.reverse
  | c :: rest =>
    if isCapital c then splitRuns (c :: run) rest
    else
      match run with
      | last :: before =>
        if isSmall c && !before.isEmpty then
          before.reverse ++ '_' :: last :: c :: splitRuns [] rest
        else run.reverse ++ c :: splitRuns [] rest
      | [] => c :: splitRuns [] rest

/-- Separates each capital from a small letter or digit before it, going on behind the pair. -/
def splitWords : List Char → List Char
  | a :: b :: rest =>
    if isSmallOrDigit a && isCapital b then a :: '_' :: b :: splitWords rest
    else a :: splitWords (b :: rest)
  | short => short

def ofSerialized (name : String) : String :=
  String.ofList (Text.lower (splitWords (splitRuns [] (name.toList.dropWhile (· == '$')))))

end Conform.TypedName
