/-!
# Patterns of characters

Regular patterns over classes of characters and whether a whole text fits one.  `Pattern.fits`
takes the text one character at a time and goes on with what the pattern still asks for after it.
-/

namespace Conform

inductive Pattern where
  /-- No text. -/
  | fail
  /-- The empty text. -/
  | empty
  /-- One character of a class. -/
  | one (accepts : Char → Bool)
  /-- One pattern after the other. -/
  | seq (p q : Pattern)
  /-- One pattern or the other. -/
  | alt (p q : Pattern)
  /-- A pattern any number of times. -/
  | star (p : Pattern)

namespace Pattern

def opt (p : Pattern) : Pattern := .alt p .empty

def plus (p : Pattern) : Pattern := .seq p (.star p)

def all : List Pattern → Pattern
  | [] => .empty
  | p :: ps => .seq p (all ps)

def any : List Pattern → Pattern
  | [] => .fail
  | p :: ps => .alt p (any ps)

def text (s : String) : Pattern := all (s.toList.map fun c => .one (· == c))

def words (ws : List String) : Pattern := any (ws.map text)

/-- Does the pattern fit the empty text? -/
def nullable : Pattern → Bool
  | .fail => false
  | .empty => true
  | .one _ => false
  | .seq p q => p.nullable && q.nullable
  | .alt p q => p.nullable || q.nullable
  | .star _ => true

/-- A sequence without needless parts. -/
def cat : Pattern → Pattern → Pattern
  | .fail, _ => .fail
  | .empty, q => q
  | p, q => .seq p q

/-- A choice without needless parts. -/
def either : Pattern → Pattern → Pattern
  | .fail, q => q
  | p, .fail => p
  | p, q => .alt p q

/-- What a pattern asks for after a character. -/
def after (c : Char) : Pattern → Pattern
  | .fail => .fail
  | .empty => .fail
  | .one accepts => if accepts c then .empty else .fail
  | .seq p q =>
    if p.nullable then either (cat (after c p) q) (after c q) else cat (after c p) q
  | .alt p q => either (after c p) (after c q)
  | .star p => cat (after c p) (.star p)

def fits (p : Pattern) (cs : List Char) : Bool := (cs.foldl (fun p c => after c p) p).nullable

end Pattern

end Conform
