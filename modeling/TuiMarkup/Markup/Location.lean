/-!
Places in a text. Reading moves a place forward by one character at a time.
-/

namespace TuiMarkup

/-- A place in a text: `offset` counts bytes of UTF-8, `line` and `column` count from zero, and a
column is a number of characters. -/
structure Location where
  offset : Nat := 0
  line : Nat := 0
  column : Nat := 0
deriving DecidableEq, Repr

namespace Location

def advance (l : Location) (c : Char) : Location :=
  if c = '\n' then ⟨l.offset + c.utf8Size, l.line + 1, 0⟩
  else ⟨l.offset + c.utf8Size, l.line, l.column + 1⟩

def after (l : Location) (cs : List Char) : Location :=
  cs.foldl advance l

def display (l : Location) : String :=
  s!"{l.line + 1}:{l.column + 1}"

end Location

structure Span where
  start : Location
  stop : Location
deriving DecidableEq, Repr

end TuiMarkup
