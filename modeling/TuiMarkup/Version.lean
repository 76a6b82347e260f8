import TuiMarkup.Text.Split

/-!
Versions.
-/

namespace TuiMarkup

structure Version where
  full : String
  major : String
  minor : String
  patch : String
deriving DecidableEq, Repr

namespace Version

/-- The first three parts of the text; parts that it lacks are zero. -/
def ofString (s : String) : Version :=
  let part := fun n => ((Text.pieces '.' s)[n]?).getD "0"
  { full := s, major := part 0, minor := part 1, patch := part 2 }

def compiler : Version := ofString "0.1.0"

def command : String := "0.1.0"

def summary : String :=
  command ++ " (compiler " ++ compiler.full ++ ")"

end Version

end TuiMarkup
