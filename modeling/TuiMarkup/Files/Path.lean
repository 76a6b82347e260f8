import TuiMarkup.Text.Split

/-!
Paths as texts, and the components that they name. Doubled slashes and inner dots name nothing, so
that paths of different spelling can be equal; a dot at the start of a relative path is a component.
-/

namespace TuiMarkup

structure Path where
  text : String
deriving DecidableEq, Repr

namespace Path

inductive Component where
  | root
  | here
  | up
  | name (s : String)
deriving DecidableEq, Repr

def Component.rank : Component → Nat
  | root => 0
  | here => 1
  | up => 2
  | name _ => 3

def Component.compare : Component → Component → Ordering
  | name s, name t => if s < t then .lt else if s = t then .eq else .gt
  | a, b => Ord.compare a.rank b.rank

def isAbsolute (p : Path) : Bool :=
  Text.startsWith "/" p.text

def segments (p : Path) : List String :=
  if p.isAbsolute then (Text.pieces '/' p.text).tail else Text.pieces '/' p.text

def isIdle (isLeading : Bool) (segment : String) : Bool :=
  segment == "" || (segment == "." && !isLeading)

def componentOf (segment : String) : Component :=
  if segment = "." then .here else if segment = ".." then .up else .name segment

def components (p : Path) : List Component :=
  match p.isAbsolute, p.segments with
  | true, ss => .root :: (ss.filter fun s => !isIdle false s).map componentOf
  | false, [] => []
  | false, s :: ss =>
    ((if isIdle true s then [] else [s]) ++ ss.filter fun s => !isIdle false s).map componentOf

def compareComponents : List Component → List Component → Ordering
  | [], [] => .eq
  | [], _ :: _ => .lt
  | _ :: _, [] => .gt
  | a :: as, b :: bs => (a.compare b).then (compareComponents as bs)

def le (p q : Path) : Bool :=
  compareComponents p.components q.components != .gt

def same (p q : Path) : Bool :=
  p.components == q.components

/-! ### Parents and names -/

def ofSegments (absolute : Bool) (segments : List String) : Path :=
  ⟨(if absolute then "/" else "") ++ "/".intercalate segments⟩

def trimmedBack (absolute : Bool) : List String → List String
  | [] => []
  | s :: ss => if isIdle (!absolute && ss.isEmpty) s then trimmedBack absolute ss else s :: ss

/-- The segments from the last that names something, back to the first. -/
def back (p : Path) : List String :=
  trimmedBack p.isAbsolute p.segments.reverse

def parent? (p : Path) : Option Path :=
  match p.back with
  | [] => none
  | _ :: ss => some (ofSegments p.isAbsolute (trimmedBack p.isAbsolute ss).reverse)

def fileName? (p : Path) : Option String :=
  match p.back with
  | [] => none
  | s :: _ => if s = "." || s = ".." then none else some s

def ancestors (p : Path) : List Path :=
  go p.back
where
  go : List String → List Path
    | [] => []
    | s :: ss =>
      if isIdle (!p.isAbsolute && ss.isEmpty) s then go ss
      else ofSegments p.isAbsolute (s :: ss).reverse :: go ss

/-- A path under another one. An absolute path is where it is. -/
def join (p : Path) (q : String) : Path :=
  if Text.startsWith "/" q then ⟨q⟩
  else if p.text = "" || Text.endsWith "/" p.text then ⟨p.text ++ q⟩
  else ⟨p.text ++ "/" ++ q⟩

/-! ### Lists of paths -/

def dropRepeated : List Path → List Path
  | [] => []
  | p :: ps => p :: (dropRepeated (ps.dropWhile (p.same ·)))
termination_by ps => ps.length
decreasing_by exact Nat.lt_succ_of_le (List.dropWhile_sublist _).length_le

/-- The paths in order, each once, in its first spelling. -/
def sorted (ps : List Path) : List Path :=
  dropRepeated (ps.mergeSort le)

end Path

end TuiMarkup
