import TuiMarkup.Markup.Name
import TuiMarkup.Text.Blank

/-!
Binding expressions, the values `{Bind Path}` and `{Bind Path, Mode=TwoWay}`. A path is one or more
identifiers with dots between them.
-/

namespace TuiMarkup

def bindingOpening : String := "\x7bBind "

def bindingClosing : String := "\x7d"

def isBindingValue (value : String) : Bool :=
  let t := Text.trim value
  Text.startsWith bindingOpening t && Text.endsWith bindingClosing t

def looksLikeCode (value : String) : Bool :=
  Text.hasChar '(' value && Text.hasChar ')' value

inductive Binding.Mode where
  | oneWay
  | twoWay
deriving DecidableEq, Repr

def Binding.Mode.read? (s : String) : Option Mode :=
  if Text.sameLetters (Text.trim s) "OneWay" then some oneWay
  else if Text.sameLetters (Text.trim s) "TwoWay" then some twoWay
  else none

structure Binding where
  path : String
  mode : Binding.Mode
  /-- The path as it is seen from the view. -/
  source : String
deriving DecidableEq, Repr

namespace Binding

def isIdentifierStart (c : Char) : Bool :=
  Markup.isLetter c || c == '_'

def isIdentifier : List Char → Bool
  | [] => false
  | c :: cs => isIdentifierStart c && cs.all fun c => isIdentifierStart c || Text.isDecimalDigit c

def isPath (s : String) : Bool :=
  (Text.piecesChars '.' s.toList).all isIdentifier

/-- A bare path goes through the data context, if there is one; a dotted path says by itself where it
starts. -/
def sourceOf (path : String) (context : Option String) : String :=
  match context with
  | some c => if c != "" && !Text.hasChar '.' path then c ++ "." ++ path else path
  | none => path

def optionMode? (s : String) : Option Mode :=
  match Text.cutFirst '=' s with
  | some (key, value) => if Text.sameLetters (Text.trim key) "mode" then Mode.read? value else none
  | none => none

/-- The last option that names a mode gives it. -/
def modeOf (options : List String) : Mode :=
  options.foldl (fun mode s => (optionMode? s).getD mode) .oneWay

def read? (value : String) (context : Option String) : Option Binding := do
  let inner ← (Text.afterStart? bindingOpening (Text.trim value)).bind (Text.beforeEnd? bindingClosing)
  match Text.pieces ',' (Text.trim inner) with
  | [] => none
  | first :: options =>
    let path := Text.trim first
    if isPath path then some { path, mode := modeOf options, source := sourceOf path context }
    else none

/-- The name that a notice of change carries: what follows the last dot of the source. -/
def member (b : Binding) : String :=
  match Text.cutLast '.' b.source with
  | some (_, member) => member
  | none => b.source

def root (b : Binding) : String :=
  match Text.cutFirst '.' b.path with
  | some (root, _) => root
  | none => b.path

def isQualified (b : Binding) : Bool :=
  Text.hasChar '.' b.path

end Binding

end TuiMarkup
