import TuiMarkup.Binding
import TuiMarkup.Catalog.Basic
import TuiMarkup.Text.Decimal

/-!
Attribute values as expressions of the generated class, by the type of the property they are given
to.
-/

namespace TuiMarkup

/-- An expression. One that is not what the property expects is written as it stands. -/
inductive Literal where
  | converted (code : String)
  | verbatim (code expected : String)
deriving DecidableEq, Repr

namespace Literal

def code : Literal → String
  | converted code => code
  | verbatim code _ => code

def expected? : Literal → Option String
  | converted _ => none
  | verbatim _ expected => some expected

/-! ### Strings -/

def escape (c : Char) : List Char :=
  if c = '\\' then ['\\', '\\']
  else if c = '"' then ['\\', '"']
  else if c = '\n' then ['\\', 'n']
  else if c = '\r' then ['\\', 'r']
  else if c = '\t' then ['\\', 't']
  else if c = '\x00' then ['\\', '0']
  else [c]

def quote (s : String) : String :=
  String.ofList ('"' :: s.toList.flatMap escape ++ ['"'])

/-! ### Other types -/

def boolCode (value : String) : String :=
  if Text.sameLetters (Text.trim value) "true" then "true"
  else if Text.sameLetters (Text.trim value) "false" then "false"
  else value

/-- A decimal with the suffix of single precision, and with a digit after its point. -/
def floatCode? (value : String) : Option String := do
  let d ← Text.readDecimal? value
  if !d.fitsSingle then none
  else match Text.beforeEnd? "." value with
    | some whole => some (whole ++ ".0f")
    | none =>
      if value.toList.any fun c => c == '.' || c == 'e' || c == 'E' then some (value ++ "f")
      else some (value ++ ".0f")

def arrayEntries (value : String) : List String :=
  (Text.pieces ',' value).filterMap Text.trimmed?

def arrayCode (value : String) : String :=
  match arrayEntries value with
  | [] => "System.Array.Empty<string>()"
  | entries => "new[] \x7b " ++ ", ".intercalate (entries.map quote) ++ " \x7d"

def shortName (type : String) : String :=
  match Text.cutLast '.' type with
  | some (_, short) => short
  | none => type

def memberCode? (type value : String) : Option String :=
  let member := match Text.cutFirst '.' value with
    | some (head, rest) => if head = shortName type then rest else value
    | none => value
  if member = "" || Text.startsWith "." member || Text.endsWith "." member then none
  else some (type ++ "." ++ member)

def orVerbatim (value expected : String) : Option String → Literal
  | some code => .converted code
  | none => .verbatim value expected

def ofValue (value : String) (type : Option PropertyType) : Literal :=
  if looksLikeCode value then .converted value
  else match type with
    | some .bool => .converted (boolCode value)
    | some .int =>
      orVerbatim value "an integer"
        (if Text.isInt32 (Text.trim value) then some (Text.trim value) else none)
    | some .float => orVerbatim value "a decimal number" (floatCode? (Text.trim value))
    | some .layout => .converted value
    | some .array => .converted (arrayCode value)
    | some (.qualified name) => orVerbatim value "a member name" (memberCode? name (Text.trim value))
    | some .string | some .command | none => .converted (quote value)

end Literal

end TuiMarkup
