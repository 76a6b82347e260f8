import TuiMarkup.Text.Decimal
import TuiMarkup.Text.Split

/-!
The character classes of markup, and names with a namespace in front of a colon.
-/

namespace TuiMarkup.Markup

/-- White space between the parts of a tag. Far fewer characters than the blanks of a text. -/
def isSpace (c : Char) : Bool :=
  c == ' ' || c == '\t' || c == '\n' || c == '\r'

def isLetter (c : Char) : Bool :=
  ('a' ≤ c && c ≤ 'z') || ('A' ≤ c && c ≤ 'Z')

def isHexDigit (c : Char) : Bool :=
  ('a' ≤ c && c ≤ 'f') || ('A' ≤ c && c ≤ 'F') || Text.isDecimalDigit c

def isQuote (c : Char) : Bool :=
  c == '\'' || c == '"'

def isNameStart (c : Char) : Bool :=
  isLetter c || c == '_' || c == ':' || 0x80 ≤ c.toNat

def isNamePart (c : Char) : Bool :=
  isNameStart c || Text.isDecimalDigit c || c == '-' || c == '.'

def localName (name : String) : String :=
  match Text.cutFirst ':' name with
  | some (_, rest) => rest
  | none => name

end TuiMarkup.Markup
