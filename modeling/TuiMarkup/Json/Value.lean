/-!
JSON values as they are read. The modules on JSON stand for the library `serde_json`: of it is assumed
that it takes the texts of the JSON grammar and no others, with one value to a text, and that what is
not asked for is checked against the grammar and then passed over, however deep it is.
-/

namespace TuiMarkup.Json

/-- The text of a string. There is none when an escape names half of a surrogate pair: such a string
is well-formed and is no text. -/
abbrev Chars := Option String

inductive Value where
  | null
  | bool (value : Bool)
  | number (literal : List Char)
  | string (chars : Chars)
  | array (items : List Value)
  | object (members : List (Chars × Value))

end TuiMarkup.Json
