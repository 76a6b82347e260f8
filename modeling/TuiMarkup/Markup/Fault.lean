import TuiMarkup.Markup.Location

/-!
What can be wrong with a text that should be markup. A fault has a cause and the stretch of text
that shows it.
-/

namespace TuiMarkup.Markup

inductive Cause where
  | unexpectedEnd
  | unexpectedChar (c : Char)
  | missingSpace
  | missingValue (name : String)
  | unquotedValue (name : String)
  | angleInValue
  | malformedReference (source : String)
  | unknownEntity (source : String)
  | doctype
  | strayToken
  | strayTokenInTag
  | secondRoot (name : String)
  | duplicateAttribute (name : String)
  | strayClose (name : String)
  | mismatchedClose (name expected : String)
  | textOutsideRoot
  | unclosed (name : String)
  | noRoot
deriving DecidableEq, Repr

def Cause.message : Cause → String
  | unexpectedEnd => "Unexpected end of input"
  | unexpectedChar c => "Unexpected character \"" ++ c.toString ++ "\""
  | missingSpace => "Whitespace is required between attributes"
  | missingValue name => "Attribute \"" ++ name ++ "\" is missing a value"
  | unquotedValue name => "Value of attribute \"" ++ name ++ "\" must be quoted"
  | angleInValue => "The '<' character cannot be used in an attribute value"
  | malformedReference source =>
    "Unable to parse entity \"" ++ source ++
      "\" - character reference entities must end with \";\""
  | unknownEntity source =>
    "Unknown entity \"" ++ source ++
      "\" - use the \"&#<decimal>;\" or \"&#x<hex>;\" syntax"
  | doctype => "DOCTYPE declarations are not supported"
  | strayToken => "Unexpected token"
  | strayTokenInTag => "Unexpected token in start tag"
  | secondRoot name => "Multiple root elements: \"" ++ name ++ "\" follows the root element"
  | duplicateAttribute name => "Duplicate attribute \"" ++ name ++ "\""
  | strayClose name => "Unexpected closing tag \"" ++ name ++ "\""
  | mismatchedClose name expected =>
    "Unexpected closing tag \"" ++ name ++ "\". Expected \"" ++ expected ++ "\""
  | textOutsideRoot => "Text content is not allowed outside the root element"
  | unclosed name => "Unclosed element \"" ++ name ++ "\""
  | noRoot => "No root element found"

structure Fault where
  cause : Cause
  span : Span
deriving DecidableEq, Repr

def Fault.message (f : Fault) : String :=
  f.cause.message

def Fault.display (f : Fault) : String :=
  f.message ++ " (" ++ f.span.start.display ++ ")"

end TuiMarkup.Markup
