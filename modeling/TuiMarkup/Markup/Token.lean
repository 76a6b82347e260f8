import TuiMarkup.Markup.Location

/-!
Tokens: the parts that a text falls into when it is read as markup.
-/

namespace TuiMarkup.Markup

/-- What a token says. Values and texts have their references replaced. -/
inductive Content where
  | tagStart (name : String)
  | attributeName (name : String)
  | attributeValue (value : String)
  | tagEnd
  | tagEndVoid
  | tagClose (name : String)
  | text (value : String)
  | cdata (value : String)
  | comment (value : String)
  | instruction (target : String)
  | doctype
  | eof
deriving DecidableEq, Repr

structure Token where
  content : Content
  span : Span
deriving DecidableEq, Repr

end TuiMarkup.Markup
