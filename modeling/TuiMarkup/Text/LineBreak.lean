/-!
Line breaks in one spelling: a carriage return, alone or with the line feed after it, becomes a
line feed.
-/

namespace TuiMarkup.Text

def unifyBreakChars : List Char → List Char
  | [] => []
  | '\r' :: '\n' :: cs => '\n' :: unifyBreakChars cs
  | c :: cs => (if c = '\r' then '\n' else c) :: unifyBreakChars cs

def unifyBreaks (s : String) : String :=
  String.ofList (unifyBreakChars s.toList)

end TuiMarkup.Text
