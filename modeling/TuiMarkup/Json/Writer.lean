import TuiMarkup.Text.Split

/-!
Writing JSON in the layout with one item or member to a line. Of the library `serde_json` is assumed
that its layout sets in by two blanks, keeps empty lists on one line, and escapes no more than it must.
-/

namespace TuiMarkup.Json

def hexDigit (n : Nat) : Char :=
  if n < 10 then Char.ofNat ('0'.toNat + n) else Char.ofNat ('a'.toNat + n - 10)

/-- Quotes, backslashes and control characters are escaped, those without a letter of their own by
four hexadecimal digits. -/
def escape (c : Char) : List Char :=
  if c = '"' then ['\\', '"']
  else if c = '\\' then ['\\', '\\']
  else if c = '\n' then ['\\', 'n']
  else if c = '\r' then ['\\', 'r']
  else if c = '\t' then ['\\', 't']
  else if c = '\x08' then ['\\', 'b']
  else if c = '\x0c' then ['\\', 'f']
  else if c.toNat < 0x20 then ['\\', 'u', '0', '0', hexDigit (c.toNat / 16), hexDigit (c.toNat % 16)]
  else [c]

def quote (s : String) : String :=
  String.ofList ('"' :: s.toList.flatMap escape ++ ['"'])

/-- A list between brackets. The items are set in by `indent`, and the closing bracket by two less. -/
def bracketed (opening closing : String) (indent : Nat) (items : List String) : String :=
  match items with
  | [] => opening ++ closing
  | items =>
    opening ++ "\n" ++ ",\n".intercalate (items.map (Text.blanks indent ++ ·)) ++ "\n" ++
      Text.blanks (indent - 2) ++ closing

def array (indent : Nat) (items : List String) : String :=
  bracketed "[" "]" indent items

def object (indent : Nat) (members : List (String × String)) : String :=
  bracketed "\x7b" "\x7d" indent (members.map fun (key, value) => quote key ++ ": " ++ value)

end TuiMarkup.Json
