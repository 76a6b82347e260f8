import TuiMarkup.Json.Token

/-!
Reading JSON. The tokens are taken one at a time; arrays and objects that are not complete wait on a
stack. There is one value in a text, and nothing after it.
-/

namespace TuiMarkup.Json

/-- An array or object to which a value is being added. What it has so far is kept with the last one
first. -/
inductive Frame where
  | array (items : List Value)
  | object (members : List (Chars × Value)) (key : Chars)

inductive State where
  | value (stack : List Frame)
  /-- The first item of an array is due, or its end. -/
  | item (stack : List Frame)
  | key (stack : List Frame) (members : List (Chars × Value))
  /-- The first key of an object is due, or its end. -/
  | member (stack : List Frame)
  | colon (stack : List Frame) (members : List (Chars × Value)) (key : Chars)
  | after (stack : List Frame) (value : Value)

def valueToken (stack : List Frame) : Token → Option State
  | .scalar v => some (.after stack v)
  | .string chars => some (.after stack (.string chars))
  | .openArray => some (.item stack)
  | .openObject => some (.member stack)
  | _ => none

def afterToken (value : Value) : List Frame → Token → Option State
  | .array items :: stack, .comma => some (.value (.array (value :: items) :: stack))
  | .array items :: stack, .closeArray => some (.after stack (.array (value :: items).reverse))
  | .object members key :: stack, .comma => some (.key stack ((key, value) :: members))
  | .object members key :: stack, .closeObject =>
    some (.after stack (.object ((key, value) :: members).reverse))
  | _, _ => none

def next : State → Token → Option State
  | .value stack, t => valueToken stack t
  | .item stack, .closeArray => some (.after stack (.array []))
  | .item stack, t => valueToken (.array [] :: stack) t
  | .key stack members, .string chars => some (.colon stack members chars)
  | .member stack, .string chars => some (.colon stack [] chars)
  | .member stack, .closeObject => some (.after stack (.object []))
  | .colon stack members key, .colon => some (.value (.object members key :: stack))
  | .after stack value, t => afterToken value stack t
  | _, _ => none

def read? (s : String) : Option Value := do
  match ← (← tokens s.toList).foldlM next (.value []) with
  | .after [] value => some value
  | _ => none

end TuiMarkup.Json
