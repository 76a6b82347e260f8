import TuiMarkup.Json.Value
import TuiMarkup.Text.Decimal

/-!
The tokens of a JSON text: brackets, commas and colons, strings, and the words between them, which
are the numbers and the three names.
-/

namespace TuiMarkup.Json

inductive Token where
  | openArray
  | closeArray
  | openObject
  | closeObject
  | comma
  | colon
  | string (chars : Chars)
  | scalar (value : Value)

def isSpace (c : Char) : Bool :=
  c == ' ' || c == '\t' || c == '\n' || c == '\r'

def punctuation? (c : Char) : Option Token :=
  if c = '[' then some .openArray
  else if c = ']' then some .closeArray
  else if c = '\x7b' then some .openObject
  else if c = '\x7d' then some .closeObject
  else if c = ',' then some .comma
  else if c = ':' then some .colon
  else none

/-! ### Strings -/

def hexValue? (c : Char) : Option Nat :=
  if Text.isDecimalDigit c then some (c.toNat - '0'.toNat)
  else if 'a' ≤ c ∧ c ≤ 'f' then some (c.toNat - 'a'.toNat + 10)
  else if 'A' ≤ c ∧ c ≤ 'F' then some (c.toNat - 'A'.toNat + 10)
  else none

def unit? (a b c d : Char) : Option Nat := do
  return (((← hexValue? a) * 16 + (← hexValue? b)) * 16 + (← hexValue? c)) * 16 + (← hexValue? d)

def simpleEscape? (c : Char) : Option Nat :=
  if c = '"' ∨ c = '\\' ∨ c = '/' then some c.toNat
  else if c = 'b' then some 0x08
  else if c = 'f' then some 0x0C
  else if c = 'n' then some 0x0A
  else if c = 'r' then some 0x0D
  else if c = 't' then some 0x09
  else none

/-- The numbers of the characters up to the closing quote, and what follows it. An escape with four
digits may name half of a surrogate pair. -/
def stringUnits : List Char → Option (List Nat × List Char)
  | [] => none
  | '"' :: cs => some ([], cs)
  | '\\' :: 'u' :: a :: b :: c :: d :: cs => do
    let n ← unit? a b c d
    let (ns, rest) ← stringUnits cs
    return (n :: ns, rest)
  | '\\' :: c :: cs => do
    let n ← simpleEscape? c
    let (ns, rest) ← stringUnits cs
    return (n :: ns, rest)
  | c :: cs =>
    if c.toNat < 0x20 ∨ c = '\\' then none
    else do
      let (ns, rest) ← stringUnits cs
      return (c.toNat :: ns, rest)

def isHighSurrogate (n : Nat) : Bool :=
  0xD800 ≤ n && n ≤ 0xDBFF

def isLowSurrogate (n : Nat) : Bool :=
  0xDC00 ≤ n && n ≤ 0xDFFF

def unitChars : List Nat → Option (List Char)
  | [] => some []
  | [n] => if isHighSurrogate n || isLowSurrogate n then none else some [Char.ofNat n]
  | n :: m :: ns =>
    if isHighSurrogate n then
      if isLowSurrogate m then
        (unitChars ns).map (Char.ofNat (0x10000 + (n - 0xD800) * 0x400 + (m - 0xDC00)) :: ·)
      else none
    else if isLowSurrogate n then none
    else (unitChars (m :: ns)).map (Char.ofNat n :: ·)

theorem length_stringUnits_rest {cs rest : List Char} {ns : List Nat}
    (h : stringUnits cs = some (ns, rest)) : rest.length < cs.length := by
  fun_induction stringUnits cs generalizing ns with
  | case1 => simp at h
  | case2 => simp_all
  | case3 a b c d cs ih =>
    simp only [Option.bind_eq_bind, Option.bind_eq_some_iff, Prod.exists] at h
    obtain ⟨_, _, _, _, hr, he⟩ := h
    cases he
    exact Nat.lt_trans (ih hr) (by simp +arith)
  | case4 c cs _ ih =>
    simp only [Option.bind_eq_bind, Option.bind_eq_some_iff, Prod.exists] at h
    obtain ⟨_, _, _, _, hr, he⟩ := h
    cases he
    exact Nat.lt_trans (ih hr) (by simp +arith)
  | case5 => simp_all
  | case6 c cs _ _ _ _ ih =>
    simp only [Option.bind_eq_bind, Option.bind_eq_some_iff, Prod.exists] at h
    obtain ⟨_, _, hr, he⟩ := h
    cases he
    exact Nat.lt_succ_of_lt (ih hr)

/-! ### Words -/

def isWordChar (c : Char) : Bool :=
  !isSpace c && (punctuation? c).isNone && c != '"'

/-- What follows the digits before a point: a zero stands alone. -/
def afterInteger? : List Char → Option (List Char)
  | '0' :: cs => some cs
  | c :: cs => if Text.isDecimalDigit c then some (cs.dropWhile Text.isDecimalDigit) else none
  | [] => none

def afterDigits? : List Char → Option (List Char)
  | c :: cs => if Text.isDecimalDigit c then some (cs.dropWhile Text.isDecimalDigit) else none
  | [] => none

def afterFraction? : List Char → Option (List Char)
  | '.' :: cs => afterDigits? cs
  | cs => some cs

def afterExponent? : List Char → Option (List Char)
  | c :: cs =>
    if c = 'e' ∨ c = 'E' then afterDigits? (Text.cutSign cs).2 else some (c :: cs)
  | [] => some []

def isNumber (cs : List Char) : Bool :=
  let cs := match cs with
    | '-' :: cs => cs
    | cs => cs
  (afterInteger? cs).bind afterFraction? |>.bind afterExponent? |>.any List.isEmpty

def word? (cs : List Char) : Option Value :=
  if cs = "null".toList then some .null
  else if cs = "true".toList then some (.bool true)
  else if cs = "false".toList then some (.bool false)
  else if isNumber cs then some (.number cs)
  else none

/-! ### Texts -/

def tokens : List Char → Option (List Token)
  | [] => some []
  | c :: cs =>
    if isSpace c then tokens cs
    else match punctuation? c with
      | some t => (tokens cs).map (t :: ·)
      | none =>
        if c = '"' then
          match _h : stringUnits cs with
          | some (ns, rest) =>
            (tokens rest).map (.string ((unitChars ns).map String.ofList) :: ·)
          | none => none
        else
          (word? (c :: cs.takeWhile isWordChar)).bind fun v =>
            (tokens (cs.dropWhile isWordChar)).map (.scalar v :: ·)
termination_by cs => cs.length
decreasing_by
  · simp
  · simp
  · exact Nat.lt_succ_of_lt (length_stringUnits_rest _h)
  · exact Nat.lt_succ_of_le (List.dropWhile_sublist _).length_le

end TuiMarkup.Json
