/-!
Decimal numbers as text: whole numbers of 32 bits, and decimals with a fraction and an exponent
together with the bound below which single precision holds them.
-/

namespace TuiMarkup.Text

def isDecimalDigit (c : Char) : Bool :=
  '0' ≤ c && c ≤ '9'

def digitValue (c : Char) : Nat :=
  c.toNat - '0'.toNat

def decimalValue (ds : List Char) : Nat :=
  ds.foldl (fun n c => 10 * n + digitValue c) 0

/-- Splits off a sign; `true` stands for a minus. -/
def cutSign : List Char → Bool × List Char
  | '-' :: cs => (true, cs)
  | '+' :: cs => (false, cs)
  | cs => (false, cs)

def readInteger? (s : String) : Option Int :=
  let (negative, ds) := cutSign s.toList
  if ds ≠ [] ∧ ds.all isDecimalDigit then
    some (if negative then -(decimalValue ds : Int) else decimalValue ds)
  else none

def isInt32 (s : String) : Bool :=
  match readInteger? s with
  | some n => -2147483648 ≤ n && n ≤ 2147483647
  | none => false

/-- The magnitude `mantissa * 10 ^ exponent`, with the sign of the text it was read from. -/
structure Decimal where
  negative : Bool
  mantissa : Nat
  exponent : Int
deriving DecidableEq, Repr

def readExponent? : List Char → Option Int
  | [] => some 0
  | c :: cs =>
    if c = 'e' ∨ c = 'E' then readInteger? (String.ofList cs) else none

/-- Reads a decimal: digits with an optional point, of which one digit at least, then an optional
exponent. -/
def readDecimal? (s : String) : Option Decimal :=
  let (negative, cs) := cutSign s.toList
  let whole := cs.takeWhile isDecimalDigit
  let rest := cs.dropWhile isDecimalDigit
  let (fraction, tail) := match rest with
    | '.' :: ds => (ds.takeWhile isDecimalDigit, ds.dropWhile isDecimalDigit)
    | _ => ([], rest)
  if whole = [] ∧ fraction = [] then none
  else (readExponent? tail).map fun e =>
    { negative, mantissa := decimalValue (whole ++ fraction), exponent := e - fraction.length }

/-- Half a unit above the largest number of single precision. From here on rounding to the nearest
gives infinity. -/
def singleBound : Nat := Nat.pow 2 128 - Nat.pow 2 103

def digitCount (n : Nat) : Nat :=
  if n = 0 then 0 else digitCount (n / 10) + 1

theorem ten_pow_succ (k : Nat) : Nat.pow 10 (k + 1) = Nat.pow 10 k * 10 :=
  rfl

theorem lt_pow_digitCount (n : Nat) : n < Nat.pow 10 (digitCount n) := by
  fun_induction digitCount n with
  | case1 => decide
  | case2 n _ ih =>
    rw [ten_pow_succ]
    omega

theorem pow_digitCount_le {n : Nat} (h : n ≠ 0) : Nat.pow 10 (digitCount n) ≤ 10 * n := by
  fun_induction digitCount n with
  | case1 => exact absurd rfl h
  | case2 n _ ih =>
    rw [ten_pow_succ]
    by_cases hn : n / 10 = 0
    · rw [hn, digitCount, if_pos rfl]
      change 1 * 10 ≤ 10 * n
      omega
    · have hi := ih hn
      omega

/-- Whether the magnitude is below `singleBound`. A number with `d` digits lies between
`10 ^ (d - 1)` and `10 ^ d`, so all but the magnitudes near `10 ^ 38` are settled by counting. -/
def Decimal.fitsSingle (d : Decimal) : Bool :=
  let size : Int := digitCount d.mantissa + d.exponent
  if d.mantissa = 0 ∨ size ≤ 38 then true
  else if 40 ≤ size then false
  else d.mantissa * Nat.pow 10 d.exponent.toNat < singleBound * Nat.pow 10 (-d.exponent).toNat

end TuiMarkup.Text
