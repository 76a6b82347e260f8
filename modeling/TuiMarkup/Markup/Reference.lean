import TuiMarkup.Markup.Fault
import TuiMarkup.Markup.Name

/-!
Characters of values and texts. A character stands for itself or is written as a reference, by its
number or by the name of an entity.
-/

namespace TuiMarkup.Markup

structure Failure where
  cause : Cause
  lexeme : List Char := []
deriving DecidableEq, Repr

def unexpected : List Char → Failure
  | [] => { cause := .unexpectedEnd }
  | c :: _ => { cause := .unexpectedChar c }

def hexValue (c : Char) : Nat :=
  if Text.isDecimalDigit c then c.toNat - '0'.toNat
  else if 'a' ≤ c then c.toNat - 'a'.toNat + 10
  else c.toNat - 'A'.toNat + 10

def hexadecimalValue (ds : List Char) : Nat :=
  ds.foldl (fun n c => 16 * n + hexValue c) 0

def charOfNumber? (n : Nat) : Option Char :=
  if n.isValidChar then some (Char.ofNat n) else none

def namedEntity? (name : List Char) : Option Char :=
  if name = ['l', 't'] then some '<'
  else if name = ['g', 't'] then some '>'
  else if name = ['a', 'm', 'p'] then some '&'
  else if name = ['q', 'u', 'o', 't'] then some '"'
  else if name = ['a', 'p', 'o', 's'] then some '\''
  else none

structure Reference where
  value : Char
  text : List Char
  rest : List Char
deriving DecidableEq, Repr

/-- Closes a reference whose text up to the semicolon is `text`. Failures show all of it. -/
def closeReference (value : Option Char) (text : List Char) (cause : String → Cause) :
    List Char → Except Failure Reference
  | ';' :: rest =>
    let text := text ++ [';']
    match value with
    | some value => .ok { value, text, rest }
    | none => .error { cause := cause (String.ofList text), lexeme := text }
  | _ => .error { cause := cause (String.ofList text), lexeme := text }

def numericReference (mark : List Char) (isDigit : Char → Bool) (number : List Char → Nat)
    (cs : List Char) : Except Failure Reference :=
  let digits := cs.takeWhile isDigit
  let value := if digits = [] then none else charOfNumber? (number digits)
  closeReference value (mark ++ digits) .malformedReference (cs.dropWhile isDigit)

def reference : List Char → Except Failure Reference
  | '#' :: 'x' :: cs => numericReference ['&', '#', 'x'] isHexDigit hexadecimalValue cs
  | '#' :: cs => numericReference ['&', '#'] Text.isDecimalDigit Text.decimalValue cs
  | cs =>
    let name := cs.takeWhile isNamePart
    closeReference (namedEntity? name) ('&' :: name) .unknownEntity (cs.dropWhile isNamePart)

theorem closeReference_eq {value : Option Char} {text cs : List Char} {cause : String → Cause}
    {r : Reference} (h : closeReference value text cause cs = .ok r) :
    r.text = text ++ [';'] ∧ r.text ++ r.rest = text ++ cs := by
  unfold closeReference at h
  split at h
  · split at h
    · cases h; simp
    · cases h
  · cases h

theorem reference_eq {cs : List Char} {r : Reference} (h : reference cs = .ok r) :
    r.text ++ r.rest = '&' :: cs ∧ 1 < r.text.length := by
  unfold reference numericReference at h
  split at h
  all_goals
    have ⟨ht, he⟩ := closeReference_eq h
    refine ⟨?_, by simp [ht]⟩
    simpa [List.takeWhile_append_dropWhile] using he

theorem length_reference_rest {cs : List Char} {r : Reference} (h : reference cs = .ok r) :
    r.rest.length < cs.length := by
  have ⟨he, hl⟩ := reference_eq h
  have := congrArg List.length he
  simp only [List.length_append, List.length_cons] at this
  omega

structure Run where
  value : List Char
  text : List Char
  rest : List Char
  failure : Option Failure := none
deriving DecidableEq, Repr

def Run.cons (value : Char) (text : List Char) (r : Run) : Run :=
  { r with value := value :: r.value, text := text ++ r.text }

/-- Reads characters, each as `spell` has it, and references, until `halts` holds. -/
def run (halts : Char → Bool) (spell : Char → Char) : List Char → Run
  | [] => { value := [], text := [], rest := [] }
  | c :: cs =>
    if halts c then { value := [], text := [], rest := c :: cs }
    else if c = '&' then
      match _h : reference cs with
      | .ok r => (run halts spell r.rest).cons r.value r.text
      | .error f => { value := [], text := [], rest := [], failure := f }
    else (run halts spell cs).cons (spell c) [c]
termination_by cs => cs.length
decreasing_by
  · exact Nat.lt_succ_of_lt (length_reference_rest _h)
  · simp

theorem run_eq {halts : Char → Bool} {spell : Char → Char} {cs : List Char}
    (h : (run halts spell cs).failure = none) :
    (run halts spell cs).text ++ (run halts spell cs).rest = cs := by
  fun_induction run halts spell cs with
  | case1 => rfl
  | case2 => rfl
  | case3 cs r hr _ ih =>
    have he := (reference_eq hr).1
    simp only [Run.cons] at h ⊢
    rw [List.append_assoc, ih h, he]
  | case4 => simp at h
  | case5 c cs _ _ ih =>
    simp only [Run.cons] at h ⊢
    simp [ih h]

theorem run_text_ne_nil {halts : Char → Bool} {spell : Char → Char} {c : Char} {cs : List Char}
    (h : halts c = false) (hf : (run halts spell (c :: cs)).failure = none) :
    (run halts spell (c :: cs)).text ≠ [] := by
  rw [run, if_neg (by simp [h])] at hf ⊢
  split
  · next hc =>
    rw [if_pos hc] at hf
    split at hf
    · next r hr =>
      have := (reference_eq hr).2
      cases ht : r.text <;> simp_all [Run.cons]
    · simp at hf
  · simp [Run.cons]

end TuiMarkup.Markup
