import Mathlib.Tactic.Lemma
import TuiMarkup.Code.Page

/-!
Code as lines and blocks. A block is printed with its lines set in by one step, and the step is taken
back at its end.
-/

namespace TuiMarkup

inductive Layout where
  | line (text : String)
  | blank
  | block (opening : String) (body : List Layout) (closing : String)
  | inset (body : List Layout)

namespace Layout

def braced (header : String) (body : List Layout) : List Layout :=
  [.line header, .block "\x7b" body "\x7d"]

mutual

def print (p : Page) : Layout → Except UnbalancedIndent Page
  | line text => .ok (p.println text)
  | blank => .ok p.blank
  | block opening body closing => do
    let p ← printAll (p.println opening).inset body
    p.closeBlock closing
  | inset body => do
    let p ← printAll p.inset body
    p.outset

def printAll (p : Page) : List Layout → Except UnbalancedIndent Page
  | [] => .ok p
  | l :: ls => do
    let p ← print p l
    printAll p ls

end

variable {α β γ ε : Type} {p : Page}

lemma bind_eq (x : Except ε α) (f : α → Except ε β) : x >>= f = x.bind f := rfl

@[simp]
lemma ok_bind (x : α) (f : α → Except ε β) : (Except.ok x).bind f = f x := rfl

@[simp]
lemma bind_ok (x : Except ε α) : x.bind .ok = x := by
  cases x <;> rfl

@[simp]
lemma bind_bind (x : Except ε α) (f : α → Except ε β) (g : β → Except ε γ) :
    (x.bind f).bind g = x.bind fun a => (f a).bind g := by
  cases x <;> rfl

lemma printAll_nil : printAll p [] = .ok p := by
  rw [printAll]

lemma printAll_line (text : String) (ls : List Layout) :
    printAll p (.line text :: ls) = printAll (p.println text) ls := by
  rw [printAll, print]
  rfl

lemma printAll_blank (ls : List Layout) : printAll p (.blank :: ls) = printAll p.blank ls := by
  rw [printAll, print]
  rfl

lemma printAll_inset (body ls : List Layout) :
    printAll p (.inset body :: ls) =
      ((printAll p.inset body).bind Page.outset).bind (printAll · ls) := by
  rw [printAll, print]
  rfl

lemma printAll_block (opening closing : String) (body ls : List Layout) :
    printAll p (.block opening body closing :: ls) =
      ((printAll (p.println opening).inset body).bind (·.closeBlock closing)).bind
        (printAll · ls) := by
  rw [printAll, print]
  rfl

lemma printAll_append (ls ms : List Layout) :
    printAll p (ls ++ ms) = (printAll p ls).bind (printAll · ms) := by
  induction ls generalizing p with
  | nil =>
    rw [printAll]
    rfl
  | cons l ls ih =>
    rw [List.cons_append, printAll, printAll]
    cases print p l with
    | error e => rfl
    | ok q => exact ih

lemma printAll_lines (f : α → String) (xs : List α) :
    printAll p (xs.map fun x => .line (f x)) = .ok (xs.foldl (fun p x => p.println (f x)) p) := by
  induction xs generalizing p with
  | nil => exact printAll_nil
  | cons x xs ih => rw [List.map_cons, printAll_line, ih, List.foldl_cons]

lemma printAll_flatMap (f : α → List Layout) (xs : List α) :
    printAll p (xs.flatMap f) = xs.foldlM (fun p x => printAll p (f x)) p := by
  induction xs generalizing p with
  | nil => exact printAll_nil
  | cons x xs ih =>
    rw [List.flatMap_cons, printAll_append, List.foldlM_cons]
    cases printAll p (f x) with
    | error e => rfl
    | ok q => exact ih

end Layout

end TuiMarkup
