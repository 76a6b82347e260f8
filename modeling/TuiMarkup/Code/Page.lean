import TuiMarkup.Text.Split

/-!
A page of indented text. Lines are filled from the left and ended; the indent of a line is settled by
what is first printed on it, so that a line on which nothing is printed stays empty.

Indents and widths are machine words, and their sums and products wrap around. A text of `2 ^ 63` bytes
or more is not to be had: the program ends when it is asked for one, which is not shown here.
-/

namespace TuiMarkup

structure Line where
  text : String := ""
  indent : UInt64
deriving DecidableEq, Repr

def Line.render (width : UInt64) (l : Line) : String :=
  if l.text = "" then "" else Text.blanks (l.indent * width).toNat ++ l.text

structure Page where
  /-- The lines that have been ended, the last one first. -/
  finished : List Line := []
  current : Line
  indent : UInt64
deriving DecidableEq, Repr

/-- An indent was taken back that had not been made, or was not taken back in the end. -/
structure UnbalancedIndent where
  /-- What the call that failed has left. -/
  page : Page
deriving DecidableEq, Repr

namespace Page

def new (indent : Nat) : Page :=
  { current := { indent := .ofNat indent }, indent := .ofNat indent }

def lineIsEmpty (p : Page) : Bool :=
  p.current.text == ""

def print (p : Page) (part : String) : Page :=
  { p with current := { p.current with text := p.current.text ++ part } }

def newline (p : Page) : Page :=
  { p with finished := p.current :: p.finished, current := { indent := p.indent } }

def println (p : Page) (part : String) : Page :=
  (p.print part).newline

def blank (p : Page) : Page :=
  p.newline

/-- Changes the indent, also that of a line on which nothing has been printed. -/
def setIndent (p : Page) (indent : UInt64) : Page :=
  { p with
    indent
    current := if p.lineIsEmpty then { p.current with indent } else p.current }

def inset (p : Page) : Page :=
  p.setIndent (p.indent + 1)

def outset (p : Page) : Except UnbalancedIndent Page :=
  if p.indent = 0 then .error ⟨p⟩ else .ok (p.setIndent (p.indent - 1))

def openBlock (p : Page) : Page :=
  (p.println "\x7b").inset

def closeBlock (p : Page) (closing : String) : Except UnbalancedIndent Page :=
  p.outset.map (·.println closing)

def lines (p : Page) : List Line :=
  (p.current :: p.finished).reverse

def render (p : Page) (width : Nat) : Except UnbalancedIndent String :=
  if p.indent = 0 then .ok ("\n".intercalate (p.lines.map (Line.render (.ofNat width))))
  else .error ⟨p⟩

end Page

end TuiMarkup
