import TuiMarkup.Markup.Piece
import TuiMarkup.Text.LineBreak

/-!
Reading a whole text as markup. The pieces in their order are the text itself, so that places need
not be known while the text is read; `Piece.locate` finds them afterwards. Reading stops at the first
failure.
-/

namespace TuiMarkup.Markup

structure Scan where
  pieces : List Piece
  failure : Option Failure
deriving DecidableEq, Repr

def Scan.cons (piece : Piece) (s : Scan) : Scan :=
  { s with pieces := piece :: s.pieces }

/-- All pieces of a text. What has been read before a failure is a gap. -/
def scan (mode : Mode) (cs : List Char) : Scan :=
  if _h : mode = .content ∧ cs = [] then { pieces := [], failure := none }
  else
    match _hs : step mode cs with
    | .read piece next rest => (scan next rest).cons piece
    | .fail text failure => { pieces := [.gap text], failure }
termination_by cs.length
decreasing_by exact length_step_rest (fun hm hc => _h ⟨hm, hc⟩) _hs

/-! ### Places -/

def Piece.locate (l : Location) : List Piece → List Token × Location
  | [] => ([], l)
  | token content text :: ps =>
    let (ts, stop) := locate (l.after text) ps
    ({ content, span := ⟨l, l.after text⟩ } :: ts, stop)
  | gap text :: ps => locate (l.after text) ps

structure Tokens where
  tokens : List Token
  fault : Option Fault
deriving DecidableEq, Repr

def Scan.tokens (s : Scan) : Tokens :=
  let (ts, l) := Piece.locate {} s.pieces
  match s.failure with
  | none => { tokens := ts ++ [⟨.eof, l, l⟩], fault := none }
  | some f =>
    let stop := l.after f.lexeme
    { tokens := ts ++ [⟨.eof, stop, stop⟩], fault := some ⟨f.cause, l, stop⟩ }

def tokenize (source : String) : Tokens :=
  (scan .content (Text.unifyBreakChars source.toList)).tokens

end TuiMarkup.Markup
