import Mathlib.Tactic.Lemma
import TuiMarkup.Markup.Tree

/-! Reading resumed in the middle of a text. Pieces, places and the tree are found in three passes;
here they are taken together, so that one piece is one step of the builder. -/

namespace TuiMarkup.Proofs.Reading

open Markup

/-- The tree of what is left of a text when the builder has come to `b` at the place `l`. -/
def resume (catalog : Catalog) (b : Builder) (l : Location) (mode : Mode) (cs : List Char) : Tree :=
  let s := scan mode cs
  let (ts, stop) := Piece.locate l s.pieces
  match s.failure with
  | none => Tree.build catalog b (ts ++ [⟨.eof, stop, stop⟩])
  | some f => { root := none, fault := some ⟨f.cause, stop, stop.after f.lexeme⟩ }

variable {catalog : Catalog} {b b' : Builder} {l : Location} {mode next : Mode}
variable {cs text rest : List Char} {content : Content}

theorem read_eq_resume (catalog : Catalog) (source : String) :
    Tree.read catalog source =
      resume catalog {} {} .content (Text.unifyBreakChars source.toList) := by
  simp only [Tree.read, tokenize, Scan.tokens, resume]
  cases (scan .content (Text.unifyBreakChars source.toList)).failure <;> rfl

lemma scan_read {piece : Piece} (hm : mode = .content → cs ≠ [])
    (hs : step mode cs = .read piece next rest) : scan mode cs = (scan next rest).cons piece := by
  rw [scan, dif_neg (fun h => hm h.1 h.2)]
  split
  · next h =>
    rw [hs] at h
    cases h
    rfl
  · next h =>
    rw [hs] at h
    cases h

lemma resume_token (hm : mode = .content → cs ≠ [])
    (hs : step mode cs = .read (.token content text) next rest)
    (hb : b.next catalog ⟨content, l, l.after text⟩ = .ok b') :
    resume catalog b l mode cs = resume catalog b' (l.after text) next rest := by
  simp only [resume, scan_read hm hs, Scan.cons, Piece.locate, List.cons_append]
  cases (scan next rest).failure with
  | none => simp only [Tree.build, hb]
  | some f => rfl

lemma resume_gap (hm : mode = .content → cs ≠ [])
    (hs : step mode cs = .read (.gap text) next rest) :
    resume catalog b l mode cs = resume catalog b (l.after text) next rest := by
  simp only [resume, scan_read hm hs, Scan.cons, Piece.locate]

lemma resume_end {root : Element} {count : Nat} :
    resume catalog ⟨.content, [], some root, count⟩ l .content [] = ⟨some root, none⟩ := by
  simp [resume, scan, Piece.locate, Tree.build, Builder.next, Builder.contentToken,
    Builder.endFault?]

end TuiMarkup.Proofs.Reading
