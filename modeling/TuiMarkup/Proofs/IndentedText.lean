import Mathlib.Algebra.Group.Nat.Defs
import Mathlib.Data.List.Forall2
import Mathlib.Data.Nat.Notation
import Mathlib.Tactic.Lemma
import TuiMarkup.Code.Page

/-! What a sequence of calls leaves on a page. -/

namespace TuiMarkup.Proofs.IndentedText

/-! ### Calls -/

inductive Call where
  | print (part : String)
  | println (part : String)
  | blank
  | inset
  | outset
  | openBlock
  | closeBlock (closing : String)
deriving DecidableEq

def Call.make (p : Page) : Call → Except UnbalancedIndent Page
  | print part => .ok (p.print part)
  | println part => .ok (p.println part)
  | blank => .ok p.blank
  | inset => .ok p.inset
  | outset => p.outset
  | openBlock => .ok p.openBlock
  | closeBlock closing => p.closeBlock closing

inductive Call.TakesBack : Call → Prop
  | outset : TakesBack .outset
  | closeBlock (closing : String) : TakesBack (.closeBlock closing)

/-- The page after a call, also after one that has failed. -/
def step (p : Page) (c : Call) : Page :=
  match c.make p with
  | .ok q => q
  | .error e => e.page

def run (p : Page) (cs : List Call) : Page :=
  cs.foldl step p

def kept (p : Page) : List Call → List Call
  | [] => []
  | c :: cs =>
    match c.make p with
    | .ok q => c :: kept q cs
    | .error _ => kept p cs

/-! ### Rows -/

/-- Parts with the indents in force when they are printed. -/
abbrev Row := List (UInt64 × String)

inductive Mark where
  | part (indent : UInt64) (text : String)
  | lineEnd

def Call.after (k : UInt64) : Call → UInt64
  | inset | openBlock => k + 1
  | outset | closeBlock _ => if k = 0 then 0 else k - 1
  | print _ | println _ | blank => k

def Call.marks (k : UInt64) : Call → List Mark
  | print part => [.part k part]
  | println part => [.part k part, .lineEnd]
  | blank => [.lineEnd]
  | inset | outset => []
  | openBlock => [.part k "\x7b", .lineEnd]
  | closeBlock closing => if k = 0 then [] else [.part (k - 1) closing, .lineEnd]

def marks (k : UInt64) : List Call → List Mark
  | [] => []
  | c :: cs => c.marks k ++ marks (c.after k) cs

def rowsFrom (row : Row) : List Mark → List Row
  | [] => [row]
  | .part k text :: ms => rowsFrom (row ++ [(k, text)]) ms
  | .lineEnd :: ms => row :: rowsFrom [] ms

def rows (k : UInt64) (cs : List Call) : List Row :=
  rowsFrom [] (marks k cs)

def body : Row → String
  | [] => ""
  | (_, text) :: row => text ++ body row

/-- The indent in force when the first part that is not empty is printed. -/
def firstIndent? : Row → Option UInt64
  | [] => none
  | (k, text) :: row => if text = "" then firstIndent? row else some k

def rowText (width : UInt64) (row : Row) : String :=
  match firstIndent? row with
  | none => ""
  | some k => Text.blanks (k * width).toNat ++ body row

def Fits (width : ℕ) (rs : List Row) : Prop :=
  ∀ row ∈ rs, ∀ k, firstIndent? row = some k → width * k.toNat < 2 ^ 63

variable {p q : Page} {row row' row'' : Row} {ms ms' : List Mark} {c : Call}

lemma body_concat (row : Row) (k : UInt64) (text : String) :
    body (row ++ [(k, text)]) = body row ++ text := by
  induction row with
  | nil => simp [body]
  | cons x row ih => rw [List.cons_append, body, body, ih, String.append_assoc]

lemma firstIndent?_concat (row : Row) (k : UInt64) (text : String) :
    firstIndent? (row ++ [(k, text)]) =
      (firstIndent? row).or (if text = "" then none else some k) := by
  induction row with
  | nil => simp [firstIndent?]
  | cons x row ih =>
    rw [List.cons_append, firstIndent?, firstIndent?, ih]
    split <;> rfl

lemma firstIndent?_eq_none : firstIndent? row = none ↔ body row = "" := by
  induction row with
  | nil => simp [firstIndent?, body]
  | cons x row ih =>
    rw [firstIndent?, body, String.append_eq_empty_iff, ← ih]
    split <;> simp_all

/-! ### The open line -/

/-- The row stands on the open line. Until something is printed on it the line has the indent of the
page. -/
structure Held (p : Page) (row : Row) : Prop where
  text : p.current.text = body row
  indent : p.current.indent = (firstIndent? row).getD p.indent

def Shown (l : Line) (row : Row) : Prop :=
  ∀ width, l.render width = rowText width row

lemma Held.shown (h : Held p row) : Shown p.current row := by
  intro width
  rw [Line.render, rowText, h.text, h.indent]
  cases hf : firstIndent? row with
  | none => rw [if_pos (firstIndent?_eq_none.mp hf)]
  | some k =>
    rw [if_neg (mt firstIndent?_eq_none.mpr (by simp [hf])), Option.getD_some]

/-- From a page with one row on its open line the marks lead to a page with another one, and the
lines ended on the way show the rows in between. -/
structure Leads (p : Page) (row : Row) (ms : List Mark) (q : Page) (row' : Row) : Prop where
  held : Held q row'
  ended : ∃ ls rs, q.finished = ls.reverse ++ p.finished ∧ List.Forall₂ Shown ls rs ∧
    ∀ rest, rowsFrom row (ms ++ rest) = rs ++ rowsFrom row' rest

lemma Leads.trans {r : Page} (h : Leads p row ms q row') (h' : Leads q row' ms' r row'') :
    Leads p row (ms ++ ms') r row'' := by
  obtain ⟨ls, rs, hf, hs, hr⟩ := h.ended
  obtain ⟨ls', rs', hf', hs', hr'⟩ := h'.ended
  refine ⟨h'.held, ls ++ ls', rs ++ rs', ?_, List.rel_append hs hs', fun rest => ?_⟩
  · rw [hf', hf, List.reverse_append, List.append_assoc]
  · rw [List.append_assoc, hr, hr', List.append_assoc]

lemma Held.leads_print (h : Held p row) (text : String) :
    Leads p row [.part p.indent text] (p.print text) (row ++ [(p.indent, text)]) := by
  refine ⟨⟨?_, ?_⟩, [], [], rfl, .nil, fun rest => rfl⟩
  · rw [body_concat, ← h.text]
    rfl
  · rw [firstIndent?_concat]
    change p.current.indent = Option.getD _ p.indent
    rw [h.indent]
    cases firstIndent? row with
    | some k => rfl
    | none => split <;> rfl

lemma Held.leads_newline (h : Held p row) : Leads p row [.lineEnd] p.newline [] :=
  ⟨⟨rfl, rfl⟩, [p.current], [row], rfl, .cons h.shown .nil, fun _ => rfl⟩

lemma Held.leads_setIndent (h : Held p row) (k : UInt64) : Leads p row [] (p.setIndent k) row := by
  refine ⟨⟨?_, ?_⟩, [], [], rfl, .nil, fun rest => rfl⟩
  · rw [← h.text, Page.setIndent]
    dsimp only
    split <;> rfl
  · rw [Page.setIndent, Page.lineIsEmpty, h.text]
    dsimp only
    -- The line follows the page as long as nothing is on it, and keeps its own indent afterwards.
    cases hf : firstIndent? row with
    | none => simp [firstIndent?_eq_none.mp hf]
    | some j =>
      have hb : body row ≠ "" := mt firstIndent?_eq_none.mpr (by simp [hf])
      simp [hb, h.indent, hf]

lemma Held.leads_println (h : Held p row) (text : String) :
    Leads p row [.part p.indent text, .lineEnd] (p.println text) [] :=
  (h.leads_print text).trans (h.leads_print text).held.leads_newline

/-! ### Steps and runs -/

lemma outset_of_pos (h : p.indent ≠ 0) : p.outset = .ok (p.setIndent (p.indent - 1)) :=
  if_neg h

lemma outset_eq_error {e : UnbalancedIndent} :
    p.outset = .error e ↔ p.indent = 0 ∧ e = ⟨p⟩ := by
  rw [Page.outset]
  split <;> simp_all [eq_comm]

lemma closeBlock_eq_error {closing : String} {e : UnbalancedIndent} :
    p.closeBlock closing = .error e ↔ p.outset = .error e := by
  rw [Page.closeBlock]
  cases p.outset <;> simp [Except.map]

/-- A call that fails leaves the page as it was. -/
theorem make_eq_error {e : UnbalancedIndent} :
    c.make p = .error e ↔ (c.TakesBack ∧ p.indent = 0) ∧ e.page = p := by
  have he : e = ⟨p⟩ ↔ e.page = p := by
    cases e
    simp
  cases c with
  | outset => simp [Call.make, outset_eq_error, he, Call.TakesBack.outset]
  | closeBlock closing =>
    simp [Call.make, closeBlock_eq_error, outset_eq_error, he, Call.TakesBack.closeBlock]
  | _ =>
    constructor
    · intro h
      cases h
    · rintro ⟨⟨h, -⟩, -⟩
      cases h

lemma step_of_error {e : UnbalancedIndent} (h : c.make p = .error e) : step p c = p := by
  rw [step, h]
  exact (make_eq_error.mp h).2

theorem step_leads (h : Held p row) (c : Call) :
    (step p c).indent = c.after p.indent ∧
      ∃ row', Leads p row (c.marks p.indent) (step p c) row' := by
  cases c with
  | print text => exact ⟨rfl, _, h.leads_print text⟩
  | println text => exact ⟨rfl, _, h.leads_println text⟩
  | blank => exact ⟨rfl, _, h.leads_newline⟩
  | inset => exact ⟨rfl, _, h.leads_setIndent _⟩
  | openBlock =>
    have hp := h.leads_println "\x7b"
    exact ⟨rfl, _, hp.trans (hp.held.leads_setIndent _)⟩
  | outset =>
    -- A call that fails has no marks, and the row stays on the page as it is.
    by_cases hi : p.indent = 0
    · have hs : step p .outset = p :=
        step_of_error (make_eq_error.mpr ⟨⟨.outset, hi⟩, rfl⟩)
      rw [hs]
      exact ⟨by simp [Call.after, hi], row, h, [], [], rfl, .nil, fun _ => rfl⟩
    · have hs : step p .outset = p.setIndent (p.indent - 1) := by
        rw [step, Call.make, outset_of_pos hi]
      rw [hs]
      exact ⟨(if_neg hi).symm, row, h.leads_setIndent _⟩
  | closeBlock closing =>
    by_cases hi : p.indent = 0
    · have hs : step p (.closeBlock closing) = p :=
        step_of_error (make_eq_error.mpr ⟨⟨.closeBlock closing, hi⟩, rfl⟩)
      rw [hs, Call.marks, if_pos hi]
      exact ⟨by simp [Call.after, hi], row, h, [], [], rfl, .nil, fun _ => rfl⟩
    · have hs : step p (.closeBlock closing) = (p.setIndent (p.indent - 1)).println closing := by
        rw [step, Call.make, Page.closeBlock, outset_of_pos hi]
        rfl
      have hl := h.leads_setIndent (p.indent - 1)
      rw [hs, Call.marks, if_neg hi]
      exact ⟨(if_neg hi).symm, _, hl.trans (hl.held.leads_println closing)⟩

theorem run_leads (h : Held p row) (cs : List Call) :
    (run p cs).indent = cs.foldl Call.after p.indent ∧
      ∃ row', Leads p row (marks p.indent cs) (run p cs) row' := by
  induction cs generalizing p row with
  | nil => exact ⟨rfl, row, h, [], [], rfl, .nil, fun _ => rfl⟩
  | cons c cs ih =>
    obtain ⟨hi, row', hl⟩ := step_leads h c
    obtain ⟨hn, row'', hr⟩ := ih hl.held
    rw [hi] at hn hr
    exact ⟨hn, row'', hl.trans hr⟩

lemma held_new (indent : ℕ) : Held (Page.new indent) [] := ⟨rfl, rfl⟩

theorem run_shown (indent : ℕ) (cs : List Call) :
    List.Forall₂ Shown (run (Page.new indent) cs).lines (rows (.ofNat indent) cs) := by
  obtain ⟨-, row, hl⟩ := run_leads (held_new indent) cs
  obtain ⟨ls, rs, hf, hs, hr⟩ := hl.ended
  have hp : (run (Page.new indent) cs).lines = ls ++ [(run (Page.new indent) cs).current] := by
    rw [Page.lines, List.reverse_cons, hf, List.reverse_append, List.reverse_reverse]
    rfl
  have hm := hr []
  rw [List.append_nil] at hm
  change rows (.ofNat indent) cs = rs ++ [row] at hm
  rw [hp, hm]
  exact List.rel_append hs (.cons hl.held.shown .nil)

theorem foldlM_kept (p : Page) (cs : List Call) :
    (kept p cs).foldlM Call.make p = .ok (run p cs) := by
  induction cs generalizing p with
  | nil => rfl
  | cons c cs ih =>
    rw [kept, run, List.foldl_cons, step]
    cases hc : c.make p with
    | error e =>
      dsimp only
      rw [(make_eq_error.mp hc).2]
      exact ih p
    | ok q =>
      rw [List.foldlM_cons, hc]
      exact ih q

/-! ### Texts -/

lemma map_render {ls : List Line} {rs : List Row} (h : List.Forall₂ Shown ls rs) (width : UInt64) :
    ls.map (Line.render width) = rs.map (rowText width) := by
  induction h with
  | nil => rfl
  | cons hl _ ih => rw [List.map_cons, List.map_cons, hl width, ih]

lemma toNat_mul_ofNat {k : UInt64} {width : ℕ} (h : width * k.toNat < 2 ^ 63) :
    (k * .ofNat width).toNat = width * k.toNat := by
  rw [UInt64.toNat_mul, UInt64.toNat_ofNat', Nat.mul_mod_mod, Nat.mul_comm]
  exact Nat.mod_eq_of_lt (by omega)

inductive Widened (width width' : UInt64) : String → String → Prop
  | empty : Widened width width' "" ""
  | indented (k : UInt64) {text : String} : text ≠ "" →
      Widened width width' (Text.blanks (k * width).toNat ++ text)
        (Text.blanks (k * width').toNat ++ text)

lemma widened_rowText (width width' : UInt64) (row : Row) :
    Widened width width' (rowText width row) (rowText width' row) := by
  rw [rowText, rowText]
  cases hf : firstIndent? row with
  | none => exact .empty
  | some k => exact .indented k (mt firstIndent?_eq_none.mpr (by simp [hf]))

/-- After any calls, on any page, exactly the calls that take an indent back fail, and those only
when there is none. Such a call leaves the page as it was, so that in the end the page holds what the
other calls print. The text is there once every indent has been taken back, and each of its lines
stands as far in as its first part did. -/
theorem calls_rendered (indent : ℕ) (cs : List Call) :
    (∀ (p : Page) (c : Call), (∃ e, c.make p = .error e) ↔ c.TakesBack ∧ p.indent = 0) ∧
      (∀ (p : Page) (c : Call) e, c.make p = .error e → e.page = p) ∧
      (kept (Page.new indent) cs).foldlM Call.make (Page.new indent) =
        .ok (run (Page.new indent) cs) ∧
      (run (Page.new indent) cs).indent = cs.foldl Call.after (.ofNat indent) ∧
      (∀ width, (run (Page.new indent) cs).render width =
        if cs.foldl Call.after (.ofNat indent) = 0 then
          .ok ("\n".intercalate ((rows (.ofNat indent) cs).map (rowText (.ofNat width))))
        else .error ⟨run (Page.new indent) cs⟩) ∧
      (∀ width, Fits width (rows (.ofNat indent) cs) →
        (rows (.ofNat indent) cs).map (rowText (.ofNat width)) =
          (rows (.ofNat indent) cs).map fun row =>
            match firstIndent? row with
            | none => ""
            | some k => Text.blanks (width * k.toNat) ++ body row) ∧
      ∀ width width', List.Forall₂ (Widened width width')
        ((rows (.ofNat indent) cs).map (rowText width))
        ((rows (.ofNat indent) cs).map (rowText width')) := by
  have hi := (run_leads (held_new indent) cs).1
  refine ⟨fun p c => ?_, fun p c e hc => (make_eq_error.mp hc).2, foldlM_kept _ cs, hi,
    fun width => ?_, fun width hw => ?_, fun width width' => ?_⟩
  · constructor
    · rintro ⟨e, he⟩
      exact (make_eq_error.mp he).1
    · intro h
      exact ⟨⟨p⟩, make_eq_error.mpr ⟨h, rfl⟩⟩
  · rw [Page.render, hi, map_render (run_shown indent cs)]
    rfl
  · refine List.map_congr_left fun row hr => ?_
    rw [rowText]
    cases hf : firstIndent? row with
    | none => rfl
    | some k => simp only [toNat_mul_ofNat (hw row hr k hf)]
  · rw [List.forall₂_map_left_iff, List.forall₂_map_right_iff, List.forall₂_same]
    exact fun row _ => widened_rowText width width' row

end TuiMarkup.Proofs.IndentedText
