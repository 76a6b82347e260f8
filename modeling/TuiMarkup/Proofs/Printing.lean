import Mathlib.Algebra.Group.Nat.Defs
import Mathlib.Data.Nat.Notation
import Mathlib.Tactic.Lemma
import TuiMarkup.Proofs.Layout

/-! What is printed of code, line by line. -/

namespace TuiMarkup.Proofs.Printing

mutual

def lines (indent : UInt64) : Layout → List Line
  | .line text => [⟨text, indent⟩]
  | .blank => [⟨"", indent⟩]
  | .block opening body closing =>
    ⟨opening, indent⟩ :: linesAll (indent + 1) body ++ [⟨closing, indent⟩]
  | .inset body => linesAll (indent + 1) body

def linesAll (indent : UInt64) : List Layout → List Line
  | [] => []
  | l :: ls => lines indent l ++ linesAll indent ls

end

lemma linesAll_append (indent : UInt64) (ls ms : List Layout) :
    linesAll indent (ls ++ ms) = linesAll indent ls ++ linesAll indent ms := by
  induction ls with
  | nil => rfl
  | cons l ls ih => rw [List.cons_append, linesAll, linesAll, ih, List.append_assoc]

lemma linesAll_flatMap {α : Type} (indent : UInt64) (f : α → List Layout) (xs : List α) :
    linesAll indent (xs.flatMap f) = xs.flatMap fun x => linesAll indent (f x) := by
  induction xs with
  | nil => rfl
  | cons x xs ih => rw [List.flatMap_cons, linesAll_append, ih, List.flatMap_cons]

lemma linesAll_lines (indent : UInt64) (texts : List String) :
    linesAll indent (texts.map .line) = texts.map (⟨·, indent⟩) := by
  induction texts with
  | nil => rfl
  | cons text texts ih => rw [List.map_cons, linesAll, lines, ih, List.map_cons, List.singleton_append]

lemma linesAll_braced (indent : UInt64) (header : String) (body : List Layout) :
    linesAll indent (Layout.braced header body) =
      ⟨header, indent⟩ :: ⟨"\x7b", indent⟩ :: linesAll (indent + 1) body ++
        [⟨"\x7d", indent⟩] := by
  simp [Layout.braced, linesAll, lines]

mutual

def depth : Layout → ℕ
  | .line _ | .blank => 0
  | .block _ body _ | .inset body => depthAll body + 1

def depthAll : List Layout → ℕ
  | [] => 0
  | l :: ls => max (depth l) (depthAll ls)

end

lemma depthAll_le {n : ℕ} {ls : List Layout} : depthAll ls ≤ n ↔ ∀ l ∈ ls, depth l ≤ n := by
  induction ls with
  | nil => simp [depthAll]
  | cons l ls ih => rw [depthAll, Nat.max_le, ih, List.forall_mem_cons]

lemma depthAll_append (ls ms : List Layout) :
    depthAll (ls ++ ms) = max (depthAll ls) (depthAll ms) := by
  induction ls with
  | nil => exact (Nat.zero_max _).symm
  | cons l ls ih => rw [List.cons_append, depthAll, depthAll, ih, Nat.max_assoc]

lemma depthAll_map_line {α : Type} (f : α → String) (xs : List α) :
    depthAll (xs.map fun x => .line (f x)) = 0 := by
  apply Nat.le_zero.mp
  rw [depthAll_le, List.forall_mem_map]
  exact fun _ _ => Nat.le_refl 0

lemma depthAll_flatMap_le {α : Type} {n : ℕ} {f : α → List Layout} (h : ∀ x, depthAll (f x) ≤ n)
    (xs : List α) : depthAll (xs.flatMap f) ≤ n := by
  simp only [depthAll_le, List.mem_flatMap] at h ⊢
  rintro l ⟨x, -, hl⟩
  exact h x l hl

lemma depthAll_braced (header : String) (body : List Layout) :
    depthAll (Layout.braced header body) = depthAll body + 1 := by
  simp [Layout.braced, depthAll, depth]

/-! ### Room for the indent -/

/-- The indent can be made `n` steps deeper. -/
def Room (indent : UInt64) (n : ℕ) : Prop :=
  indent.toNat + n < 2 ^ 64

variable {indent : UInt64} {n : ℕ}

lemma Room.mono {m : ℕ} (h : Room indent n) (hm : m ≤ n) : Room indent m :=
  Nat.lt_of_le_of_lt (Nat.add_le_add_left hm _) h

lemma Room.toNat_succ (h : Room indent (n + 1)) : (indent + 1).toNat = indent.toNat + 1 := by
  rw [UInt64.toNat_add, Nat.mod_eq_of_lt]
  · rfl
  · exact h.mono (Nat.le_add_left 1 n)

lemma Room.succ (h : Room indent (n + 1)) : Room (indent + 1) n := by
  rw [Room, h.toNat_succ, Nat.add_assoc, Nat.add_comm 1]
  exact h

lemma Room.succ_ne (h : Room indent (n + 1)) : indent + 1 ≠ 0 := by
  intro hz
  have hn := h.toNat_succ
  rw [hz] at hn
  exact Nat.succ_ne_zero _ hn.symm

/-! ### Pages -/

/-- The page on a new line, `indent` steps in, with these lines ended before it. -/
def page (finished : List Line) (indent : UInt64) : Page :=
  { finished, current := { indent }, indent }

lemma blank_eq_page (p : Page) : p.blank = page (p.current :: p.finished) p.indent := rfl

variable {finished : List Line}

lemma println_page (text : String) :
    (page finished indent).println text = page (⟨text, indent⟩ :: finished) indent := by
  simp [Page.println, Page.print, Page.newline, page]

lemma inset_page : (page finished indent).inset = page finished (indent + 1) := rfl

lemma outset_page (h : Room indent (n + 1)) :
    (page finished (indent + 1)).outset = .ok (page finished indent) := by
  have hi : (page finished (indent + 1)).indent = indent + 1 := rfl
  rw [Page.outset, hi, if_neg h.succ_ne, UInt64.add_sub_cancel]
  rfl

mutual

/-- On a new line a part of the code adds its lines, and the indent is what it was. -/
theorem print_page (finished : List Line) (indent : UInt64) : ∀ l, Room indent (depth l) →
    Layout.print (page finished indent) l =
      .ok (page ((lines indent l).reverse ++ finished) indent)
  | .line text, _ => by
    rw [Layout.print, println_page]
    rfl
  | .blank, _ => by
    rw [Layout.print, blank_eq_page]
    rfl
  | .block opening body closing, h => by
    rw [depth] at h
    rw [Layout.print, println_page, inset_page, printAll_page _ _ _ h.succ, lines]
    -- there was room for the step, so the word has not come round to zero
    change (page _ (indent + 1)).closeBlock closing = _
    rw [Page.closeBlock, outset_page h, Except.map, println_page]
    simp
  | .inset body, h => by
    rw [depth] at h
    rw [Layout.print, inset_page, printAll_page _ _ _ h.succ, lines]
    exact outset_page h

theorem printAll_page (finished : List Line) (indent : UInt64) : ∀ ls, Room indent (depthAll ls) →
    Layout.printAll (page finished indent) ls =
      .ok (page ((linesAll indent ls).reverse ++ finished) indent)
  | [], _ => by
    rw [Layout.printAll]
    rfl
  | l :: ls, h => by
    rw [depthAll] at h
    rw [Layout.printAll, print_page _ _ _ (h.mono (Nat.le_max_left ..))]
    change Layout.printAll (page _ indent) ls = _
    rw [printAll_page _ _ _ (h.mono (Nat.le_max_right ..)), linesAll, List.reverse_append,
      List.append_assoc]

end

/-! ### Balance -/

variable {p : Page}

lemma outset_ok {q : Page} (h : Room p.indent (n + 1)) (hq : q.indent = p.indent + 1) :
    ∃ r, q.outset = .ok r ∧ r.indent = p.indent := by
  refine ⟨q.setIndent (q.indent - 1), ?_, ?_⟩
  · rw [Page.outset, hq, if_neg h.succ_ne]
  · rw [hq, UInt64.add_sub_cancel]
    rfl

mutual

/-- Every indent that is made is taken back. -/
theorem print_ok (p : Page) : ∀ l, Room p.indent (depth l) →
    ∃ q, Layout.print p l = .ok q ∧ q.indent = p.indent
  | .line text, _ => ⟨p.println text, by rw [Layout.print], rfl⟩
  | .blank, _ => ⟨p.blank, by rw [Layout.print], rfl⟩
  | .block opening body closing, h => by
    rw [depth] at h
    obtain ⟨q, hq, hi⟩ := printAll_ok (p.println opening).inset body h.succ
    obtain ⟨r, hr, hn⟩ := outset_ok h hi
    refine ⟨r.println closing, ?_, hn⟩
    rw [Layout.print, hq]
    change q.closeBlock closing = _
    rw [Page.closeBlock, hr]
    rfl
  | .inset body, h => by
    rw [depth] at h
    obtain ⟨q, hq, hi⟩ := printAll_ok p.inset body h.succ
    obtain ⟨r, hr, hn⟩ := outset_ok h hi
    refine ⟨r, ?_, hn⟩
    rw [Layout.print, hq]
    exact hr

theorem printAll_ok (p : Page) : ∀ ls, Room p.indent (depthAll ls) →
    ∃ q, Layout.printAll p ls = .ok q ∧ q.indent = p.indent
  | [], _ => ⟨p, by rw [Layout.printAll], rfl⟩
  | l :: ls, h => by
    rw [depthAll] at h
    obtain ⟨q, hq, hi⟩ := print_ok p l (h.mono (Nat.le_max_left ..))
    obtain ⟨r, hr, hn⟩ := printAll_ok q ls (hi ▸ h.mono (Nat.le_max_right ..))
    refine ⟨r, ?_, hn.trans hi⟩
    rw [Layout.printAll, hq]
    exact hr

end

end TuiMarkup.Proofs.Printing
