import Mathlib.Tactic.Lemma
import TuiMarkup.Proofs.ClassLayout
import TuiMarkup.Proofs.Generation
import TuiMarkup.Proofs.IndentedText
import TuiMarkup.Proofs.Printing

/-! The text of a class, line by line. -/

namespace TuiMarkup.Proofs.ClassText

open ClassFile Generation Printing

/-! ### Depths -/

lemma depth_activation (t : Target) : depthAll (activation t) = 2 := rfl

lemma depth_initialStep (t : Target) : depthAll (initialStep t) ≤ 2 := by
  rw [initialStep]
  split
  · exact Nat.le_of_eq (depth_activation t)
  · exact Nat.zero_le 2

lemma depth_enabling (t : Target) : depthAll (enabling t) = 2 := rfl

lemma depth_initializer (c : ClassFile) : depthAll c.initializer = 1 := by
  rw [initializer, depthAll_braced, depthAll_append, depthAll_map_line]
  split <;> rfl

lemma depth_setup (w : Wiring) : depthAll (setup w) ≤ 3 := by
  have hg : depthAll ((w.source.map guardSource).getD []) = 0 := by
    cases w.source <;> rfl
  have hi := depthAll_flatMap_le depth_initialStep w.targets
  have hr : depthAll (w.reverses.map reverseSubscription) = 0 := depthAll_map_line _ _
  have he := depthAll_flatMap_le (fun t => Nat.le_of_eq (depth_enabling t)) w.commands
  rw [setup, depthAll_braced]
  simp only [depthAll_append, hg, hr, depthAll, depth]
  omega

lemma depth_dispatchCase (member : String) (assignments : List String) :
    depthAll (dispatchCase member assignments) = 1 := by
  have ha : depthAll (assignments.map .line) = 0 := depthAll_map_line id assignments
  simp [dispatchCase, depthAll, depth, depthAll_append, ha]

lemma depth_dispatcher (w : Wiring) : depthAll (dispatcher w) ≤ 3 := by
  have hc := depthAll_flatMap_le
    (fun c : String × List String => Nat.le_of_eq (depth_dispatchCase c.1 c.2)) w.cases.entries
  rw [dispatcher, depthAll_braced, depthAll_braced]
  exact Nat.succ_le_succ (Nat.succ_le_succ hc)

lemma depth_reverseMethod (r : Reverse) : depthAll (reverseMethod r) = 2 := rfl

lemma depth_wiringMethods (w : Wiring) : depthAll (wiringMethods w) ≤ 3 := by
  have hs := depth_setup w
  have hd := depth_dispatcher w
  have hr := depthAll_flatMap_le (fun r => Nat.le_of_eq (depth_reverseMethod r)) w.reverses
  simp only [wiringMethods, List.cons_append, depthAll, depthAll_append, depth]
  omega

lemma depth_classLayout (c : ClassFile) : depthAll c.classLayout ≤ 4 := by
  have hf := depthAll_map_line (fun f => "private " ++ f.1 ++ " " ++ f.2 ++ " = null!;") c.fields
  have hi := depth_initializer c
  have hw : depthAll ((c.wiring.map wiringMethods).getD []) ≤ 3 := by
    cases c.wiring with
    | none => exact Nat.zero_le 3
    | some w => exact depth_wiringMethods w
  rw [classLayout, depthAll_braced]
  simp only [depthAll_append, depthAll, depth, hf, hi]
  omega

theorem depth_layout (c : ClassFile) : depthAll c.layout ≤ 5 := by
  have hc := depth_classLayout c
  have hu := depthAll_map_line (fun name => "using " ++ name ++ ";") usings
  rw [layout]
  cases c.space <;>
    simp only [depthAll_append, depthAll, depth, hu, depthAll_braced] <;> omega

/-! ### Lines -/

variable {p : Page}

lemma lines_page (finished : List Line) (indent : UInt64) :
    (page finished indent).lines = finished.reverse ++ [⟨"", indent⟩] := by
  rw [page, Page.lines, List.reverse_cons]

lemma lines_printAll {ls : List Layout} (h : Room p.indent (depthAll ls)) :
    ∃ q, Layout.printAll p.blank ls = .ok q ∧
      q.lines = p.lines ++ linesAll p.indent ls ++ [⟨"", p.indent⟩] := by
  rw [blank_eq_page, printAll_page _ _ _ h]
  refine ⟨_, rfl, ?_⟩
  rw [lines_page, List.reverse_append, List.reverse_reverse]
  rfl

/-- The calls that print a class take back every indent that they make. -/
theorem print_balanced (c : ClassFile) (h : Room p.indent 5) :
    ∃ q, c.print p = .ok q ∧ q.indent = p.indent := by
  rw [print_eq]
  exact printAll_ok p c.layout (h.mono (depth_layout c))

/-! ### Texts -/

/-- The text of the code, with `width` blanks to a step. -/
def textOf (width : ℕ) (ls : List Layout) : String :=
  "\n".intercalate ((linesAll 0 ls ++ [(⟨"", 0⟩ : Line)]).map (Line.render (.ofNat width)))

lemma room_start : Room 0 5 := by
  rw [Room]
  decide

theorem render_eq (c : ClassFile) (width : ℕ) : c.render width = .ok (textOf width c.layout) := by
  have hn : Page.new 0 = page [] 0 := rfl
  have hp := printAll_page [] 0 c.layout (room_start.mono (depth_layout c))
  have hr : (page (linesAll 0 c.layout).reverse 0).render width = .ok (textOf width c.layout) := by
    have hi : (page (linesAll 0 c.layout).reverse 0).indent = 0 := rfl
    rw [Page.render, if_pos hi, lines_page, List.reverse_reverse]
    rfl
  rw [render, print_eq, hn, hp, List.append_nil, Layout.ok_bind, hr]

theorem generate_eq (catalog : Catalog) (d : Document) (context : Option String) (width : ℕ) :
    d.generate catalog context width = .ok (textOf width (classOf catalog d context).layout) := by
  rw [Document.generate, ofDocument_eq]
  exact render_eq _ width

lemma generate_ok (catalog : Catalog) (d : Document) (context : Option String) (width : ℕ) :
    ∃ text, d.generate catalog context width = .ok text :=
  ⟨_, generate_eq catalog d context width⟩

mutual

lemma indent_lines {indent : UInt64} : ∀ {l : Layout}, Room indent (depth l) →
    ∀ x ∈ lines indent l, x.indent.toNat ≤ indent.toNat + depth l
  | .line text, _, x, hx => by
    cases List.mem_singleton.mp hx
    exact Nat.le_refl _
  | .blank, _, x, hx => by
    cases List.mem_singleton.mp hx
    exact Nat.le_refl _
  | .block opening body closing, h, x, hx => by
    rw [depth] at h ⊢
    rw [lines, List.mem_append, List.mem_cons, List.mem_singleton] at hx
    rcases hx with (rfl | hx) | rfl
    · exact Nat.le_add_right ..
    · have hb := indent_linesAll h.succ x hx
      rw [h.toNat_succ] at hb
      omega
    · exact Nat.le_add_right ..
  | .inset body, h, x, hx => by
    rw [depth] at h ⊢
    have hb := indent_linesAll h.succ x hx
    rw [h.toNat_succ] at hb
    omega

lemma indent_linesAll {indent : UInt64} : ∀ {ls : List Layout}, Room indent (depthAll ls) →
    ∀ x ∈ linesAll indent ls, x.indent.toNat ≤ indent.toNat + depthAll ls
  | [], _, x, hx => by cases hx
  | l :: ls, h, x, hx => by
    rw [depthAll] at h ⊢
    rw [linesAll, List.mem_append] at hx
    rcases hx with hx | hx
    · have hl := indent_lines (h.mono (Nat.le_max_left ..)) x hx
      omega
    · have hl := indent_linesAll (h.mono (Nat.le_max_right ..)) x hx
      omega

end

lemma render_of_fits {x : Line} {width : ℕ} (h : x.indent.toNat ≤ 5) (hw : 5 * width < 2 ^ 63) :
    x.render (.ofNat width) =
      if x.text = "" then "" else Text.blanks (x.indent.toNat * width) ++ x.text := by
  have hm : width * x.indent.toNat < 2 ^ 63 := by
    rw [Nat.mul_comm]
    exact Nat.lt_of_le_of_lt (Nat.mul_le_mul_right width h) hw
  rw [Line.render, IndentedText.toNat_mul_ofNat hm, Nat.mul_comm]

theorem textOf_of_fits (c : ClassFile) :
    ∃ lines : List (ℕ × String), (∀ l ∈ lines, l.1 ≤ 5) ∧ ∀ width, 5 * width < 2 ^ 63 →
      textOf width c.layout = "\n".intercalate (lines.map fun l =>
        if l.2 = "" then "" else Text.blanks (l.1 * width) ++ l.2) := by
  have hi : ∀ x ∈ linesAll 0 c.layout ++ [(⟨"", 0⟩ : Line)], x.indent.toNat ≤ 5 := by
    intro x hx
    rcases List.mem_append.mp hx with hx | hx
    · have hd := depth_layout c
      have hl := indent_linesAll (room_start.mono hd) x hx
      rw [UInt64.toNat_zero] at hl
      omega
    · cases List.mem_singleton.mp hx
      exact Nat.zero_le 5
  -- the width is in the blanks before the lines and nowhere else
  refine ⟨(linesAll 0 c.layout ++ [(⟨"", 0⟩ : Line)]).map fun x => (x.indent.toNat, x.text), ?_, ?_⟩
  · rw [List.forall_mem_map]
    exact hi
  · intro width hw
    rw [textOf, List.map_map]
    congr 1
    exact List.map_congr_left fun x hx => render_of_fits (hi x hx) hw

/-! ### The file -/

def file (space : Option String) (code : List Layout) : List Layout :=
  [.line "// <auto-generated />", .line "#nullable enable", .blank, .line "using System;",
    .line "using System.ComponentModel;", .line "using Terminal.Gui;",
    .line "using Terminal.Gui.Views;", .line "using Terminal.Gui.ViewBase;", .blank] ++
  match space with
  | some space => Layout.braced ("namespace " ++ space) code
  | none => code

lemma layout_eq (c : ClassFile) : c.layout = file c.space c.classLayout := by
  obtain ⟨space, name, base, fields, statements, wiring⟩ := c
  cases space <;> rfl

inductive Reads : Statement → String → Prop
  | nameRoot (name : String) : Reads (.nameRoot name) (name ++ " = this;")
  | construct (reference type : String) :
      Reads (.construct reference type) (reference ++ " = new " ++ type ++ "();")
  | assign (reference property code : String) :
      Reads (.assign reference property code) (reference ++ "." ++ property ++ " = " ++ code ++ ";")
  | subscribe (reference event handler : String) :
      Reads (.subscribe reference event handler)
        (reference ++ "." ++ event ++ " += " ++ handler ++ ";")
  | add (parent child : String) :
      Reads (.attach parent child false) (parent ++ ".Add(" ++ child ++ ");")
  | addButton (parent child : String) :
      Reads (.attach parent child true) (parent ++ ".AddButton(" ++ child ++ ");")

lemma Reads.text_eq {s : Statement} {text : String} (h : Reads s text) : text = s.text := by
  cases h with
  | nameRoot name =>
    rw [Statement.text, String.append_assoc, String.append_assoc]
    rfl
  | _ => rfl

lemma reads_text (s : Statement) : Reads s s.text := by
  cases s with
  | nameRoot name =>
    rw [← (Reads.nameRoot name).text_eq]
    exact .nameRoot name
  | construct reference type => exact .construct reference type
  | assign reference property code => exact .assign reference property code
  | subscribe reference event handler => exact .subscribe reference event handler
  | attach parent child toButtonSlot =>
    cases toButtonSlot with
    | false => exact .add parent child
    | true => exact .addButton parent child

lemma reads_texts (ss : List Statement) : List.Forall₂ Reads ss (ss.map (·.text)) := by
  rw [List.forall₂_map_right_iff, List.forall₂_same]
  exact fun s _ => reads_text s

lemma texts_eq {ss : List Statement} {texts : List String} (h : List.Forall₂ Reads ss texts) :
    texts = ss.map (·.text) := by
  induction h with
  | nil => rfl
  | cons hs _ ih => rw [List.map_cons, hs.text_eq, ih]

end TuiMarkup.Proofs.ClassText
