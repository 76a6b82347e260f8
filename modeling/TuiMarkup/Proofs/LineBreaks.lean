import Mathlib.Tactic.Lemma
import TuiMarkup.Catalog.TerminalGui
import TuiMarkup.Compilation
import TuiMarkup.Proofs.Rendering
import TuiMarkup.Proofs.Trimming

/-! How the lines of a document are ended makes no difference to what it is compiled to. -/

namespace TuiMarkup.Proofs.LineBreaks

open Text (unifyBreakChars unifyBreaks)
open Rendering (unify_append mem_unify)
open Trimming

variable {cs : List Char} {s : String}

/-! ### One spelling -/

lemma return_not_mem_unify (cs : List Char) : '\r' ∉ unifyBreakChars cs := by
  fun_induction unifyBreakChars cs with
  | case1 => exact List.not_mem_nil
  | case2 cs ih => simpa using ih
  | case3 c cs _ ih =>
    rw [List.mem_cons, not_or]
    refine ⟨?_, ih⟩
    split
    · decide
    next hc => exact Ne.symm hc

lemma unify_of_not_mem (h : '\r' ∉ cs) : unifyBreakChars cs = cs := by
  have hc : ∀ c ∈ cs, c ≠ '\r' := fun c hc hr => h (hr ▸ hc)
  have hu := unify_append hc []
  rwa [List.append_nil, unifyBreakChars, List.append_nil] at hu

lemma unify_unify (cs : List Char) :
    unifyBreakChars (unifyBreakChars cs) = unifyBreakChars cs :=
  unify_of_not_mem (return_not_mem_unify cs)

lemma toList_unifyBreaks (s : String) : (unifyBreaks s).toList = unifyBreakChars s.toList := by
  rw [unifyBreaks, String.toList_ofList]

lemma unifyBreaks_unifyBreaks (s : String) : unifyBreaks (unifyBreaks s) = unifyBreaks s := by
  rw [unifyBreaks, toList_unifyBreaks, unify_unify, unifyBreaks]

/-! ### Documents -/

lemma mem_of_mem_unify {c : Char} (hc : c ∈ cs) (hr : c ≠ '\r') : c ∈ unifyBreakChars cs := by
  fun_induction unifyBreakChars cs with
  | case1 => cases hc
  | case2 cs ih =>
    rcases List.mem_cons.mp hc with rfl | hc
    · exact absurd rfl hr
    · exact (List.mem_cons.mp hc).elim (fun h => h ▸ .head _) fun h => .tail _ (ih h)
  | case3 d cs _ ih =>
    rcases List.mem_cons.mp hc with rfl | hc
    · rw [if_neg hr]
      exact .head _
    · exact .tail _ (ih hc)

lemma isBlank_unifyBreaks : IsBlank (unifyBreaks s) ↔ IsBlank s := by
  rw [IsBlank, toList_unifyBreaks]
  constructor
  · intro h c hc
    by_cases hr : c = '\r'
    · subst hr
      rfl
    · exact h c (mem_of_mem_unify hc hr)
  · intro h c hc
    rcases mem_unify hc with hc | rfl
    · exact h c hc
    · rfl

lemma tokenize_unifyBreaks (s : String) : Markup.tokenize (unifyBreaks s) = Markup.tokenize s := by
  rw [Markup.tokenize, toList_unifyBreaks, unify_unify, Markup.tokenize]

lemma read_unifyBreaks (catalog : Catalog) (s path : String) :
    Document.read catalog (unifyBreaks s) path = Document.read catalog s path := by
  have ht : Markup.Tree.read catalog (unifyBreaks s) = Markup.Tree.read catalog s := by
    rw [Markup.Tree.read, tokenize_unifyBreaks, Markup.Tree.read]
  have hb : Text.trim (unifyBreaks s) = "" ↔ Text.trim s = "" := by
    rw [trim_eq_empty, trim_eq_empty, isBlank_unifyBreaks]
  simp only [Document.read, ht, hb]

lemma compile_unifyBreaks (catalog : Catalog) (resolver : TypeResolver) (options : Options)
    (s path : String) :
    compile catalog resolver options (unifyBreaks s) path =
      compile catalog resolver options s path := by
  rw [compile, read_unifyBreaks, compile]

/-! ### Lines -/

inductive Break where
  | lf
  | cr
  | crlf
deriving DecidableEq

def Break.chars : Break → List Char
  | lf => ['\n']
  | cr => ['\r']
  | crlf => ['\r', '\n']

def joinedChars (first : String) : List (Break × String) → List Char
  | [] => first.toList
  | (b, line) :: rest => first.toList ++ (b.chars ++ joinedChars line rest)

def joined (first : String) (rest : List (Break × String)) : String :=
  String.ofList (joinedChars first rest)

def IsLine (s : String) : Prop :=
  '\r' ∉ s.toList ∧ '\n' ∉ s.toList

/-- No return that stands alone comes to stand right before a feed. -/
def Apart (rest : List (Break × String)) : Prop :=
  rest.IsChain fun x y => x.1 = .cr → x.2 = "" → y.1 ≠ .lf

variable {b : Break} {first line : String} {rest : List (Break × String)}

lemma unify_break (h : b = .cr → cs.head? ≠ some '\n') :
    unifyBreakChars (b.chars ++ cs) = '\n' :: unifyBreakChars cs := by
  cases b with
  | lf => rfl
  | crlf => rfl
  | cr =>
    cases cs with
    | nil => rfl
    | cons c cs =>
      have hc : c ≠ '\n' := fun hc => h rfl (by rw [hc]; rfl)
      change unifyBreakChars ('\r' :: c :: cs) = _
      rw [unifyBreakChars, if_pos rfl]
      simp [hc]

lemma head?_joinedChars (hl : IsLine line) (ha : Apart ((.cr, line) :: rest)) :
    (joinedChars line rest).head? ≠ some '\n' := by
  by_cases hn : line = ""
  · -- An empty line lets the next break show.
    subst hn
    cases rest with
    | nil => simp [joinedChars]
    | cons x rest =>
      have hx := (List.isChain_cons_cons.mp ha).1 rfl rfl
      obtain ⟨b, next⟩ := x
      cases b with
      | lf => exact absurd rfl hx
      | cr | crlf => simp [joinedChars, Break.chars]
  · have hc := mt String.toList_eq_nil_iff.mp hn
    have hh : (joinedChars line rest).head? = line.toList.head? := by
      cases rest with
      | nil => rfl
      | cons x rest => exact List.head?_append_of_ne_nil _ hc
    rw [hh]
    exact fun hm => hl.2 (List.mem_of_mem_head? hm)

theorem unify_joinedChars (hf : IsLine first) (hl : ∀ x ∈ rest, IsLine x.2) (ha : Apart rest) :
    unifyBreakChars (joinedChars first rest) =
      joinedChars first (rest.map fun x => (.lf, x.2)) := by
  have hr : ∀ {line : String}, IsLine line → ∀ c ∈ line.toList, c ≠ '\r' :=
    fun hl c hc hr => hl.1 (hr ▸ hc)
  induction rest generalizing first with
  | nil => exact unify_of_not_mem hf.1
  | cons x rest ih =>
    obtain ⟨b, line⟩ := x
    obtain ⟨hx, hrest⟩ := List.forall_mem_cons.mp hl
    have hb : b = .cr → (joinedChars line rest).head? ≠ some '\n' := by
      rintro rfl
      exact head?_joinedChars hx ha
    rw [joinedChars, unify_append (hr hf), unify_break hb, ih hx hrest (List.IsChain.of_cons ha)]
    rfl

lemma joined_feeds (first : String) (rest : List (Break × String)) :
    joined first (rest.map fun x => (.lf, x.2)) = "\n".intercalate (first :: rest.map (·.2)) := by
  rw [joined, ← String.toList_inj, String.toList_ofList]
  induction rest generalizing first with
  | nil => simp [joinedChars]
  | cons x rest ih =>
    have hn : List.map (·.2) (x :: rest) ≠ [] := List.cons_ne_nil _ _
    rw [String.intercalate_cons_of_ne_nil hn, String.toList_append, String.toList_append,
      List.map_cons, List.map_cons, ← ih, List.append_assoc]
    rfl

lemma unifyBreaks_joined (hf : IsLine first) (hl : ∀ x ∈ rest, IsLine x.2) (ha : Apart rest) :
    unifyBreaks (joined first rest) = "\n".intercalate (first :: rest.map (·.2)) := by
  rw [← joined_feeds, unifyBreaks, joined, String.toList_ofList, unify_joinedChars hf hl ha, joined]

/-- A document and the one with all its line breaks spelled as feeds are compiled to the same code
with the same diagnostics, at the same places. So lines may be ended in any mixture of ways in which
each end can be told. -/
theorem breaks_immaterial (catalog : Catalog) (resolver : TypeResolver) (options : Options)
    (path : String) :
    (∀ s, compile catalog resolver options s path =
        compile catalog resolver options (unifyBreaks s) path) ∧
      (∀ s, unifyBreaks (unifyBreaks s) = unifyBreaks s) ∧
      ∀ first rest, IsLine first → (∀ x ∈ rest, IsLine x.2) → Apart rest →
        unifyBreaks (joined first rest) = "\n".intercalate (first :: rest.map (·.2)) ∧
          compile catalog resolver options (joined first rest) path =
            compile catalog resolver options ("\n".intercalate (first :: rest.map (·.2))) path := by
  refine ⟨fun s => (compile_unifyBreaks ..).symm, unifyBreaks_unifyBreaks, ?_⟩
  intro first rest hf hl ha
  have hu := unifyBreaks_joined hf hl ha
  refine ⟨hu, ?_⟩
  rw [← hu, compile_unifyBreaks]

/-- A return before a return with a feed ends two lines, and one before a feed would end only one. -/
theorem breaks_immaterial_mixed :
    compile .terminalGui (fun _ _ => none) {} "<Window\r\r\n x:Class='A'\n/>\r" "m" =
      compile .terminalGui (fun _ _ => none) {} "<Window\n\n x:Class='A'\n/>\n" "m" := by
  have h := (breaks_immaterial .terminalGui (fun _ _ => none) {} "m").2.2 "<Window"
    [(.cr, ""), (.crlf, " x:Class='A'"), (.lf, "/>"), (.cr, "")] (by simp [IsLine])
    (by simp [IsLine]) (by simp [Apart])
  have hm : joined "<Window" [(.cr, ""), (.crlf, " x:Class='A'"), (.lf, "/>"), (.cr, "")] =
      "<Window\r\r\n x:Class='A'\n/>\r" := by
    decide +kernel
  rw [hm] at h
  exact h.2

end TuiMarkup.Proofs.LineBreaks
