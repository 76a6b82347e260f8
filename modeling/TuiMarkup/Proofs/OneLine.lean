import Mathlib.Tactic.Lemma
import TuiMarkup.Compilation
import TuiMarkup.Proofs.Accounting
import TuiMarkup.Proofs.QuotedText

/-! Which line breaks of a value end up in the code of its string constants. -/

namespace TuiMarkup.Proofs.OneLine

open Splitting Slots Plan Generation Accounting QuotedText

def lineBreaks : List Char :=
  ['\n', '\r', '\x85', '\u2028', '\u2029']

def separators : List Char :=
  ['\x85', '\u2028', '\u2029']

def escaped : List Char :=
  ['\\', '"', '\n', '\r', '\t', '\x00']

def OnOneLine (code : String) : Prop :=
  ∀ b ∈ lineBreaks, b ∉ code.toList

def LacksSeparators (text : String) : Prop :=
  ∀ b ∈ separators, b ∉ text.toList

def constants? (value : String) : Option PropertyType → Option (List String)
  | some .string | some .command | none => some [value]
  | some .array => some (((Text.pieces ',' value).map Text.trim).filter (· ≠ ""))
  | _ => none

variable {catalog : Catalog} {d : Document} {e : Element} {a : Attribute} {b : Char}
  {value text mark : String} {texts : List String} {type : Option PropertyType}

/-! ### Characters -/

lemma mem_escape (hb : b ∈ lineBreaks) (c : Char) :
    b ∈ Literal.escape c ↔ b ∈ separators ∧ b = c := by
  have hm : ∀ b ∈ lineBreaks, ∀ c ∈ escaped,
      (b ∈ Literal.escape c ↔ b ∈ separators ∧ b = c) := by
    simp [lineBreaks, separators, escaped, Literal.escape]
  have hs : ∀ b ∈ lineBreaks, b ∉ escaped → b ∈ separators := by
    simp [lineBreaks, separators, escaped]
  -- what is escaped is a finite table, and all else stands for itself
  by_cases hc : c ∈ escaped
  · exact hm b hb c hc
  · have he : Literal.escape c = [c] := by
      simp only [escaped, List.mem_cons, List.not_mem_nil, or_false, not_or] at hc
      simp [Literal.escape, hc]
    rw [he, List.mem_singleton]
    constructor
    · rintro rfl
      exact ⟨hs b hb hc, rfl⟩
    · exact And.right

lemma mem_quote (hb : b ∈ lineBreaks) (text : String) :
    b ∈ (Literal.quote text).toList ↔ b ∈ separators ∧ b ∈ text.toList := by
  have hq : b ≠ '"' := by
    rintro rfl
    exact absurd hb (by decide)
  simp [Literal.quote, hq, mem_escape hb, and_comm]

lemma onOneLine_iff {code : String}
    (h : ∀ b ∈ lineBreaks, b ∈ code.toList ↔ b ∈ separators ∧ ∃ text ∈ texts, b ∈ text.toList) :
    OnOneLine code ↔ ∀ text ∈ texts, LacksSeparators text := by
  have hs : ∀ b ∈ separators, b ∈ lineBreaks := by simp [lineBreaks, separators]
  constructor
  · intro ho text ht b hb hm
    exact ho b (hs b hb) ((h b (hs b hb)).mpr ⟨hb, text, ht, hm⟩)
  · intro ht b hb hm
    obtain ⟨hsep, text, hmem, hm⟩ := (h b hb).mp hm
    exact ht text hmem b hsep hm

/-! ### Literals -/

lemma infix_intercalate (h : text ∈ texts) : text.toList <:+: (mark.intercalate texts).toList := by
  induction texts with
  | nil => cases h
  | cons s ss ih =>
    by_cases hn : ss = []
    · subst hn
      cases List.mem_singleton.mp h
      simp
    · rw [String.intercalate_cons_of_ne_nil hn, String.toList_append, String.toList_append,
        List.append_assoc]
      rcases List.mem_cons.mp h with rfl | h
      · exact (List.prefix_append ..).isInfix
      · rw [← List.append_assoc]
        exact (ih h).trans (List.suffix_append ..).isInfix

lemma infix_arrayCode (h : text ∈ Literal.arrayEntries value) :
    (Literal.quote text).toList <:+: (Literal.arrayCode value).toList := by
  rw [Literal.arrayCode]
  split
  next he =>
    rw [he] at h
    cases h
  next =>
    rw [String.toList_append, String.toList_append]
    have hm : Literal.quote text ∈ (Literal.arrayEntries value).map Literal.quote :=
      List.mem_map_of_mem h
    have hi : (Literal.quote text).toList <:+:
        (", ".intercalate ((Literal.arrayEntries value).map Literal.quote)).toList :=
      infix_intercalate hm
    exact (hi.trans (List.suffix_append ..).isInfix).trans (List.prefix_append ..).isInfix

lemma mem_arrayCode (hb : b ∈ lineBreaks) :
    b ∈ (Literal.arrayCode value).toList ↔
      ∃ text ∈ Literal.arrayEntries value, b ∈ (Literal.quote text).toList := by
  have hw : ∀ b ∈ lineBreaks, b ∉ "System.Array.Empty<string>()".toList ∧
      b ∉ "new[] \x7b ".toList ∧ b ∉ ", ".toList ∧ b ∉ " \x7d".toList := by simp [lineBreaks]
  obtain ⟨he, hn, hc, hx⟩ := hw b hb
  rw [Literal.arrayCode]
  split
  next h =>
    rw [h]
    exact iff_of_false he (by simp)
  next h =>
    rw [String.toList_append, String.toList_append, List.mem_append, List.mem_append,
      or_iff_left hx, or_iff_right hn, mem_intercalate hc]
    simp

lemma ofValue_constants (hc : looksLikeCode value = false) (h : constants? value type = some texts) :
    (∀ text ∈ texts,
      (Literal.quote text).toList <:+: (Literal.ofValue value type).code.toList) ∧
    ∀ b ∈ lineBreaks, b ∈ (Literal.ofValue value type).code.toList ↔
      ∃ text ∈ texts, b ∈ (Literal.quote text).toList := by
  rw [Literal.ofValue.eq_def, hc, if_neg Bool.false_ne_true]
  rw [constants?.eq_def] at h
  split at h
  · cases h
    simp [Literal.code]
  · cases h
    simp [Literal.code]
  · cases h
    simp [Literal.code]
  · cases h
    rw [← arrayEntries_eq]
    exact ⟨fun text ht => infix_arrayCode ht, fun b hb => mem_arrayCode hb⟩
  · cases h

/-! ### Assignments -/

lemma assign_mem (he : e ∈ d.elements) (ha : a ∈ e.tag.attributes) (hk : a.kind = .property)
    (hv : isBindingValue a.value = false) :
    .assign (called (Fields.build catalog d) e.tag.index) a.key
      (Literal.ofValue a.value (catalog.property? a.key)).code ∈ documentPlan catalog d := by
  have hs : said catalog (Fields.build catalog d) e.tag a =
      some (.assign (called (Fields.build catalog d) e.tag.index) a.key
        (Literal.ofValue a.value (catalog.property? a.key)).code) := by
    simp [said, hk, hv]
  apply List.mem_of_mem_filter (p := isAssignment)
  rw [document_assignments]
  apply List.mem_flatMap.mpr
  refine ⟨e.tag, List.mem_map.mpr ⟨e, he, rfl⟩, List.mem_filter.mpr ⟨?_, rfl⟩⟩
  exact List.mem_filterMap.mpr ⟨a, ha, hs⟩

/-- The code for a value that becomes string constants stays on one line, as do the constants, unless
one of the texts has a line break for which there is no escape. -/
theorem constants_on_one_line (catalog : Catalog) (d : Document) (context : Option String) :
    ∃ c, ClassFile.ofDocument catalog d context = .ok c ∧
      ∀ e ∈ d.elements, ∀ a ∈ e.tag.attributes, a.kind = .property →
        isBindingValue a.value = false → ¬ ('(' ∈ a.value.toList ∧ ')' ∈ a.value.toList) →
        ∀ texts, constants? a.value (catalog.property? a.key) = some texts →
          ∃ reference code, (Fields.build catalog d).reference e.tag.index = .ok reference ∧
            .assign reference a.key code ∈ c.statements ∧
            (∀ text ∈ texts, (Literal.quote text).toList <:+: code.toList ∧
              (OnOneLine (Literal.quote text) ↔ LacksSeparators text)) ∧
            '\n' ∉ code.toList ∧ '\r' ∉ code.toList ∧
            (OnOneLine code ↔ ∀ text ∈ texts, LacksSeparators text) := by
  refine ⟨classOf catalog d context, ofDocument_eq catalog d context, ?_⟩
  intro e he a ha hk hv hp texts ht
  have hc : looksLikeCode a.value = false := by simpa [looksLikeCode, Text.hasChar] using hp
  obtain ⟨hi, hm⟩ := ofValue_constants hc ht
  have hsep : ∀ b ∈ lineBreaks,
      b ∈ (Literal.ofValue a.value (catalog.property? a.key)).code.toList ↔
        b ∈ separators ∧ ∃ text ∈ texts, b ∈ text.toList := by
    intro b hb
    rw [hm b hb]
    simp [mem_quote hb, and_left_comm]
  refine ⟨_, _, (covers_of_mem catalog (List.mem_map.mpr ⟨e, he, rfl⟩)).reference,
    assign_mem he ha hk hv, ?_, ?_, ?_, onOneLine_iff hsep⟩
  · intro text htext
    refine ⟨hi text htext, ?_⟩
    have ho : OnOneLine (Literal.quote text) ↔ ∀ t ∈ [text], LacksSeparators t :=
      onOneLine_iff fun b hb => by simpa using mem_quote hb text
    simpa using ho
  · rw [hsep '\n' (by decide)]
    exact fun h => absurd h.1 (by decide)
  · rw [hsep '\r' (by decide)]
    exact fun h => absurd h.1 (by decide)

def plain : Catalog where
  controls := ⟨[("Window", { outputType := "W", isContainer := true }),
    ("Label", { outputType := "L" })]⟩

def parted : String :=
  "<Window x:Class='A'><Label Text='a&#x2028;b'/></Window>"

/-- A line separator comes through where a line feed would not. -/
theorem separator_let_through :
    ∃ d c, Document.read plain parted "m" = .ok d ∧
      (compile plain (fun _ _ => none) {} parted "m").diagnostics = [] ∧
      ClassFile.ofDocument plain d none = .ok c ∧
      .assign "__Label_1" "Text" "\"a\u2028b\"" ∈ c.statements ∧
      ¬ OnOneLine "\"a\u2028b\"" := by
  have hr : (Document.read plain parted "m").toOption.bind (fun d =>
      (ClassFile.ofDocument plain d none).toOption.map (·.statements)) =
      some [.construct "__Label_1" "L", .assign "__Label_1" "Text" "\"a\u2028b\"",
        .attach "this" "__Label_1" false] := by
    decide +kernel
  have hc : (compile plain (fun _ _ => none) {} parted "m").diagnostics = [] := by decide +kernel
  have hb : ¬ OnOneLine "\"a\u2028b\"" := fun h => h '\u2028' (by decide) (by decide)
  cases hd : Document.read plain parted "m" with
  | error _ =>
    rw [hd] at hr
    cases hr
  | ok d =>
    rw [hd, Except.toOption, Option.bind_some, ofDocument_eq] at hr
    have hs := Option.some.inj hr
    exact ⟨d, _, rfl, hc, ofDocument_eq plain d none, by simp [hs], hb⟩

end TuiMarkup.Proofs.OneLine
