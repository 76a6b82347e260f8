import Mathlib.Algebra.Order.BigOperators.Group.List
import Mathlib.Algebra.Order.Ring.Nat
import Mathlib.Tactic.Lemma
import TuiMarkup.Catalog.TerminalGui
import TuiMarkup.Diagnostic.Report
import TuiMarkup.Proofs.Emission
import TuiMarkup.Proofs.LineFeeds
import TuiMarkup.Proofs.Precedence
import TuiMarkup.Proofs.Relocation
import TuiMarkup.Proofs.Spelling
import TuiMarkup.Proofs.Trimming

/-! The lines that a report takes as text. A diagnostic starts a line of its own, and takes as many
more as its message has line feeds. -/

namespace TuiMarkup.Proofs.ReportLines

open Markup Splitting LineFeeds Policy Emission Validity

/-! ### Pieces -/

section Pieces

variable {sep : Char} {mark a : String} {cs : List Char} {ss : List String}

lemma piecesChars_prepend (h : sep ∉ cs) (ds : List Char) :
    Text.piecesChars sep (cs ++ ds) =
      (cs ++ (Text.piecesChars sep ds).headD []) :: (Text.piecesChars sep ds).tail := by
  induction cs with
  | nil =>
    cases hd : Text.piecesChars sep ds with
    | nil => exact absurd hd (piecesChars_ne_nil sep ds)
    | cons x xs => simp [hd]
  | cons c cs ih =>
    have hc : c ≠ sep := by
      rintro rfl
      exact h (.head _)
    rw [List.cons_append, Text.piecesChars, if_neg hc, ih fun hm => h (.tail c hm)]
    rfl

lemma pieces_prepend (h : sep ∉ a.toList) (b : String) :
    Text.pieces sep (a ++ b) =
      (a ++ (Text.pieces sep b).headD "") :: (Text.pieces sep b).tail := by
  rw [Text.pieces, String.toList_append, piecesChars_prepend h, Text.pieces]
  obtain ⟨x, xs, hx⟩ := List.exists_cons_of_ne_nil (piecesChars_ne_nil sep b.toList)
  simp [hx, String.ofList_append]

lemma pieces_intercalate_flatMap (hm : mark.toList = [sep]) (h : ss ≠ []) :
    Text.pieces sep (mark.intercalate ss) = ss.flatMap (Text.pieces sep) := by
  induction ss with
  | nil => exact absurd rfl h
  | cons s ss ih =>
    rw [List.flatMap_cons]
    by_cases hs : ss = []
    · simp [hs]
    · rw [String.intercalate_cons_of_ne_nil hs, pieces_append hm, ih hs]

lemma length_piecesChars (sep : Char) (cs : List Char) :
    (Text.piecesChars sep cs).length = cs.count sep + 1 := by
  induction cs with
  | nil => rfl
  | cons c cs ih =>
    rw [Text.piecesChars, List.count_cons]
    by_cases hc : c = sep
    · simp [hc, ih]
    · obtain ⟨x, xs, hx⟩ := List.exists_cons_of_ne_nil (piecesChars_ne_nil sep cs)
      rw [if_neg hc, hx]
      rw [hx] at ih
      simpa [hc] using ih

end Pieces

/-! ### Diagnostics -/

variable {d d' : Diagnostic} {ds : List Diagnostic}

def linesOf (s : String) : List String :=
  if s = "" then [] else Text.pieces '\n' s

def heading (d : Diagnostic) : String :=
  d.path ++ ":" ++ toString d.line ++ ":" ++ toString d.column ++ ": " ++ d.severity.name ++ " " ++
    d.code.id ++ ": "

def displayLines (d : Diagnostic) : List String :=
  (heading d ++ (Text.pieces '\n' d.message).headD "") :: (Text.pieces '\n' d.message).tail

lemma not_mem_toString {c : Char} (hc : c.isDigit = false) (n : ℕ) : c ∉ (toString n).toList := by
  rw [Nat.toString_eq_repr, Nat.toList_repr]
  intro hm
  rw [Nat.isDigit_of_mem_toDigits (by decide) (by decide) hm] at hc
  cases hc

lemma unbroken_toString (n : ℕ) : Unbroken (toString n) :=
  not_mem_toString (by decide) n

lemma unbroken_severity (s : Severity) : Unbroken s.name := by
  cases s <;> exact unbroken_given rfl

lemma unbroken_id (c : Code) : Unbroken c.id := by
  cases c <;> exact unbroken_given rfl

lemma unbroken_heading (h : Unbroken d.path) : Unbroken (heading d) := by
  have hc : Unbroken ":" := unbroken_given rfl
  have hs : Unbroken ": " := unbroken_given rfl
  have hb : Unbroken " " := unbroken_given rfl
  simp only [heading, unbroken_append]
  exact ⟨⟨⟨⟨⟨⟨⟨⟨⟨h, hc⟩, unbroken_toString _⟩, hc⟩, unbroken_toString _⟩, hs⟩, unbroken_severity _⟩,
    hb⟩, unbroken_id _⟩, hs⟩

lemma pieces_display (h : Unbroken d.path) : Text.pieces '\n' d.display = displayLines d :=
  pieces_prepend (unbroken_heading h) d.message

lemma report_ne_empty (h : ds ≠ []) : Diagnostic.report ds .text ≠ "" := by
  intro he
  obtain ⟨d, hd⟩ := List.exists_mem_of_ne_nil ds h
  have hm : ':' ∈ (Diagnostic.report ds .text).toList := by
    apply (mem_intercalate (by decide)).mpr
    exact ⟨d.display, List.mem_map.mpr ⟨d, hd, rfl⟩, by simp [Diagnostic.display]⟩
  rw [he] at hm
  cases hm

theorem linesOf_report (h : ∀ d ∈ ds, Unbroken d.path) :
    linesOf (Diagnostic.report ds .text) = ds.flatMap displayLines := by
  by_cases hd : ds = []
  · rw [hd]
    rfl
  · have hne : ds.map Diagnostic.display ≠ [] := fun hm => hd (List.map_eq_nil_iff.mp hm)
    have hp : (ds.map Diagnostic.display).flatMap (Text.pieces '\n') = ds.flatMap displayLines := by
      rw [List.flatMap_map]
      exact List.flatMap_congr fun d hd => pieces_display (h d hd)
    rw [linesOf, if_neg (report_ne_empty hd), Diagnostic.report,
      pieces_intercalate_flatMap (by decide) hne, hp]

lemma length_displayLines (d : Diagnostic) :
    (displayLines d).length = d.message.toList.count '\n' + 1 := by
  have hl : (Text.pieces '\n' d.message).length = d.message.toList.count '\n' + 1 := by
    rw [Text.pieces, List.length_map, length_piecesChars]
  rw [displayLines, List.length_cons, List.length_tail, hl]
  rfl

lemma displayLines_eq_singleton : displayLines d = [d.display] ↔ Unbroken d.message := by
  constructor
  · intro h
    have hl := length_displayLines d
    rw [h] at hl
    have hc : d.message.toList.count '\n' = 0 := by
      simpa using hl.symm
    exact List.count_eq_zero.mp hc
  · intro h
    rw [displayLines, pieces_of_not_mem h]
    rfl

lemma length_flatMap_displayLines (ds : List Diagnostic) :
    (ds.flatMap displayLines).length =
      ds.length + (ds.map fun d => d.message.toList.count '\n').sum := by
  induction ds with
  | nil => rfl
  | cons d ds ih =>
    rw [List.flatMap_cons, List.length_append, length_displayLines, ih, List.map_cons,
      List.sum_cons, List.length_cons]
    omega

lemma length_eq_iff :
    (ds.flatMap displayLines).length = ds.length ↔ ∀ d ∈ ds, Unbroken d.message := by
  rw [length_flatMap_displayLines, Nat.add_eq_left, List.sum_eq_zero_iff, List.forall_mem_map]
  simp only [List.count_eq_zero]
  rfl

lemma flatMap_displayLines (h : ∀ d ∈ ds, Unbroken d.message) :
    ds.flatMap displayLines = ds.map Diagnostic.display := by
  rw [List.map_eq_flatMap]
  exact List.flatMap_congr fun d hd => displayLines_eq_singleton.mpr (h d hd)

/-! ### Reading a line back -/

lemma severity_name_inj {s s' : Severity} (h : s.name = s'.name) : s = s' := by
  cases s <;> cases s' <;> first | rfl | (exact absurd h (by decide))

lemma id_inj {c c' : Code} (h : c.id = c'.id) : c = c' := by
  have hn : (Code.all.map Code.id).Nodup := by decide +kernel
  have hm : ∀ c, c ∈ Code.all := by
    intro c
    cases c <;> decide
  exact List.inj_on_of_nodup_map hn (hm c) (hm c') h

lemma toString_inj {m n : ℕ} (h : toString m = toString n) : m = n := by
  rw [← Spelling.decimalValue_toString m, h, Spelling.decimalValue_toString]

lemma cut_inj {sep : Char} {mark a b r r' : String} (hm : mark.toList = [sep]) (ha : sep ∉ a.toList)
    (hb : sep ∉ b.toList) (h : a ++ mark ++ r = b ++ mark ++ r') : a = b ∧ r = r' := by
  have hc := congrArg (Text.cutFirst sep) h
  rw [cutFirst_append hm ha, cutFirst_append hm hb] at hc
  exact Prod.mk.inj (Option.some.inj hc)

/-- Once the path is known, a line on which a diagnostic stands gives all of it. -/
theorem display_inj (hp : d.path = d'.path) (h : d.display = d'.display) : d = d' := by
  have he : ∀ x : Diagnostic, x.display = (x.path ++ ":") ++ (toString x.line ++ ":" ++
      (toString x.column ++ ":" ++ (" " ++ (x.severity.name ++ " " ++ (x.code.id ++ ":" ++
        (" " ++ x.message)))))) := by
    intro x
    have hs : ": " = ":" ++ " " := by decide
    simp only [Diagnostic.display, hs, String.append_assoc]
  have hc : ":".toList = [':'] := by decide
  have hb : " ".toList = [' '] := by decide
  have hn : ∀ n : ℕ, ':' ∉ (toString n).toList := fun n => not_mem_toString (by decide) n
  have hv : ∀ s : Severity, ' ' ∉ s.name.toList := by
    intro s
    cases s <;> decide
  have hi : ∀ c : Code, ':' ∉ c.id.toList := by
    intro c
    cases c <;> decide
  rw [he d, he d', hp, String.append_right_inj] at h
  obtain ⟨hline, h⟩ := cut_inj hc (hn _) (hn _) h
  obtain ⟨hcolumn, h⟩ := cut_inj hc (hn _) (hn _) h
  rw [String.append_right_inj] at h
  obtain ⟨hseverity, h⟩ := cut_inj hb (hv _) (hv _) h
  obtain ⟨hcode, h⟩ := cut_inj hc (hi _) (hi _) h
  rw [String.append_right_inj] at h
  obtain ⟨code, severity, path, line, column, message⟩ := d
  cases toString_inj hline
  cases toString_inj hcolumn
  cases severity_name_inj hseverity
  cases id_inj hcode
  cases hp
  cases h
  rfl

/-! ### Messages -/

section Messages

variable {x t : String} {cs : List Char} {P : Prop}

lemma unbroken_given_iff (h : cs.all (· != '\n') = true) : Unbroken (String.ofList cs) ↔ True :=
  iff_true_intro (unbroken_given h)

lemma unbroken_quote (hx : Unbroken x ↔ P) (h : cs.all (· != '\n') = true) :
    Unbroken (x ++ t ++ String.ofList cs) ↔ P ∧ Unbroken t := by
  rw [unbroken_append, unbroken_append, hx, and_iff_left (unbroken_given h)]

lemma unbroken_after (h : cs.all (· != '\n') = true) :
    Unbroken (String.ofList cs ++ t) ↔ Unbroken t := by
  rw [unbroken_append, and_iff_right (unbroken_given h)]

lemma unbroken_intercalate {mark : String} {ss : List String} (hm : Unbroken mark) :
    Unbroken (mark.intercalate ss) ↔ ∀ s ∈ ss, Unbroken s := by
  rw [Unbroken, mem_intercalate hm, not_exists]
  simp only [not_and]
  rfl

def quoted : Problem → List String
  | .emptyDocument | .missingClassName => []
  | .malformedMarkup detail | .parseError detail => [detail]
  | .unknownControlType type known => type :: known
  | .invalidBindingExpression value => [value]
  | .unsupportedTwoWayBinding type property => [type, property]
  | .unknownEvent type event => [event, type]
  | .emptyEventHandler event => [event]
  | .duplicateName name => [name]
  | .invalidPropertyValue property value expected => [value, property, expected]
  | .obsoleteEventUsed event type replacement => event :: type :: replacement.toList
  | .unknownControlTypeInGeneration type => [type]
  | .rootNotContainer type | .childOfNonContainer type => [type]

theorem unbroken_message (p : Problem) : Unbroken p.message ↔ ∀ s ∈ quoted p, Unbroken s := by
  cases p with
  | emptyDocument | missingClassName =>
    refine (unbroken_given_iff rfl).trans ?_
    simp [quoted]
  | malformedMarkup detail | parseError detail =>
    refine (unbroken_after rfl).trans ?_
    simp [quoted]
  | unknownControlType type known =>
    have hm : Unbroken ", " := unbroken_given rfl
    refine (unbroken_quote (unbroken_quote (unbroken_given_iff rfl) rfl) rfl).trans ?_
    simp [quoted, unbroken_intercalate hm]
  | invalidBindingExpression name | emptyEventHandler name | duplicateName name
  | unknownControlTypeInGeneration name | rootNotContainer name | childOfNonContainer name =>
    refine (unbroken_quote (unbroken_given_iff rfl) rfl).trans ?_
    simp [quoted]
  | unsupportedTwoWayBinding first second | unknownEvent second first =>
    refine (unbroken_quote (unbroken_quote (unbroken_given_iff rfl) rfl) rfl).trans ?_
    simp [quoted]
  | invalidPropertyValue property value expected =>
    refine (unbroken_quote (unbroken_quote (unbroken_quote (unbroken_given_iff rfl) rfl) rfl)
      rfl).trans ?_
    simp [quoted, and_assoc]
  | obsoleteEventUsed event type replacement =>
    cases replacement with
    | none =>
      refine (unbroken_quote (unbroken_quote (unbroken_given_iff rfl) rfl) rfl).trans ?_
      simp [quoted]
    | some replacement =>
      refine (unbroken_quote (unbroken_quote (unbroken_quote (unbroken_given_iff rfl) rfl) rfl)
        rfl).trans ?_
      simp [quoted, and_assoc]

end Messages

/-! ### Catalogs -/

structure OnLines (catalog : Catalog) : Prop where
  controls : ∀ name ∈ catalog.controlNames, Unbroken name
  replacements : ∀ type event entry replacement, catalog.event? type event = some entry →
    entry.replacement = some replacement → Unbroken replacement

section Catalogs

open Declarations SchemaGrammar

variable {s line name replacement : String} {obsolete : Bool} {entry : EventEntry}
  {l : Schema.ControlLine} {controls : List String}

lemma unbroken_of_eventText (h : EventText obsolete s (.event name entry)) (hs : Unbroken s)
    (hr : entry.replacement = some replacement) : Unbroken replacement := by
  cases h with
  | mk hn _ _ =>
    cases hr
    cases hn with
    | replaced _ =>
      obtain ⟨⟨⟨⟨-, -⟩, hu⟩, -⟩, -⟩ := by simpa only [unbroken_append] using hs
      exact hu

lemma unbroken_of_memberText (h : MemberText s (.event name entry)) (hs : Unbroken s)
    (hr : entry.replacement = some replacement) : Unbroken replacement := by
  cases h with
  | event h _ => exact unbroken_of_eventText h (unbroken_append.mp hs).2 hr
  | obsolete h =>
    rw [unbroken_append, unbroken_append] at hs
    exact unbroken_of_eventText h hs.2.2 hr

lemma unbroken_of_controlText (h : ControlText line l) (hl : Unbroken line) :
    Unbroken l.name ∧ ∀ name entry replacement, .event name entry ∈ l.members →
      entry.replacement = some replacement → Unbroken replacement := by
  cases h with
  | mk _ _ _ _ hm =>
    have hc : Unbroken "," := unbroken_given rfl
    simp only [unbroken_append, unbroken_intercalate hc] at hl
    refine ⟨hl.1.1.1.1, fun name entry replacement he hr => ?_⟩
    obtain ⟨part, hp, ht⟩ := hm.exists_of_mem he
    exact unbroken_of_memberText ht (hl.2 part hp) hr

theorem onLines_ofSchema (scopes : List String) (h : ∀ line ∈ controls, Unbroken line) :
    OnLines (Catalog.ofSchema controls scopes) := by
  have hu : ∀ l ∈ controls.filterMap Schema.readControlLine?, Unbroken l.name ∧
      ∀ name entry replacement, .event name entry ∈ l.members →
        entry.replacement = some replacement → Unbroken replacement := by
    intro l hl
    obtain ⟨line, hm, hr⟩ := List.mem_filterMap.mp hl
    exact unbroken_of_controlText (readControlLine?_iff.mp hr) (h line hm)
  rw [Precedence.ofSchema_eq]
  constructor
  · intro name hn
    obtain ⟨l, hl, rfl⟩ := Precedence.mem_controlNames.mp hn
    exact (hu l hl).1
  · intro type event entry replacement he hr
    rw [event?_ofLines, last?] at he
    obtain ⟨before, after, hb, -⟩ := List.lookup_eq_some_iff.mp he
    have hm : (event, entry) ∈ (membersOf type
        (controls.filterMap Schema.readControlLine?)).filterMap eventOf? := by
      rw [← List.mem_reverse, hb]
      exact List.mem_append_right before (.head after)
    obtain ⟨m, hm, hp⟩ := List.mem_filterMap.mp hm
    rw [Precedence.eventOf?_eq_some.mp hp] at hm
    obtain ⟨l, hl, hm⟩ := List.mem_flatMap.mp hm
    exact (hu l (List.mem_filter.mp hl).1).2 event entry replacement hm hr

lemma onLines_terminalGui : OnLines .terminalGui := by
  apply onLines_ofSchema
  rw [Catalog.terminalGuiControls]
  repeat rw [List.forall_mem_cons, unbroken_ofList]
  decide +kernel

end Catalogs

/-! ### Where messages break -/

section Breaks

variable {catalog : Catalog} {resolver : TypeResolver} {options : Options} {source path : String}
  {doc : Document} {t : Tag} {a : Attribute} {e : Element} {p : Problem}

/-- The problems of a source whose messages have line feeds. A name of the document has none, and a
value only if a reference stands for it. -/
inductive Breaks (catalog : Catalog) (source path : String) : Problem → Prop
  | character {f : Fault} : (tokenize source).fault = some f → f.cause = .unexpectedChar '\n' →
      Breaks catalog source path (.malformedMarkup f.message)
  | name {doc : Document} {t : Tag} {name : String} :
      Document.read catalog source path = .ok doc → t ∈ doc.tags → t.explicitName? = some name →
      ¬ Unbroken name → Breaks catalog source path (.duplicateName name)
  | binding {doc : Document} {t : Tag} {a : Attribute} :
      Document.read catalog source path = .ok doc → t ∈ doc.tags → a ∈ t.attributes →
      ¬ Unbroken (Text.trim a.value) →
      Breaks catalog source path (.invalidBindingExpression (Text.trim a.value))
  | value {doc : Document} {t : Tag} {a : Attribute} {expected : String} :
      Document.read catalog source path = .ok doc → t ∈ doc.tags → a ∈ t.attributes →
      ¬ Unbroken a.value → Breaks catalog source path (.invalidPropertyValue a.key a.value expected)
  | control {type name : String} : name ∈ catalog.controlNames → ¬ Unbroken name →
      Breaks catalog source path (.unknownControlType type catalog.controlNames)
  | replacement {type event replacement : String} {entry : EventEntry} :
      catalog.event? type event = some entry → entry.replacement = some replacement →
      ¬ Unbroken replacement →
      Breaks catalog source path (.obsoleteEventUsed event type (some replacement))

lemma Breaks.broken (h : Breaks catalog source path p) : ¬ Unbroken p.message := by
  rw [unbroken_message]
  intro hq
  cases h with
  | character hf hc =>
    have hm := hq _ (.head _)
    rw [Fault.message, hc] at hm
    exact absurd hm (by decide +kernel)
  | name _ _ _ hb => exact hb (hq _ (.head _))
  | binding _ _ _ hb => exact hb (hq _ (.head _))
  | value _ _ _ hb => exact hb (hq _ (.head _))
  | control hn hb => exact hb (hq _ (.tail _ hn))
  | replacement _ _ hb => exact hb (hq _ (.tail _ (.tail _ (.head _))))

lemma of_quoted (h : ∀ s ∈ quoted p, Unbroken s) :
    Unbroken p.message ∨ Breaks catalog source path p :=
  .inl ((unbroken_message p).mpr h)

lemma attribute_breaks (hd : Document.read catalog source path = .ok doc) (ht : t ∈ doc.tags)
    (ha : a ∈ t.attributes) (h : p ∈ Validation.attributeProblems catalog t.type a) :
    Unbroken p.message ∨ Breaks catalog source path p := by
  have hc := tag_clean hd t ht
  have hk := (hc.attributes a ha).1
  rw [Validation.attributeProblems] at h
  split at h
  · rw [Validation.propertyProblems] at h
    split at h
    · cases h
    · split at h
      · cases List.mem_singleton.mp h
        by_cases hb : Unbroken (Text.trim a.value)
        · exact of_quoted (by simpa [quoted] using hb)
        · exact .inr (.binding hd ht ha hb)
      · split at h
        · cases List.mem_singleton.mp h
          exact of_quoted (by simpa [quoted] using ⟨hc.type, hk⟩)
        · cases h
  · rcases List.mem_append.mp h with h | h
    · split at h
      · cases List.mem_singleton.mp h
        exact of_quoted (by simpa [quoted] using ⟨hk, hc.type⟩)
      · cases h
    · split at h
      · cases List.mem_singleton.mp h
        exact of_quoted (by simpa [quoted] using hk)
      · cases h
  · cases h

lemma structure_breaks {control : Control} (hc : Unbroken e.tag.type)
    (h : p ∈ Validation.structureProblems e control) :
    Unbroken p.message ∨ Breaks catalog source path p := by
  rw [Validation.structureProblems] at h
  split at h
  · cases h
  · split at h
    · cases List.mem_singleton.mp h
      exact of_quoted (by simpa [quoted] using hc)
    · split at h
      · cases h
      · cases List.mem_singleton.mp h
        exact of_quoted (by simpa [quoted] using hc)

lemma element_breaks {seen : List String} (hd : Document.read catalog source path = .ok doc)
    (he : e ∈ doc.elements) (h : p ∈ Validation.elementProblems catalog seen e) :
    Unbroken p.message ∨ Breaks catalog source path p := by
  have ht : e.tag ∈ doc.tags := List.mem_map.mpr ⟨e, he, rfl⟩
  have hc := (tag_clean hd _ ht).type
  simp only [Validation.elementProblems, List.mem_append] at h
  rcases h with ((h | h) | h) | h
  · split at h
    · cases List.mem_singleton.mp h
      by_cases hb : ∃ name ∈ catalog.controlNames, ¬ Unbroken name
      · obtain ⟨name, hn, hb⟩ := hb
        exact .inr (.control hn hb)
      · refine of_quoted (List.forall_mem_cons.mpr ⟨hc, fun name hn => ?_⟩)
        exact not_not.mp fun hu => hb ⟨name, hn, hu⟩
    · cases h
  · split at h
    next name hn =>
      split at h
      · cases List.mem_singleton.mp h
        by_cases hb : Unbroken name
        · exact of_quoted (by simpa [quoted] using hb)
        · exact .inr (.name hd ht hn hb)
      · cases h
    · cases h
  · split at h
    · exact structure_breaks hc h
    · cases h
  · obtain ⟨a, ha, h⟩ := List.mem_flatMap.mp h
    exact attribute_breaks hd ht ha h

lemma unbroken_expected {value expected : String} {type : Option PropertyType}
    (h : (Literal.ofValue value type).expected? = some expected) : Unbroken expected := by
  have hv : ∀ {text code}, (Literal.orVerbatim value text code).expected? = some expected →
      expected = text := by
    intro text code h
    cases code with
    | some code => cases h
    | none => exact (Option.some.inj h).symm
  unfold Literal.ofValue at h
  split at h
  · cases h
  · split at h
    · cases h
    · rw [hv h]
      exact unbroken_given rfl
    · rw [hv h]
      exact unbroken_given rfl
    · cases h
    · cases h
    · rw [hv h]
      exact unbroken_given rfl
    all_goals cases h

lemma generation_breaks (hd : Document.read catalog source path = .ok doc) (ht : t ∈ doc.tags)
    (h : p ∈ Initializer.problems catalog t) :
    Unbroken p.message ∨ Breaks catalog source path p := by
  have hc := tag_clean hd t ht
  rcases List.mem_append.mp h with h | h
  · obtain ⟨⟨a, l⟩, hl, h⟩ := List.mem_filterMap.mp h
    obtain ⟨expected, hx, rfl⟩ := Option.map_eq_some_iff.mp h
    obtain ⟨a, ha, he⟩ := List.mem_map.mp hl
    cases he
    have hm : a ∈ t.attributes := (List.mem_filter.mp (List.mem_filter.mp ha).1).1
    by_cases hb : Unbroken a.value
    · apply of_quoted
      simpa [quoted] using ⟨hb, (hc.attributes a hm).1, unbroken_expected hx⟩
    · exact .inr (.value hd ht hm hb)
  · obtain ⟨a, ha, h⟩ := List.mem_filterMap.mp h
    obtain ⟨entry, hx, rfl⟩ := Option.map_eq_some_iff.mp h
    have hm : a ∈ t.attributes := (List.mem_filter.mp ha).1
    have hk := (hc.attributes a hm).1
    have he : catalog.event? t.type a.key = some entry := (Option.filter_eq_some_iff.mp hx).1
    cases hr : entry.replacement with
    | none =>
      apply of_quoted
      simpa [quoted] using ⟨hk, hc.type⟩
    | some replacement =>
      by_cases hb : Unbroken replacement
      · apply of_quoted
        simpa [quoted] using ⟨hk, hc.type, hb⟩
      · exact .inr (.replacement he hr hb)

lemma read_breaks {x : Diagnostic} (h : Document.read catalog source path = .error x) :
    Unbroken x.message ∨ ∃ p, Breaks catalog source path p ∧ x.code = p.code ∧
      x.message = p.message := by
  rw [Document.read] at h
  split at h
  · cases h
    exact .inl (unbroken_given rfl)
  · dsimp only at h
    split at h
    next f hf =>
      cases h
      rcases fault_unbroken hf with hu | ⟨hc, ht⟩
      · exact .inl ((unbroken_message _).mpr (by simpa [quoted] using hu))
      · exact .inr ⟨_, .character ht hc, rfl, rfl⟩
    · split at h
      next root _ =>
        rw [Document.ofRoot] at h
        split at h
        · cases h
          exact .inl (unbroken_given rfl)
        · cases h
      · cases h
        apply Or.inl
        apply (unbroken_message (.parseError _)).mpr
        simpa [quoted] using unbroken_given rfl

lemma reported_breaks {x : Diagnostic} (hd : Document.read catalog source path = .ok doc)
    (h : x ∈ reported catalog options doc) :
    Unbroken x.message ∨ ∃ p, Breaks catalog source path p ∧ x.code = p.code ∧
      x.message = p.message := by
  have hv : ∀ y ∈ doc.validate catalog, Unbroken y.message ∨
      ∃ p, Breaks catalog source path p ∧ y.code = p.code ∧ y.message = p.message := by
    intro y hy
    obtain ⟨e, he, seen, p, hp, rfl⟩ := exists_of_mem_check hy
    exact (element_breaks hd he hp).imp_right fun hb => ⟨p, hb, rfl, rfl⟩
  rw [reported] at h
  -- raising the severity leaves the message
  split at h
  · obtain ⟨y, hy, rfl⟩ := List.mem_map.mp h
    exact hv y hy
  · exact hv x h

theorem compile_breaks {x : Diagnostic}
    (h : x ∈ (compile catalog resolver options source path).diagnostics) :
    Unbroken x.message ∨ ∃ p, Breaks catalog source path p ∧ x.code = p.code ∧
      x.message = p.message := by
  cases hd : Document.read catalog source path with
  | error y =>
    rw [compile_error hd] at h
    cases List.mem_singleton.mp h
    exact read_breaks hd
  | ok doc =>
    rw [compile_ok hd] at h
    split at h
    · exact reported_breaks hd h
    -- nothing found is an error, so types are known and only values and events are reported
    next hf =>
      obtain ⟨text, he⟩ := emit_eq catalog resolver options doc (reported catalog options doc)
      have hv := errorFree_of_reported (Bool.eq_false_iff.mpr hf)
      rw [he, Document.generationDiagnostics, fields_diagnostics hv, List.nil_append] at h
      rcases List.mem_append.mp h with h | h
      · exact reported_breaks hd h
      · rw [Plan.diagnostics_eq] at h
        obtain ⟨t, ht, h⟩ := List.mem_flatMap.mp h
        obtain ⟨p, hp, rfl⟩ := List.mem_map.mp h
        exact (generation_breaks hd ht hp).imp_right fun hb => ⟨p, hb, rfl, rfl⟩

lemma unbroken_trim {s : String} (h : Unbroken s) : Unbroken (Text.trim s) := by
  obtain ⟨before, after, -, -, he⟩ := Trimming.exists_trim s
  rw [he, unbroken_append, unbroken_append] at h
  exact h.1.2

lemma unbroken_explicitName {name : String} (h : ∀ a ∈ t.attributes, Unbroken a.value)
    (hn : t.explicitName? = some name) : Unbroken name := by
  obtain ⟨value, hv, hn⟩ := Option.bind_eq_some_iff.mp hn
  obtain ⟨a, ha, rfl⟩ := Option.map_eq_some_iff.mp hv
  rw [Text.trimmed?] at hn
  split at hn
  · cases hn
  · cases hn
    exact unbroken_trim (h a (List.mem_of_find?_eq_some ha))

lemma not_breaks (hc : OnLines catalog)
    (hf : ∀ f, (tokenize source).fault = some f → f.cause ≠ .unexpectedChar '\n')
    (hv : ∀ value ∈ valuesOf source, Unbroken value) : ¬ Breaks catalog source path p := by
  have ha : ∀ {doc : Document} {t : Tag}, Document.read catalog source path = .ok doc →
      t ∈ doc.tags → ∀ a ∈ t.attributes, Unbroken a.value := by
    intro doc t hd ht a ha
    exact hv a.value ((tag_clean hd t ht).attributes a ha).2
  intro h
  cases h with
  | character hs he => exact hf _ hs he
  | name hd ht hn hb => exact hb (unbroken_explicitName (ha hd ht) hn)
  | binding hd ht hm hb => exact hb (unbroken_trim (ha hd ht _ hm))
  | value hd ht hm hb => exact hb (ha hd ht _ hm)
  | control hn hb => exact hb (hc.controls _ hn)
  | replacement he hr hb => exact hb (hc.replacements _ _ _ _ he hr)

end Breaks

section Batches

variable {catalog : Catalog} {resolver : TypeResolver} {options : Options} {sources : List Source}

lemma mem_compileAll :
    d ∈ (compileAll catalog resolver options sources).flatMap (·.diagnostics) ↔
      ∃ s ∈ sources, d ∈ (compile catalog resolver options s.text s.path).diagnostics := by
  rw [compileAll, List.flatMap_map, List.mem_flatMap]

/-- A report has a line for each of its diagnostics, which starts with where and what it is, and one
more for each line feed in a message. So every diagnostic has one line exactly if no message has a
line feed, and then its line gives all of it. A line feed comes into a message as the character that
was not expected, from a reference in a value that is quoted, or from the catalog. -/
theorem report_lines (catalog : Catalog) (resolver : TypeResolver) (options : Options)
    (sources : List Source) (hp : ∀ s ∈ sources, Unbroken s.path) :
    let ds := (compileAll catalog resolver options sources).flatMap (·.diagnostics)
    let lines := linesOf (Diagnostic.report ds .text)
    lines = ds.flatMap displayLines ∧
    lines.length = ds.length + (ds.map fun d => d.message.toList.count '\n').sum ∧
    (lines.length = ds.length ↔ ∀ d ∈ ds, Unbroken d.message) ∧
    ((∀ d ∈ ds, Unbroken d.message) → lines = ds.map fun d => heading d ++ d.message) ∧
    (∀ d ∈ ds, ∀ d' ∈ ds, d.path = d'.path → heading d ++ d.message = heading d' ++ d'.message →
      d = d') ∧
    (∀ s ∈ sources, ∀ d ∈ (compile catalog resolver options s.text s.path).diagnostics,
      ¬ Unbroken d.message ↔ ∃ p, Breaks catalog s.text s.path p ∧ d.code = p.code ∧
        d.message = p.message) ∧
    (OnLines catalog →
      (∀ s ∈ sources,
        (∀ f, (tokenize s.text).fault = some f → f.cause ≠ .unexpectedChar '\n') ∧
        ∀ value ∈ valuesOf s.text, Unbroken value) →
      lines = ds.map fun d => heading d ++ d.message) := by
  intro ds lines
  have hpath : ∀ d ∈ ds, Unbroken d.path := by
    intro d hd
    obtain ⟨s, hs, hd⟩ := mem_compileAll.mp hd
    rw [Relocation.path_of_mem_compile hd]
    exact hp s hs
  have hl : lines = ds.flatMap displayLines := linesOf_report hpath
  have hone : (∀ d ∈ ds, Unbroken d.message) → lines = ds.map fun d => heading d ++ d.message := by
    intro h
    rw [hl, flatMap_displayLines h]
    rfl
  refine ⟨hl, ?_, ?_, hone, fun d _ d' _ => display_inj, ?_, ?_⟩
  · rw [hl, length_flatMap_displayLines]
  · rw [hl, length_eq_iff]
  · intro s _ d hd
    constructor
    · intro hb
      exact (compile_breaks hd).resolve_left hb
    · rintro ⟨p, hb, -, hm⟩
      rw [hm]
      exact hb.broken
  · intro hc hs
    apply hone
    intro d hd
    obtain ⟨s, hm, hd⟩ := mem_compileAll.mp hd
    rcases compile_breaks hd with hu | ⟨p, hb, -⟩
    · exact hu
    · exact absurd hb (not_breaks hc (hs s hm).1 (hs s hm).2)

end Batches

def batch : List Source :=
  [⟨"a", "<\n"⟩, ⟨"b", "<W x:Class='B'><W x:Name='p&#10;q'/><W x:Name='p&#xA;q'/></W>"⟩]

def plain : List Source :=
  [⟨"c", "<W x:Class='C' Title='t'/>"⟩]

theorem report_lines_batch :
    let ds := (compileAll {} (fun _ _ => none) {} batch).flatMap (·.diagnostics)
    let ds' := (compileAll .terminalGui (fun _ _ => none) {} plain).flatMap (·.diagnostics)
    ds.length = 5 ∧ (linesOf (Diagnostic.report ds .text)).length = 7 ∧
      (¬ ∀ d ∈ ds, Unbroken d.message) ∧
      linesOf (Diagnostic.report ds' .text) = ds'.map fun d => heading d ++ d.message := by
  intro ds ds'
  obtain ⟨-, hl, hu, -⟩ := report_lines {} (fun _ _ => none) {} batch (by decide)
  obtain ⟨-, -, -, -, -, -, hone⟩ :=
    report_lines .terminalGui (fun _ _ => none) {} plain (by decide)
  have hd : ds.length = 5 := by decide +kernel
  have hs : (ds.map fun d => d.message.toList.count '\n').sum = 2 := by decide +kernel
  have hlines : (linesOf (Diagnostic.report ds .text)).length = 7 := by
    rw [hl, hd, hs]
  refine ⟨hd, hlines, fun h => ?_, hone onLines_terminalGui fun s hs => ?_⟩
  · have he := hu.mpr h
    rw [hlines, hd] at he
    cases he
  · cases List.mem_singleton.mp hs
    have hf : (tokenize "<W x:Class='C' Title='t'/>").fault = none := by decide +kernel
    refine ⟨fun f he => ?_, by decide +kernel⟩
    cases hf.symm.trans he

/-- One diagnostic, on two lines. -/
theorem line_feed_reported :
    let ds := (compileAll .terminalGui (fun _ _ => none) {} [⟨"a.tui.xaml", "<\n"⟩]).flatMap
      (·.diagnostics)
    Unbroken "a.tui.xaml" ∧ ds.length = 1 ∧ linesOf (Diagnostic.report ds .text) =
      ["a.tui.xaml:1:2: error TUI002: Invalid markup: Unexpected character \"", "\""] := by
  decide +kernel

end TuiMarkup.Proofs.ReportLines
