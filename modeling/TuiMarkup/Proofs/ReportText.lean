import TuiMarkup.Diagnostic.Reader
import TuiMarkup.Proofs.JsonText

/-! Reports in JSON lose nothing: every list of diagnostics is read back from its report. -/

namespace TuiMarkup.Proofs.ReportText

open Diagnostic Json JsonText

variable {d : Diagnostic} {ds : List Diagnostic}

/-! ### Parts -/

lemma code_ofName?_name (c : Code) : Code.ofName? c.name = some c := by
  cases c <;> decide

lemma severity_ofName?_name (s : Severity) : Severity.ofName? s.name = some s := by
  cases s <;> decide

lemma natural?_toString {n : ℕ} (h : n < UInt64.size) :
    Project.natural? (.number (toString n).toList) = some n := by
  have hv := Spelling.decimalValue_toString n
  have hd : (toString n).toList.all Text.isDecimalDigit = true := by
    rw [List.all_eq_true, Nat.toString_eq_repr, Nat.toList_repr]
    exact fun c hc => (digit_of_mem hc).1
  rw [Project.natural?, hv, if_pos ⟨hd, h⟩]

/-! ### Diagnostics -/

def value (d : Diagnostic) : Value :=
  .object
    [(some "code", .string (some d.code.name)), (some "severity", .string (some d.severity.name)),
      (some "filePath", .string (some d.path)), (some "line", .number (toString d.line).toList),
      (some "column", .number (toString d.column).toList),
      (some "message", .string (some d.message))]

lemma denotes_json (n : ℕ) (d : Diagnostic) : Denotes (json n d) (value d) := by
  apply denotes_object
  repeat' apply List.Forall₂.cons
  · exact ⟨rfl, denotes_quote _⟩
  · exact ⟨rfl, denotes_quote _⟩
  · exact ⟨rfl, denotes_quote _⟩
  · exact ⟨rfl, denotes_number _⟩
  · exact ⟨rfl, denotes_number _⟩
  · exact ⟨rfl, denotes_quote _⟩
  · exact List.Forall₂.nil

lemma ofValue?_value (hl : d.line < UInt64.size) (hc : d.column < UInt64.size) :
    ofValue? (value d) = some d := by
  have hp : ofParts? (.string (some d.code.name)) (.string (some d.severity.name))
      (.string (some d.path)) (.number (toString d.line).toList)
      (.number (toString d.column).toList) (.string (some d.message)) = some d := by
    simp only [ofParts?, variant?, Project.text?, natural?_toString hl, natural?_toString hc,
      Option.bind_some, code_ofName?_name, severity_ofName?_name, Option.bind_eq_bind, Option.pure_def]
  rw [← hp]
  rfl

/-! ### Reports -/

lemma read?_report (ds : List Diagnostic) :
    Json.read? (report ds .json) = some (.array (ds.map value)) := by
  apply Denotes.read
  apply denotes_array
  rw [List.forall₂_map_left_iff, List.forall₂_map_right_iff]
  exact List.forall₂_same.mpr fun d _ => denotes_json 4 d

lemma ofReport?_report (h : ∀ d ∈ ds, d.line < UInt64.size ∧ d.column < UInt64.size) :
    ofReport? (report ds .json) = some ds := by
  have hm : (ds.map value).mapM ofValue? = some ds := by
    induction ds with
    | nil => rfl
    | cons d ds ih =>
      obtain ⟨hl, hc⟩ := h d (by simp)
      have ht := ih fun d' hd => h d' (by simp [hd])
      simp [ofValue?_value hl hc, ht]
  simp only [ofReport?, read?_report, Option.bind_eq_bind, Option.bind_some]
  exact hm

/-- What is read back is the list that was written, so different lists have different reports. -/
theorem report_lossless (h : ∀ d ∈ ds, d.line < UInt64.size ∧ d.column < UInt64.size) :
    Json.read? (report ds .json) = some (.array (ds.map value)) ∧
      ofReport? (report ds .json) = some ds ∧
      ∀ ds' : List Diagnostic, (∀ d ∈ ds', d.line < UInt64.size ∧ d.column < UInt64.size) → ds ≠ ds' →
        report ds .json ≠ report ds' .json := by
  refine ⟨read?_report ds, ofReport?_report h, ?_⟩
  intro ds' h' hne he
  apply hne
  have hr := ofReport?_report h
  rw [he, ofReport?_report h'] at hr
  exact (Option.some.inj hr).symm

def mixed : List Diagnostic :=
  [⟨.parseError, .error, "C:\\a \"b\".tui.xaml", UInt64.size - 1, 0, "\x01\x08\x0c\t\r\n\x1f\x7f/é😀"⟩,
    ⟨.unknownEvent, .error, "", 1, 2, ""⟩]

theorem report_lossless_mixed :
    ofReport? (report mixed .json) = some mixed ∧
      report mixed .json ≠ report mixed.tail .json := by
  have hd : ∀ d ∈ mixed, d.line < UInt64.size ∧ d.column < UInt64.size := by decide
  obtain ⟨-, hr, hn⟩ := report_lossless hd
  exact ⟨hr, hn mixed.tail (by decide) (by decide)⟩

end TuiMarkup.Proofs.ReportText
