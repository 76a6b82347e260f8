import Mathlib.Tactic.Lemma
import TuiMarkup.Compilation
import TuiMarkup.Proofs.ClassText

/-! Code is written exactly when no error is reported. -/

namespace TuiMarkup.Proofs.Policy

variable {catalog : Catalog} {resolver : TypeResolver} {options : Options} {source path : String}
  {d : Document} {x : Diagnostic}

/-! ### Severities -/

lemma read_isError (h : Document.read catalog source path = .error x) : x.isError = true := by
  rw [Document.read] at h
  split at h
  · cases h
    rfl
  · dsimp only at h
    split at h
    · cases h
      rfl
    · split at h
      next root _ =>
        rw [Document.ofRoot] at h
        split at h
        · cases h
          rfl
        · cases h
      · cases h
        rfl

lemma generation_isError (h : x ∈ d.generationDiagnostics catalog) : x.isError = false := by
  rcases List.mem_append.mp h with h | h
  · obtain ⟨t, _, rfl⟩ := List.mem_map.mp h
    rfl
  · rw [Plan.diagnostics_eq] at h
    obtain ⟨t, _, h⟩ := List.mem_flatMap.mp h
    obtain ⟨p, hp, rfl⟩ := List.mem_map.mp h
    rcases List.mem_append.mp hp with hp | hp
    · obtain ⟨⟨a, l⟩, _, hl⟩ := List.mem_filterMap.mp hp
      obtain ⟨expected, _, rfl⟩ := Option.map_eq_some_iff.mp hl
      rfl
    · obtain ⟨a, _, he⟩ := List.mem_filterMap.mp hp
      obtain ⟨e, _, rfl⟩ := Option.map_eq_some_iff.mp he
      rfl

/-! ### Modes -/

def strict (options : Options) : Options :=
  { options with warningsAsErrors := true }

def lenient (options : Options) : Options :=
  { options with warningsAsErrors := false }

def reported (catalog : Catalog) (options : Options) (d : Document) : List Diagnostic :=
  if options.warningsAsErrors then (d.validate catalog).map (·.raised) else d.validate catalog

lemma blocks_reported (catalog : Catalog) (options : Options) (d : Document) :
    Diagnostic.blocks (reported catalog options d) options.warningsAsErrors =
      (reported catalog options d).any (·.isError) := by
  rw [reported]
  cases options.warningsAsErrors with
  | false => simp [Diagnostic.blocks]
  | true => simp [Diagnostic.blocks, Diagnostic.raised, Diagnostic.isError, Function.comp_def]

lemma compile_error (h : Document.read catalog source path = .error x) :
    compile catalog resolver options source path = ⟨none, [x]⟩ := by
  rw [compile, h]

lemma compile_ok (h : Document.read catalog source path = .ok d) :
    compile catalog resolver options source path =
      if (reported catalog options d).any (·.isError) then ⟨none, reported catalog options d⟩
      else d.emit catalog resolver options (reported catalog options d) := by
  rw [compile, h, ← blocks_reported]
  rfl

lemma emit_eq (catalog : Catalog) (resolver : TypeResolver) (options : Options) (d : Document)
    (found : List Diagnostic) :
    ∃ text, d.emit catalog resolver options found =
      ⟨some text, found ++ d.generationDiagnostics catalog⟩ := by
  obtain ⟨text, ht⟩ := ClassText.generate_ok catalog d
    (dataContext d.dataType d.className resolver) options.indentWidth
  refine ⟨text, ?_⟩
  rw [Document.emit, ht]

theorem generated_iff (catalog : Catalog) (resolver : TypeResolver) (options : Options)
    (source path : String) :
    (compile catalog resolver options source path).generated.isSome = true ↔
      (compile catalog resolver options source path).hasErrors = false := by
  cases h : Document.read catalog source path with
  | error x => simp [compile_error h, Output.hasErrors, read_isError h]
  | ok d =>
    rw [compile_ok h]
    cases hr : (reported catalog options d).any (·.isError) with
    | true => simp [Output.hasErrors, hr]
    | false =>
      obtain ⟨text, ht⟩ := emit_eq catalog resolver options d (reported catalog options d)
      have hg : (d.generationDiagnostics catalog).any (·.isError) = false :=
        List.any_eq_false.mpr fun x hx => by simp [generation_isError hx]
      simp [ht, Output.hasErrors, hr, hg]

lemma strict_any (catalog : Catalog) (options : Options) (d : Document) :
    (reported catalog (strict options) d).any (·.isError) = !(d.validate catalog).isEmpty := by
  have hs : reported catalog (strict options) d = (d.validate catalog).map (·.raised) := rfl
  rw [hs]
  cases d.validate catalog <;> rfl

lemma strict_eq_lenient (h : Document.read catalog source path = .ok d)
    (hv : d.validate catalog = []) :
    compile catalog resolver (strict options) source path =
      compile catalog resolver (lenient options) source path := by
  have hs : reported catalog (strict options) d = [] := by simp [reported, hv]
  have hl : reported catalog (lenient options) d = [] := by simp [reported, hv]
  rw [compile_ok h, compile_ok h, hs, hl]
  rfl

lemma strict_blocked (h : Document.read catalog source path = .ok d)
    (hv : d.validate catalog ≠ []) :
    compile catalog resolver (strict options) source path =
      ⟨none, (d.validate catalog).map (·.raised)⟩ := by
  have he : (reported catalog (strict options) d).any (·.isError) = true := by
    simpa [strict_any] using hv
  rw [compile_ok h, he]
  rfl

lemma strict_generated_iff (catalog : Catalog) (resolver : TypeResolver) (options : Options)
    (source path : String) :
    (compile catalog resolver (strict options) source path).generated.isSome = true ↔
      ∃ d, Document.read catalog source path = .ok d ∧ d.validate catalog = [] := by
  cases h : Document.read catalog source path with
  | error x => simp [compile_error h]
  | ok d =>
    constructor
    · intro hg
      refine ⟨d, rfl, ?_⟩
      by_contra hv
      rw [strict_blocked h hv] at hg
      cases hg
    · rintro ⟨d', hd, hv⟩
      cases hd
      have he : (reported catalog (strict options) d).any (·.isError) = false := by
        simp [strict_any, hv]
      obtain ⟨text, ht⟩ := emit_eq catalog resolver (strict options) d
        (reported catalog (strict options) d)
      simp [compile_ok h, he, ht]

/-- Code goes with the absence of errors. With warnings as errors it takes a document in which
nothing at all was found, and then the mode makes no difference. -/
theorem emission_policy (catalog : Catalog) (resolver : TypeResolver) (options : Options)
    (source path : String) :
    ((compile catalog resolver options source path).generated.isSome = true ↔
      (compile catalog resolver options source path).hasErrors = false) ∧
    ((compile catalog resolver (strict options) source path).generated.isSome = true ↔
      ∃ d, Document.read catalog source path = .ok d ∧ d.validate catalog = []) ∧
    ((compile catalog resolver (strict options) source path).generated.isSome = true →
      compile catalog resolver (strict options) source path =
        compile catalog resolver (lenient options) source path) ∧
    (∀ d, Document.read catalog source path = .ok d →
      (compile catalog resolver (strict options) source path).generated = none →
      (compile catalog resolver (strict options) source path).diagnostics =
        (d.validate catalog).map fun x => { x with severity := .error }) ∧
    (∀ x, Document.read catalog source path = .error x →
      compile catalog resolver (strict options) source path = ⟨none, [x]⟩ ∧
        compile catalog resolver (lenient options) source path = ⟨none, [x]⟩) := by
  have hs := strict_generated_iff catalog resolver options source path
  refine ⟨generated_iff catalog resolver options source path, hs, ?_, ?_, ?_⟩
  · intro hg
    obtain ⟨d, hd, hv⟩ := hs.mp hg
    exact strict_eq_lenient hd hv
  · intro d hd hn
    have hv : d.validate catalog ≠ [] := by
      intro hv
      have hg := hs.mpr ⟨d, hd, hv⟩
      rw [hn] at hg
      cases hg
    rw [strict_blocked hd hv]
    rfl
  · intro x hx
    exact ⟨compile_error hx, compile_error hx⟩

end TuiMarkup.Proofs.Policy
