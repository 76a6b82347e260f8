import Mathlib.Tactic.Lemma
import TuiMarkup.Proofs.Policy

/-! Where a document stands shows in the paths of its diagnostics, and nowhere else. -/

namespace TuiMarkup.Proofs.Relocation

variable {catalog : Catalog} {resolver : TypeResolver} {options : Options} {source path : String}

def relocate (path : String) (d : Diagnostic) : Diagnostic :=
  { d with path }

def moveTo (path : String) (d : Document) : Document :=
  { d with path }

lemma read_relocate (catalog : Catalog) (source path path' : String) :
    Document.read catalog source path' =
      ((Document.read catalog source path).mapError (relocate path')).map (moveTo path') := by
  simp only [Document.read]
  split
  · rfl
  · split
    · rfl
    · split
      next root _ =>
        rw [Document.ofRoot, Document.ofRoot]
        cases (root.tag.attribute? "x:Class").bind Text.trimmed? <;> rfl
      · rfl

lemma check_relocate (catalog : Catalog) (path path' : String) (seen : List String)
    (es : List Element) :
    Validation.check catalog path' seen es =
      (Validation.check catalog path seen es).map (relocate path') := by
  induction es generalizing seen with
  | nil => rfl
  | cons e es ih =>
    rw [Validation.check, Validation.check, List.map_append, List.map_map, ih]
    rfl

lemma reported_relocate (catalog : Catalog) (options : Options) (d : Document) (path : String) :
    Policy.reported catalog options (moveTo path d) =
      (Policy.reported catalog options d).map (relocate path) := by
  have hv : (moveTo path d).validate catalog = (d.validate catalog).map (relocate path) :=
    check_relocate catalog d.path path [] d.elements
  rw [Policy.reported, Policy.reported, hv]
  cases options.warningsAsErrors with
  | false => rfl
  | true =>
    rw [if_pos rfl, if_pos rfl, List.map_map, List.map_map]
    rfl

lemma generationDiagnostics_relocate (catalog : Catalog) (d : Document) (path : String) :
    (moveTo path d).generationDiagnostics catalog =
      (d.generationDiagnostics catalog).map (relocate path) := by
  rw [Document.generationDiagnostics, Document.generationDiagnostics, List.map_append]
  congr 1
  · rw [Fields.diagnostics, Fields.diagnostics, List.map_map]
    rfl
  · rw [Plan.diagnostics_eq, Plan.diagnostics_eq, List.map_flatMap]
    simp only [List.map_map]
    rfl

lemma emit_relocate (catalog : Catalog) (resolver : TypeResolver) (options : Options) (d : Document)
    (found : List Diagnostic) (path : String) :
    (moveTo path d).emit catalog resolver options (found.map (relocate path)) =
      { generated := (d.emit catalog resolver options found).generated
        diagnostics :=
          (d.emit catalog resolver options found).diagnostics.map (relocate path) } := by
  obtain ⟨text, ht⟩ := ClassText.generate_ok catalog d
    (dataContext d.dataType d.className resolver) options.indentWidth
  have hm : (moveTo path d).generate catalog
      (dataContext (moveTo path d).dataType (moveTo path d).className resolver)
      options.indentWidth = .ok text := ht
  rw [Document.emit, hm, generationDiagnostics_relocate, Document.emit, ht, List.map_append]

theorem compile_relocate (catalog : Catalog) (resolver : TypeResolver) (options : Options)
    (source path path' : String) :
    compile catalog resolver options source path' =
      { generated := (compile catalog resolver options source path).generated
        diagnostics :=
          (compile catalog resolver options source path).diagnostics.map (relocate path') } := by
  have hr := read_relocate catalog source path path'
  cases h : Document.read catalog source path with
  | error x =>
    rw [h] at hr
    rw [Policy.compile_error h, Policy.compile_error hr]
    rfl
  | ok d =>
    rw [h] at hr
    have he : (Policy.reported catalog options (moveTo path' d)).any (·.isError) =
        (Policy.reported catalog options d).any (·.isError) := by
      rw [reported_relocate, List.any_map]
      rfl
    rw [Policy.compile_ok h, Policy.compile_ok hr, he, reported_relocate]
    split
    · rfl
    · exact emit_relocate catalog resolver options d _ path'

lemma path_of_mem_compile {d : Diagnostic}
    (h : d ∈ (compile catalog resolver options source path).diagnostics) : d.path = path := by
  rw [compile_relocate catalog resolver options source path path] at h
  dsimp only at h
  obtain ⟨x, -, rfl⟩ := List.mem_map.mp h
  rfl

end TuiMarkup.Proofs.Relocation
