import Mathlib.Data.List.Zip
import Mathlib.Tactic.Lemma
import TuiMarkup.Command.Run

/-! Of files that are compiled together, each gets in its own place what it gets by itself. -/

namespace TuiMarkup.Proofs.BatchAlignment

variable {catalog : Catalog} {resolver : TypeResolver} {options : Options} {fs : FileSystem}
  {files : List Path} {path : Path} {i : ℕ}

def outcome (catalog : Catalog) (resolver : TypeResolver) (options : Options) :
    Except Output Source → Output
  | .ok s => compile catalog resolver options s.text s.path
  | .error failed => failed

lemma handOut_eq_map (catalog : Catalog) (resolver : TypeResolver) (options : Options)
    (reads : List (Path × Except Output Source)) :
    handOut reads (compileAll catalog resolver options (reads.filterMap (·.2.toOption))) =
      reads.map fun r => (r.1, outcome catalog resolver options r.2) := by
  -- the outputs that are left are those of the sources that are left: an unreadable file takes
  -- neither, and a readable one takes the first of both
  induction reads with
  | nil => rfl
  | cons r reads ih =>
    obtain ⟨path, read⟩ := r
    cases read with
    | error failed =>
      rw [List.map_cons, ← ih, List.filterMap_cons_none rfl, handOut]
      rfl
    | ok s =>
      have hs : ((path, Except.ok s) :: reads).filterMap (·.2.toOption) =
          s :: reads.filterMap (·.2.toOption) := List.filterMap_cons_some rfl
      rw [List.map_cons, ← ih, hs, compileAll, List.map_cons, handOut]
      rfl

lemma compileFiles_eq_map (catalog : Catalog) (resolver : TypeResolver) (options : Options)
    (fs : FileSystem) (files : List Path) :
    fs.compileFiles catalog resolver options files =
      files.map fun path => (path, outcome catalog resolver options (fs.readSource path)) := by
  have hh := handOut_eq_map catalog resolver options (files.map fun path => (path, fs.readSource path))
  rw [List.filterMap_map, List.map_map] at hh
  rw [FileSystem.compileFiles, ← List.map_prod_left_eq_zip, List.filterMap_map]
  exact hh

lemma compileFiles_getElem? (h : files[i]? = some path) :
    (fs.compileFiles catalog resolver options files)[i]? =
      some (path, outcome catalog resolver options (fs.readSource path)) := by
  rw [compileFiles_eq_map, List.getElem?_map, h, Option.map_some]

lemma compileFiles_eq (c : Configuration) (fs : FileSystem) :
    c.compileFiles fs = c.inputs.map fun input => (input, c.compileFile fs input) := by
  rw [Configuration.compileFiles, compileFiles_eq_map]
  refine List.map_congr_left fun input _ => congrArg (Prod.mk input) ?_
  rw [FileSystem.readSource, Configuration.compileFile]
  cases fs.readText input <;> rfl

/-- Files are compiled together to one output each, in their order. A file that can be read gets what
its text is compiled to, and any other one report that names it. So what a file gets depends neither
on its place nor on what becomes of the files around it. -/
theorem batch_aligned (catalog : Catalog) (resolver : TypeResolver) (options : Options)
    (fs : FileSystem) (files : List Path) :
    (fs.compileFiles catalog resolver options files).map (·.1) = files ∧
    (∀ (i : ℕ) (path : Path), files[i]? = some path →
      (∀ text, fs.readText path = .ok text →
        (fs.compileFiles catalog resolver options files)[i]? =
          some (path, compile catalog resolver options text path.text)) ∧
      ∀ e, fs.readText path = .error e →
        (fs.compileFiles catalog resolver options files)[i]? =
          some (path, {
            generated := none
            diagnostics := [{
              code := .parseError
              severity := .error
              path := path.text
              line := 0
              column := 0
              message := "Error compiling markup document: " ++
                ("failed to read " ++ path.text ++ ": " ++ e.message) }] })) ∧
    ∀ (fs' : FileSystem) (files' : List Path) (i j : ℕ) (path : Path), files[i]? = some path →
      files'[j]? = some path → fs'.readText path = fs.readText path →
      (fs'.compileFiles catalog resolver options files')[j]? =
        (fs.compileFiles catalog resolver options files)[i]? := by
  refine ⟨?_, ?_, ?_⟩
  · rw [compileFiles_eq_map, List.map_map]
    exact List.map_id files
  · intro i path hi
    rw [compileFiles_getElem? hi, FileSystem.readSource]
    constructor
    · intro text hr
      rw [hr]
      rfl
    · intro e hr
      rw [hr]
      rfl
  · intro fs' files' i j path hi hj hr
    rw [compileFiles_getElem? hi, compileFiles_getElem? hj, FileSystem.readSource,
      FileSystem.readSource, hr]

def shelf : FileSystem where
  root := .directory [("a", .file "<W x:Class='A'/>".toUTF8)]
  working := []

/-- A file that is not there comes between two readings of one that is. -/
theorem batch_aligned_gap :
    let outputs := shelf.compileFiles {} (fun _ _ => none) {} [⟨"b"⟩, ⟨"a"⟩, ⟨"b"⟩, ⟨"a"⟩]
    outputs[2]? = some (⟨"b"⟩, unreadable ⟨"b"⟩ .notFound) ∧
      outputs[3]? = some (⟨"a"⟩, compile {} (fun _ _ => none) {} "<W x:Class='A'/>" "a") := by
  have ha : shelf.readText ⟨"a"⟩ = .ok "<W x:Class='A'/>" := by decide +kernel
  have hb : shelf.readText ⟨"b"⟩ = .error .notFound := by decide +kernel
  obtain ⟨-, h, -⟩ := batch_aligned {} (fun _ _ => none) {} shelf [⟨"b"⟩, ⟨"a"⟩, ⟨"b"⟩, ⟨"a"⟩]
  exact ⟨(h 2 ⟨"b"⟩ rfl).2 _ hb, (h 3 ⟨"a"⟩ rfl).1 _ ha⟩

end TuiMarkup.Proofs.BatchAlignment
