import Mathlib.Data.List.Forall2
import Mathlib.Tactic.Lemma
import TuiMarkup.Proofs.Discovery
import TuiMarkup.Proofs.PathOrder
import TuiMarkup.Proofs.Relocation
import TuiMarkup.Proofs.RunAccount

/-! What is compiled depends on which paths are named, not on their order nor on how often. -/

namespace TuiMarkup.Proofs.InputOrder

open Places PathSpelling PathOrder GlobSearch Discovery Relocation RunAccount

variable {fs : FileSystem} {r : Request} {p q : Path} {ps qs : List Path} {patterns : List String}

/-! ### Entries -/

/-- The documents that an entry stands for, if there is anything at its path. -/
def entryDocuments (fs : FileSystem) (patterns : List String) (p : Path) : List Path :=
  if fs.isDirectory p then fs.discover p patterns else [p]

lemma fileExists_of_isFile (h : fs.isFile p = true) : fs.fileExists p = true :=
  Option.isSome_of_any h

lemma fileExists_of_isDirectory (h : fs.isDirectory p = true) : fs.fileExists p = true :=
  Option.isSome_of_any h

lemma documentsAt_eq_ite (fs : FileSystem) (patterns : List String) (p : Path) :
    Request.documentsAt fs patterns p =
      if fs.fileExists p then .ok (entryDocuments fs patterns p) else .error (.missingInput p) := by
  rw [Request.documentsAt, entryDocuments]
  by_cases hd : fs.isDirectory p = true
  · rw [if_pos hd, if_pos (fileExists_of_isDirectory hd), if_pos hd]
  · rw [if_neg hd, if_neg hd]
    by_cases hf : fs.isFile p = true
    · rw [if_pos hf, if_pos (fileExists_of_isFile hf)]
    · rw [if_neg hf, if_neg fun he => hf (isFile_of_not_isDirectory he hd)]

lemma mapM_entryDocuments (h : ∀ p ∈ ps, fs.fileExists p = true) :
    ps.mapM (Request.documentsAt fs patterns) = .ok (ps.map (entryDocuments fs patterns)) := by
  induction ps with
  | nil => rfl
  | cons p ps ih =>
    obtain ⟨hp, hps⟩ := List.forall_mem_cons.mp h
    rw [List.mapM_cons, documentsAt_eq_ite, if_pos hp, ih hps]
    rfl

lemma mapM_missingInput (patterns : List String) (h : ∃ p ∈ ps, fs.fileExists p = false) :
    ∃ p ∈ ps, fs.fileExists p = false ∧
      ps.mapM (Request.documentsAt fs patterns) = .error (.missingInput p) := by
  induction ps with
  | nil =>
    obtain ⟨p, hp, -⟩ := h
    cases hp
  | cons p ps ih =>
    rw [List.mapM_cons, documentsAt_eq_ite]
    cases he : fs.fileExists p with
    -- the first entry at which there is nothing stops the search
    | false => exact ⟨p, .head ps, he, rfl⟩
    | true =>
      obtain ⟨q, hq, hf⟩ := h
      rcases List.mem_cons.mp hq with rfl | hq
      · rw [hf] at he
        cases he
      · obtain ⟨x, hx, hn, hm⟩ := ih ⟨q, hq, hf⟩
        refine ⟨x, .tail p hx, hn, ?_⟩
        rw [hm]
        rfl

def settled (r : Request) (project : Project) (inputs : List Path) : Configuration where
  project := r.project
  inputs := inputs
  options := { project.options with
    warningsAsErrors := r.warningsAsErrors || project.options.warningsAsErrors }
  outDir := r.outDir.orElse fun _ => project.outDirFrom (Request.baseDirectory r.project)
  types := project.types

lemma configure_eq (fs : FileSystem) (r : Request) (h : ps ≠ []) :
    Request.configure fs { r with paths := ps } =
      (Request.loadProject fs r.project).bind fun project =>
        (ps.mapM (Request.documentsAt fs project.patterns)).map fun found =>
          settled r project (Path.sorted found.flatten) := by
  have hb : ps.isEmpty = false := by simpa using h
  -- once paths are named, no project but the one that is named counts
  have hp : Request.projectPath? fs { r with paths := ps } = r.project := by
    rw [Request.projectPath?, hb]
    cases r.project <;> rfl
  simp only [Request.configure, hp, Request.documents, hb]
  cases Request.loadProject fs r.project with
  | error e => rfl
  | ok project =>
    simp only [Bool.false_eq_true, if_false, bind, Except.bind]
    cases ps.mapM (Request.documentsAt fs project.patterns) <;> rfl

/-! ### Entries that stand for the same documents -/

/-- The same path, two spellings of one file, or two of a directory that go before a pattern alike.
Other spellings of a directory need not find what it holds. -/
inductive Interchangeable (fs : FileSystem) : Path → Path → Prop
  | refl (p : Path) : Interchangeable fs p p
  | file {p q : Path} (hs : p.same q = true) (hp : fs.isFile p = true) (hq : fs.isFile q = true) :
      Interchangeable fs p q
  | directory {p q : Path} (hp : fs.isDirectory p = true) (hq : fs.isDirectory q = true)
      (hj : ∀ s, p.join s = q.join s) : Interchangeable fs p q

lemma Interchangeable.symm (h : Interchangeable fs p q) : Interchangeable fs q p := by
  cases h with
  | refl => exact .refl p
  | file hs hp hq => exact .file (same_symm hs) hq hp
  | directory hp hq hj => exact .directory hq hp fun s => (hj s).symm

structure SameEntries (fs : FileSystem) (ps qs : List Path) : Prop where
  left : ∀ p ∈ ps, ∃ q ∈ qs, Interchangeable fs p q
  right : ∀ q ∈ qs, ∃ p ∈ ps, Interchangeable fs p q

lemma SameEntries.of_mem (h : ∀ p ∈ ps, p ∈ qs) (h' : ∀ q ∈ qs, q ∈ ps) : SameEntries fs ps qs :=
  ⟨fun p hp => ⟨p, h p hp, .refl p⟩, fun q hq => ⟨q, h' q hq, .refl q⟩⟩

lemma SameEntries.symm (h : SameEntries fs ps qs) : SameEntries fs qs ps := by
  refine ⟨fun q hq => ?_, fun p hp => ?_⟩
  · obtain ⟨p, hp, hi⟩ := h.right q hq
    exact ⟨p, hp, hi.symm⟩
  · obtain ⟨q, hq, hi⟩ := h.left p hp
    exact ⟨q, hq, hi.symm⟩

lemma SameEntries.ne_nil (h : SameEntries fs ps qs) (hp : ps ≠ []) : qs ≠ [] := by
  obtain ⟨p, hp⟩ := List.exists_mem_of_ne_nil ps hp
  obtain ⟨q, hq, -⟩ := h.left p hp
  exact List.ne_nil_of_mem hq

lemma SameEntries.missing (h : SameEntries fs ps qs) (hp : ∃ p ∈ ps, fs.fileExists p = false) :
    ∃ q ∈ qs, fs.fileExists q = false := by
  obtain ⟨p, hp, hf⟩ := hp
  obtain ⟨q, hq, hi⟩ := h.left p hp
  cases hi with
  | refl => exact ⟨p, hq, hf⟩
  | file _ hp _ =>
    rw [fileExists_of_isFile hp] at hf
    cases hf
  | directory hp _ _ =>
    rw [fileExists_of_isDirectory hp] at hf
    cases hf

lemma not_isDirectory_of_isFile (h : fs.isFile p = true) : ¬ fs.isDirectory p = true := by
  obtain ⟨t, ht⟩ := exists_of_isFile h
  rw [isFile_of_resolve ht] at h
  rw [isDirectory_of_resolve ht]
  simpa using h

lemma covers_entryDocuments (patterns : List String) (h : Interchangeable fs p q) :
    Covers (entryDocuments fs patterns p) (entryDocuments fs patterns q) := by
  intro d hd
  cases h with
  | refl => exact ⟨d, hd, beq_self_eq_true _⟩
  | file hs hp hq =>
    rw [entryDocuments, if_neg (not_isDirectory_of_isFile hp)] at hd
    rw [entryDocuments, if_neg (not_isDirectory_of_isFile hq)]
    exact ⟨q, .head _, List.mem_singleton.mp hd ▸ hs⟩
  | directory hp hq hj =>
    rw [entryDocuments, if_pos hp, FileSystem.discover] at hd
    simp only [hj] at hd
    rw [entryDocuments, if_pos hq]
    exact ⟨d, hd, beq_self_eq_true _⟩

lemma SameEntries.covers (h : SameEntries fs ps qs) (patterns : List String) :
    Covers (ps.flatMap (entryDocuments fs patterns)) (qs.flatMap (entryDocuments fs patterns)) := by
  intro d hd
  obtain ⟨p, hp, hd⟩ := List.mem_flatMap.mp hd
  obtain ⟨q, hq, hi⟩ := h.left p hp
  obtain ⟨d', hd', hs⟩ := covers_entryDocuments patterns hi d hd
  exact ⟨d', List.mem_flatMap.mpr ⟨q, hq, hd'⟩, hs⟩

lemma isFile_of_mem_entryDocuments (he : fs.fileExists p = true)
    (h : q ∈ entryDocuments fs patterns p) : fs.isFile q = true := by
  rw [entryDocuments] at h
  split at h
  · exact isFile_of_mem_discover h
  next hd =>
    rw [List.mem_singleton.mp h]
    exact isFile_of_not_isDirectory he hd

/-! ### Files under two spellings -/

lemma readText_same (hp : fs.isFile p = true) (hq : fs.isFile q = true) (h : p.same q = true) :
    fs.readText q = fs.readText p := by
  obtain ⟨t, ht⟩ := exists_of_isFile hp
  obtain ⟨u, hu⟩ := exists_of_isFile hq
  obtain ⟨hst, hnt⟩ := resolve_spec ht
  obtain ⟨hsu, hnu⟩ := resolve_spec hu
  -- both trails end at the place that the components lead to
  have hr : fs.reached t = fs.reached u := by
    have hn := hsu.node
    rw [hnu, ← placeOf_same h, ← hnt, hst.node] at hn
    exact Option.some.inj hn
  simp only [FileSystem.readText, ht, hu, bind, Except.bind, hr]

/-- Two diagnostics that differ in the spelling of their path only, which the report of an
unreadable file spells out in its message too. -/
structure Respelled (d d' : Diagnostic) : Prop where
  path : Path.same ⟨d.path⟩ ⟨d'.path⟩ = true
  code : d'.code = d.code
  severity : d'.severity = d.severity
  line : d'.line = d.line
  column : d'.column = d.column
  message : d'.message = d.message ∨ ∃ e, [d] = (unreadable ⟨d.path⟩ e).diagnostics ∧
    [d'] = (unreadable ⟨d'.path⟩ e).diagnostics

lemma forall₂_relocate {ds : List Diagnostic} (h : p.same q = true)
    (hd : ∀ d ∈ ds, d.path = p.text) : List.Forall₂ Respelled ds (ds.map (relocate q.text)) := by
  rw [List.forall₂_map_right_iff, List.forall₂_same]
  intro d hmem
  refine ⟨?_, rfl, rfl, rfl, rfl, .inl rfl⟩
  rw [hd d hmem]
  exact h

lemma compileFile_respelled (c : Configuration) (hp : fs.isFile p = true) (hq : fs.isFile q = true)
    (h : p.same q = true) :
    (c.compileFile fs q).generated = (c.compileFile fs p).generated ∧
      List.Forall₂ Respelled (c.compileFile fs p).diagnostics (c.compileFile fs q).diagnostics := by
  rw [Configuration.compileFile, Configuration.compileFile, readText_same hp hq h]
  cases fs.readText p with
  | error e => exact ⟨rfl, .cons ⟨h, rfl, rfl, rfl, rfl, .inr ⟨e, rfl, rfl⟩⟩ .nil⟩
  | ok text =>
    dsimp only
    rw [compile_relocate Catalog.terminalGui c.types.propertyOfType? c.options text p.text q.text]
    dsimp only
    exact ⟨rfl, forall₂_relocate h fun d hd => path_of_mem_compile hd⟩

lemma forall₂_diagnostics (c : Configuration)
    (h : List.Forall₂ (fun p q => p.same q = true) ps qs) (hp : ∀ p ∈ ps, fs.isFile p = true)
    (hq : ∀ q ∈ qs, fs.isFile q = true) :
    List.Forall₂ Respelled (ps.flatMap fun p => (c.compileFile fs p).diagnostics)
      (qs.flatMap fun q => (c.compileFile fs q).diagnostics) := by
  induction h with
  | nil => exact .nil
  | cons hs _ ih =>
    obtain ⟨hp, hps⟩ := List.forall_mem_cons.mp hp
    obtain ⟨hq, hqs⟩ := List.forall_mem_cons.mp hq
    rw [List.flatMap_cons, List.flatMap_cons]
    exact List.rel_append (compileFile_respelled c hp hq hs).2 (ih hps hqs)

/-! ### Requests -/

section Requests

variable {project : Project}

def inputsOf (fs : FileSystem) (project : Project) (ps : List Path) : List Path :=
  Path.sorted (ps.flatMap (entryDocuments fs project.patterns))

lemma configure_settled (hn : ps ≠ []) (hl : Request.loadProject fs r.project = .ok project)
    (he : ∀ p ∈ ps, fs.fileExists p = true) :
    Request.configure fs { r with paths := ps } =
      .ok (settled r project (inputsOf fs project ps)) := by
  rw [configure_eq fs r hn, hl, Except.bind, mapM_entryDocuments he, inputsOf, List.flatMap_def]
  rfl

lemma configure_missing (hn : ps ≠ []) (hl : Request.loadProject fs r.project = .ok project)
    (hm : ∃ p ∈ ps, fs.fileExists p = false) :
    ∃ p ∈ ps, fs.fileExists p = false ∧
      Request.configure fs { r with paths := ps } = .error (.missingInput p) := by
  obtain ⟨p, hp, hf, he⟩ := mapM_missingInput project.patterns hm
  refine ⟨p, hp, hf, ?_⟩
  rw [configure_eq fs r hn, hl, Except.bind, he]
  rfl

lemma isFile_of_mem_inputsOf (he : ∀ p ∈ ps, fs.fileExists p = true)
    (h : q ∈ inputsOf fs project ps) : fs.isFile q = true := by
  obtain ⟨p, hp, hq⟩ := List.mem_flatMap.mp (mem_of_mem_sorted h)
  exact isFile_of_mem_entryDocuments (he p hp) hq

lemma countP_compileFiles {c : Configuration} (h : c.inputs.Pairwise Before)
    (hq : ∃ p ∈ c.inputs, p.same q = true) : (c.compileFiles fs).countP (·.1.same q) = 1 := by
  rw [BatchAlignment.compileFiles_eq, List.countP_map]
  exact countP_same h hq

end Requests

/-- Requests whose paths are the same set come to the same. If something is at every path, the
inputs of both are in strict order and the same path by path, so that a document is compiled once
however it is reached, and the diagnostics come in one order. If there is nothing at one of them,
both fail. -/
theorem configure_sameEntries (fs : FileSystem) (r : Request) (ps qs : List Path) (hn : ps ≠ [])
    (h : SameEntries fs ps qs) :
    (∀ e, Request.loadProject fs r.project = .error e →
      Request.configure fs { r with paths := ps } = .error e ∧
      Request.configure fs { r with paths := qs } = .error e) ∧
    ∀ project, Request.loadProject fs r.project = .ok project →
      ((∀ p ∈ ps, fs.fileExists p = true) → ∃ c c',
        Request.configure fs { r with paths := ps } = .ok c ∧
        Request.configure fs { r with paths := qs } = .ok c' ∧
        c' = { c with inputs := c'.inputs } ∧
        List.Forall₂ (fun p q => p.same q = true) c.inputs c'.inputs ∧
        c.inputs.Pairwise Before ∧ c'.inputs.Pairwise Before ∧
        (∀ d ∈ c.inputs, ∃ p ∈ ps, d ∈ entryDocuments fs project.patterns p) ∧
        (∀ p ∈ ps, ∀ d ∈ entryDocuments fs project.patterns p,
          (c.compileFiles fs).countP (·.1.same d) = 1 ∧
          (c'.compileFiles fs).countP (·.1.same d) = 1) ∧
        ∀ check, List.Forall₂ Respelled (c.perform fs check).2.diagnostics
          (c'.perform fs check).2.diagnostics) ∧
      ((∃ p ∈ ps, fs.fileExists p = false) →
        (∃ p ∈ ps, fs.fileExists p = false ∧
          Request.configure fs { r with paths := ps } = .error (.missingInput p)) ∧
        ∃ q ∈ qs, fs.fileExists q = false ∧
          Request.configure fs { r with paths := qs } = .error (.missingInput q)) := by
  have hn' := h.ne_nil hn
  refine ⟨fun e hl => ?_, fun project hl => ⟨fun he => ?_, fun hm => ?_⟩⟩
  · rw [configure_eq fs r hn, configure_eq fs r hn', hl]
    exact ⟨rfl, rfl⟩
  · have he' : ∀ q ∈ qs, fs.fileExists q = true := by
      intro q hq
      rw [← Bool.not_eq_false]
      intro hf
      obtain ⟨p, hp, hf⟩ := h.symm.missing ⟨q, hq, hf⟩
      rw [he p hp] at hf
      cases hf
    -- What each list stands for is covered by the other, and sorted there is one way to list it.
    have hc := (h.covers project.patterns).sorted
    have hs := forall₂_same (pairwise_sorted _) (pairwise_sorted _) hc
      (h.symm.covers project.patterns).sorted
    refine ⟨_, _, configure_settled hn hl he, configure_settled hn' hl he', rfl, hs,
      pairwise_sorted _, pairwise_sorted _, ?_, ?_, ?_⟩
    · intro d hd
      exact List.mem_flatMap.mp (mem_of_mem_sorted hd)
    · intro p hp d hd
      obtain ⟨x, hx, hxd⟩ := exists_mem_sorted (List.mem_flatMap.mpr ⟨p, hp, hd⟩)
      obtain ⟨y, hy, hxy⟩ := hc x hx
      exact ⟨countP_compileFiles (pairwise_sorted _) ⟨x, hx, hxd⟩,
        countP_compileFiles (pairwise_sorted _) ⟨y, hy, same_trans (same_symm hxy) hxd⟩⟩
    · intro check
      rw [perform_result, perform_result]
      exact forall₂_diagnostics (settled r project []) hs (fun p => isFile_of_mem_inputsOf he)
        fun q => isFile_of_mem_inputsOf he'
  · exact ⟨configure_missing hn hl hm, configure_missing hn' hl (h.missing hm)⟩

def shelf : FileSystem where
  root := .directory [("d", .directory
    [("a.tui.xaml", .file "<W".toUTF8), ("e", .directory [("b.tui.xaml", .file .empty)])])]
  working := []

/-- A document is named by itself, in two spellings, and lies in a directory that is named with one
below it. -/
theorem configure_sameEntries_overlap :
    ∃ c c',
      Request.configure shelf
        { paths := [⟨"d"⟩, ⟨"d/e"⟩, ⟨"d/a.tui.xaml"⟩, ⟨"d//a.tui.xaml"⟩] } = .ok c ∧
      Request.configure shelf
        { paths := [⟨"d//a.tui.xaml"⟩, ⟨"d/e"⟩, ⟨"d/a.tui.xaml"⟩, ⟨"d"⟩, ⟨"d/e"⟩] } = .ok c' ∧
      List.Forall₂ (fun p q => p.same q = true) c.inputs c'.inputs ∧
      c.inputs.Pairwise Before ∧
      (c.compileFiles shelf).countP (·.1.same ⟨"d/a.tui.xaml"⟩) = 1 ∧
      (c'.compileFiles shelf).countP (·.1.same ⟨"d/a.tui.xaml"⟩) = 1 := by
  have h : SameEntries shelf [⟨"d"⟩, ⟨"d/e"⟩, ⟨"d/a.tui.xaml"⟩, ⟨"d//a.tui.xaml"⟩]
      [⟨"d//a.tui.xaml"⟩, ⟨"d/e"⟩, ⟨"d/a.tui.xaml"⟩, ⟨"d"⟩, ⟨"d/e"⟩] :=
    .of_mem (by decide) (by decide)
  obtain ⟨-, hc⟩ := configure_sameEntries shelf {} _ _ (List.cons_ne_nil _ _) h
  obtain ⟨c, c', hp, hq, -, hs, hb, -, -, hone, -⟩ := (hc {} rfl).1 (by decide +kernel)
  obtain ⟨hl, hr⟩ := hone ⟨"d/a.tui.xaml"⟩ (by decide) ⟨"d/a.tui.xaml"⟩ (by decide +kernel)
  exact ⟨c, c', hp, hq, hs, hb, hl, hr⟩

def tray : FileSystem where
  root := .directory [("d", .directory [("a.tui.xaml", .file .empty)])]
  working := []

/-- A directory is the same path with a slash doubled after the leading dot, but then nothing is
found in it. -/
theorem doubled_slash_missed :
    Path.same ⟨"./d"⟩ ⟨".//d"⟩ = true ∧ tray.fileExists ⟨"./d"⟩ = true ∧
      tray.fileExists ⟨".//d"⟩ = true ∧
      ∃ c c', Request.configure tray { paths := [⟨"./d"⟩] } = .ok c ∧
        Request.configure tray { paths := [⟨".//d"⟩] } = .ok c' ∧
        c.inputs = [⟨"d/a.tui.xaml"⟩] ∧ c'.inputs = [] ∧
        ¬ List.Forall₂ (fun p q => p.same q = true) c.inputs c'.inputs := by
  have hp : tray.fileExists ⟨"./d"⟩ = true := by decide +kernel
  have hq : tray.fileExists ⟨".//d"⟩ = true := by decide +kernel
  have hi : inputsOf tray {} [⟨"./d"⟩] = [⟨"d/a.tui.xaml"⟩] ∧ inputsOf tray {} [⟨".//d"⟩] = [] := by
    decide +kernel
  refine ⟨by decide +kernel, hp, hq, _, _,
    configure_settled (r := {}) (List.cons_ne_nil _ _) rfl (List.forall_mem_singleton.mpr hp),
    configure_settled (r := {}) (List.cons_ne_nil _ _) rfl (List.forall_mem_singleton.mpr hq),
    hi.1, hi.2, ?_⟩
  intro h
  have hc : List.Forall₂ (fun p q => p.same q = true) (inputsOf tray {} [⟨"./d"⟩])
      (inputsOf tray {} [⟨".//d"⟩]) := h
  rw [hi.1, hi.2] at hc
  cases hc

end TuiMarkup.Proofs.InputOrder
