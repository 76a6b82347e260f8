import Mathlib.Tactic.Lemma
import TuiMarkup.Command.Run
import TuiMarkup.Proofs.BatchAlignment
import TuiMarkup.Proofs.PathSegments
import TuiMarkup.Proofs.Policy
import TuiMarkup.Proofs.TerminalGui

/-!
What a run has written is there at its end, unless output for a namesake goes to the same directory.
Two paths lead to one file only if they have the same place: the file systems here have no links, and
names that are not Unicode texts are not in them.
-/

namespace TuiMarkup.Proofs.Targets

open Places PathSegments

variable {fs fs' : FileSystem} {c : Configuration} {r : RunResult} {p input other : Path}
  {outDir : Option Path} {name text : String} {o : Path × Output} {os : List (Path × Output)}
  {s : FileSystem × RunResult}

def Apart (fs : FileSystem) (p q : Path) : Prop :=
  ∀ t u, fs.resolve p = .ok t → fs.resolve q = .ok u → t.names ≠ u.names

lemma apart_of_placeOf_ne {q : Path} (h : placeOf fs p ≠ placeOf fs q) : Apart fs p q := by
  intro t u ht hu
  rw [(resolve_spec ht).2, (resolve_spec hu).2]
  exact h

/-! ### Targets -/

lemma proper_suffixed (name : String) : Proper (name ++ generatedSuffix) := by
  have hl : 5 ≤ (name ++ generatedSuffix).length := by
    rw [String.length_append]
    exact Nat.le_add_left ..
  refine ⟨?_, ?_, ?_⟩ <;> intro h <;> rw [h] at hl <;> exact absurd hl (by decide)

lemma placeOf_outputPath (fs : FileSystem) (outDir : Option Path) (h : input.fileName? = some name) :
    ∃ directory, placeOf fs (outputPath input outDir) = directory ++ [name ++ generatedSuffix] ∧
      (outDir = none → placeOf fs input = directory ++ [name]) := by
  obtain ⟨-, -, -, hs⟩ := fileName?_cases h
  have hs : '/' ∉ (name ++ generatedSuffix).toList := by
    rw [String.toList_append]
    simpa using ⟨hs, by decide⟩
  rw [outputPath, h, Option.getD_some]
  refine ⟨_, placeOf_join fs _ hs (proper_suffixed name), ?_⟩
  rintro rfl
  obtain ⟨parent, hp, hi⟩ := placeOf_parent h
  rw [hp]
  exact hi fs

lemma placeOf_outputPath_inj {name' : String} (h : input.fileName? = some name)
    (h' : other.fileName? = some name')
    (he : placeOf fs (outputPath input outDir) = placeOf fs (outputPath other outDir)) :
    name = name' ∧ (outDir = none → placeOf fs input = placeOf fs other) := by
  obtain ⟨d, hd, hi⟩ := placeOf_outputPath fs outDir h
  obtain ⟨d', hd', hi'⟩ := placeOf_outputPath fs outDir h'
  rw [hd, hd'] at he
  obtain ⟨rfl, hn⟩ := List.append_inj' he rfl
  have hn : name = name' := by simpa using hn
  exact ⟨hn, fun hO => by rw [hi hO, hi' hO, hn]⟩

/-! ### Writing -/

lemma writeGenerated_spec (fs : FileSystem) (target : Path) (text : String) :
    Changes (· = placeOf fs target)
        (fun place => ∃ q, Relation.TransGen IsParent target q ∧ place = placeOf fs q) fs
        (fs.writeGenerated target text).1 ∧
      ((fs.writeGenerated target text).2 = .ok () →
        Holds (fs.writeGenerated target text).1 target text) := by
  have hc : Changes (· = placeOf fs target)
      (fun place => ∃ q, Relation.TransGen IsParent target q ∧ place = placeOf fs q) fs
      (fs.makeDirectories (target.parent?.getD ⟨""⟩).ancestors).1 :=
    (makeDirectories_changes _ _ fs).mono (fun _ h => h)
      fun _ ⟨q, hq, hp⟩ => ⟨q, ancestors_parents hq, hp⟩
  unfold FileSystem.writeGenerated
  dsimp only
  cases hm : fs.makeDirectories (target.parent?.getD ⟨""⟩).ancestors with
  | mk fs₁ made =>
    rw [hm] at hc
    cases made with
    | error e => exact ⟨hc, fun h => by cases h⟩
    | ok _ =>
      dsimp only
      cases hw : fs₁.writeText target text with
      | error e => exact ⟨hc, fun h => by cases h⟩
      | ok fs₂ =>
        have hc₂ := writeText_changes
          (fun place => ∃ q, Relation.TransGen IsParent target q ∧ place = placeOf fs q) hw
        rw [placeOf_congr hc.working] at hc₂
        exact ⟨hc.trans hc₂, fun _ => writeText_holds hw⟩

def Written (c : Configuration) (fs : FileSystem) (os : List (Path × Output))
    (place : List String) : Prop :=
  ∃ o ∈ os, o.2.generated.isSome = true ∧ place = placeOf fs (outputPath o.1 c.outDir)

def Opened (c : Configuration) (fs : FileSystem) (os : List (Path × Output))
    (place : List String) : Prop :=
  ∃ o ∈ os, o.2.generated.isSome = true ∧
    ∃ q, Relation.TransGen IsParent (outputPath o.1 c.outDir) q ∧ place = placeOf fs q

lemma writeOutput_changes (c : Configuration) (s : FileSystem × RunResult) (o : Path × Output) :
    Changes (Written c s.1 [o]) (Opened c s.1 [o]) s.1 (c.writeOutput s o).1 := by
  rw [Configuration.writeOutput]
  cases hg : o.2.generated with
  | none => exact .refl ..
  | some text =>
    have hs : o.2.generated.isSome = true := by
      rw [hg]
      rfl
    have hw : Changes (Written c s.1 [o]) (Opened c s.1 [o]) s.1
        (s.1.writeGenerated (outputPath o.1 c.outDir) text).1 :=
      (writeGenerated_spec s.1 _ text).1.mono (fun _ hp => ⟨o, .head _, hs, hp⟩)
        fun _ hp => ⟨o, .head _, hs, hp⟩
    dsimp only
    split
    next h =>
      rw [h] at hw
      exact hw
    next h =>
      rw [h] at hw
      exact hw

theorem run_changes (c : Configuration) (os : List (Path × Output)) (s : FileSystem × RunResult) :
    Changes (Written c s.1 os) (Opened c s.1 os) s.1 (os.foldl c.writeOutput s).1 := by
  induction os generalizing s with
  | nil => exact .refl ..
  | cons o os ih =>
    have ho := writeOutput_changes c s o
    have hos := ih (c.writeOutput s o)
    refine (ho.mono ?_ ?_).trans (hos.mono ?_ ?_)
    · rintro place ⟨o', hm, h⟩
      exact ⟨o', List.mem_singleton.mp hm ▸ .head _, h⟩
    · rintro place ⟨o', hm, h⟩
      exact ⟨o', List.mem_singleton.mp hm ▸ .head _, h⟩
    · rintro place ⟨o', hm, hg, hp⟩
      exact ⟨o', .tail _ hm, hg, by rw [hp, placeOf_congr ho.working]⟩
    · rintro place ⟨o', hm, hg, q, hq, hp⟩
      exact ⟨o', .tail _ hm, hg, q, hq, by rw [hp, placeOf_congr ho.working]⟩

lemma writeOutput_failures (h : (c.writeOutput s o).2.failures = []) : s.2.failures = [] := by
  rw [Configuration.writeOutput] at h
  split at h
  · exact h
  · dsimp only at h
    split at h
    · exact h
    · simp at h

lemma run_failures (h : (os.foldl c.writeOutput s).2.failures = []) : s.2.failures = [] := by
  induction os generalizing s with
  | nil => exact h
  | cons o os ih => exact writeOutput_failures (ih h)

lemma writeOutput_holds (hg : o.2.generated = some text)
    (h : (c.writeOutput s o).2.failures = []) :
    Holds (c.writeOutput s o).1 (outputPath o.1 c.outDir) text := by
  rw [Configuration.writeOutput, hg] at h ⊢
  dsimp only at h ⊢
  split
  next hw =>
    have hs := (writeGenerated_spec s.1 (outputPath o.1 c.outDir) text).2
    rw [hw] at hs
    exact hs rfl
  next hw =>
    rw [hw] at h
    simp at h

lemma run_holds (before after : List (Path × Output)) (hg : o.2.generated = some text)
    (h : ((before ++ o :: after).foldl c.writeOutput s).2.failures = [])
    (hw : ¬ Written c s.1 after (placeOf s.1 (outputPath o.1 c.outDir))) :
    Holds ((before ++ o :: after).foldl c.writeOutput s).1 (outputPath o.1 c.outDir) text := by
  rw [List.foldl_append, List.foldl_cons] at h ⊢
  have hw' : (c.writeOutput (before.foldl c.writeOutput s) o).1.working = s.1.working :=
    (writeOutput_changes c _ o).working.trans (run_changes c before s).working
  refine (writeOutput_holds hg (run_failures h)).grows (run_changes c after _).grows ?_
  rintro ⟨o', hm, hg', he⟩
  rw [placeOf_congr hw', placeOf_congr hw'] at he
  exact hw ⟨o', hm, hg', he⟩

/-! ### Windows without content -/

lemma window_known : (Catalog.terminalGui.control? "Window").isSome = true := by
  rw [Catalog.terminalGui]
  have hr : ∃ l, Schema.readControlLine? Catalog.terminalGuiControls.head! = some l ∧
      l.name = "Window" := by
    rw [Catalog.terminalGuiControls, List.head!_cons, Schema.readControlLine?, Text.cutFirst,
      String.toList_ofList]
    exact ⟨_, rfl, rfl⟩
  obtain ⟨l, hr, hl⟩ := hr
  exact TerminalGui.control?_ofSchema (.head _) hr hl

def windowTokens (className : String) : List Markup.Token :=
  [⟨.tagStart "Window", ⟨0, 0, 0⟩, ⟨7, 0, 7⟩⟩, ⟨.attributeName "x:Class", ⟨8, 0, 8⟩, ⟨15, 0, 15⟩⟩,
    ⟨.attributeValue className, ⟨16, 0, 16⟩, ⟨19, 0, 19⟩⟩, ⟨.tagEndVoid, ⟨19, 0, 19⟩, ⟨21, 0, 21⟩⟩,
    ⟨.eof, ⟨21, 0, 21⟩, ⟨21, 0, 21⟩⟩]

def window (className path : String) : Document where
  root := ⟨{ index := 0, type := "Window",
             attributes := [⟨"x:Class", className, .reserved, ⟨⟨8, 0, 8⟩, ⟨19, 0, 19⟩⟩⟩],
             line := 1, column := 2, span := ⟨⟨0, 0, 0⟩, ⟨21, 0, 21⟩⟩ }, []⟩
  path
  className
  dataType := none

lemma read_window {catalog : Catalog} {source path className : String}
    (ht : Markup.tokenize source = ⟨windowTokens className, none⟩)
    (hs : Text.trim source ≠ "") (hc : Text.trimmed? className = some className) :
    Document.read catalog source path = .ok (window className path) := by
  have hx : Text.startsWith "x:" "x:Class" = true := by decide +kernel
  have hl : Markup.localName "Window" = "Window" := by decide +kernel
  have hr : Markup.Tree.read catalog source = ⟨some (window className path).root, none⟩ := by
    rw [Markup.Tree.read, ht]
    simp [Markup.Tree.build, windowTokens, Markup.Builder.next, Markup.Builder.contentToken,
      Markup.Builder.tagToken, Markup.Builder.attributeToken, Markup.Builder.makeTag,
      Markup.Builder.add, Markup.Builder.endFault?, window, AttributeKind.of, hx, hl]
  rw [Document.read, if_neg hs, hr]
  simp [Document.ofRoot, window, Tag.attribute?, hc]

lemma window_elements (className path : String) :
    (window className path).elements = [(window className path).root] := by
  simp [Document.elements, Element.descendants, Element.walk, window]

lemma window_valid {catalog : Catalog} (h : (catalog.control? "Window").isSome = true)
    (className path : String) :
    ((window className path).validate catalog).any (·.isError) = false := by
  obtain ⟨control, hc⟩ := Option.isSome_iff_exists.mp h
  rw [Document.validate, window_elements]
  cases hi : control.isContainer <;>
    simp [Validation.check, Validation.elementProblems, Validation.attributeProblems,
      Validation.structureProblems, window, hc, hi, Tag.explicitName?, Tag.attribute?,
      Diagnostic.of, Diagnostic.make, Diagnostic.isError, Problem.code, Code.severity]

def windowBase (catalog : Catalog) : String :=
  Fields.outputTypeOf catalog (window "" "").root.tag

lemma window_class (catalog : Catalog) (context : Option String) {className : String} (path : String)
    (hn : ClassFile.splitName className = (none, className)) :
    Generation.classOf catalog (window className path) context =
      ⟨none, className, windowBase catalog, [], [], none⟩ := by
  have ht : (window className path).tags = [(window className path).root.tag] := by
    rw [Document.tags, window_elements]
    rfl
  have hb : Generation.bound catalog (window className path) context = [] := by
    rw [Generation.bound, ht]
    rfl
  have hf : Fields.build catalog (window className path) =
      ⟨[Fields.slotOf catalog (window "" "").root.tag none]⟩ := by
    rw [Fields.build, ht]
    rfl
  have hp : Plan.documentPlan catalog (window className path) = [] := rfl
  rw [Generation.classOf, hb, hf, hp]
  change ClassFile.mk (ClassFile.splitName className).1 (ClassFile.splitName className).2 _ _ _ _ = _
  rw [hn]
  rfl

def emptyClass (className base : String) : String :=
  let line (text : String) : Line := ⟨text, 0⟩
  let inner (text : String) : Line := ⟨text, 1⟩
  "\n".intercalate <| List.map (Line.render 4) <|
    [line "// <auto-generated />", line "#nullable enable", line "", line "using System;",
      line "using System.ComponentModel;", line "using Terminal.Gui;",
      line "using Terminal.Gui.Views;", line "using Terminal.Gui.ViewBase;", line ""] ++
    line ("" ++ ("partial class " ++ className ++ " : " ++ base)) ::
    [line "\x7b", inner "", inner "private void InitializeComponent()", inner "\x7b", inner "\x7d",
      line "\x7d", line ""]

lemma intercalate_inj {x y : String} (before after : List String)
    (h : "\n".intercalate (before ++ x :: after) = "\n".intercalate (before ++ y :: after)) :
    x = y := by
  induction before with
  | nil =>
    by_cases ha : after = []
    · subst ha
      simpa using h
    · rw [List.nil_append, List.nil_append, String.intercalate_cons_of_ne_nil ha,
        String.intercalate_cons_of_ne_nil ha, String.append_assoc, String.append_assoc] at h
      exact String.append_left_inj _ |>.mp h
  | cons s before ih =>
    rw [List.cons_append, List.cons_append, String.intercalate_cons_of_ne_nil (by simp),
      String.intercalate_cons_of_ne_nil (by simp)] at h
    exact ih (String.append_right_inj _ |>.mp h)

lemma emptyClass_inj {n n' base : String} (h : emptyClass n base = emptyClass n' base) : n = n' := by
  rw [emptyClass, emptyClass] at h
  dsimp only at h
  rw [List.map_append, List.map_append, List.map_cons, List.map_cons] at h
  have hl := intercalate_inj _ _ h
  have hn : ∀ x : String, "" ++ ("partial class " ++ x ++ " : " ++ base) ≠ "" := by
    intro x hx
    simp at hx
  rw [Line.render, Line.render, if_neg (hn n), if_neg (hn n')] at hl
  simpa [String.append_assoc, String.append_left_inj, String.append_right_inj] using hl

lemma compile_window {catalog : Catalog} {source className : String}
    (hw : (catalog.control? "Window").isSome = true)
    (ht : Markup.tokenize source = ⟨windowTokens className, none⟩) (hs : Text.trim source ≠ "")
    (hc : Text.trimmed? className = some className)
    (hn : ClassFile.splitName className = (none, className)) (resolver : TypeResolver)
    (path : String) :
    (compile catalog resolver {} source path).generated =
      some (emptyClass className (windowBase catalog)) := by
  rw [Policy.compile_ok (read_window ht hs hc)]
  change (if ((window className path).validate catalog).any _ then _ else _ : Output).generated = _
  rw [window_valid hw, if_neg Bool.false_ne_true, Document.emit, ClassText.generate_eq,
    window_class _ _ _ hn]
  rfl

/-! ### Documents -/

lemma file_of_readText (h : fs.readText p = .ok text) :
    ∃ t content, fs.resolve p = .ok t ∧ fs.reached t = .file content := by
  obtain ⟨t, ht, h⟩ := ok_of_bind h
  cases hr : fs.reached t with
  | file content => exact ⟨t, content, ht, hr⟩
  | directory es =>
    rw [hr] at h
    cases h

def Succeeds (c : Configuration) (fs : FileSystem) (input : Path) : Prop :=
  (c.compileFile fs input).generated.isSome = true

lemma Succeeds.file (h : Succeeds c fs input) :
    ∃ t name, fs.resolve input = .ok t ∧ input.fileName? = some name := by
  rw [Succeeds, Configuration.compileFile] at h
  split at h
  next hr =>
    obtain ⟨t, content, ht, hf⟩ := file_of_readText hr
    obtain ⟨name, hn⟩ := fileName?_of_file ht hf
    exact ⟨t, name, ht, hn⟩
  · cases h

/-- The documents have the same name, and their code goes to one directory. -/
def Collide (c : Configuration) (input other : Path) : Prop :=
  c.outDir.isSome = true ∧ input.fileName? = other.fileName?

lemma target_ne (ha : Apart fs input other) (hi : Succeeds c fs input) (ho : Succeeds c fs other)
    (hc : ¬ Collide c input other) :
    placeOf fs (outputPath input c.outDir) ≠ placeOf fs (outputPath other c.outDir) := by
  intro he
  obtain ⟨t, a, ht, hin⟩ := hi.file
  obtain ⟨u, b, hu, hon⟩ := ho.file
  obtain ⟨hab, hp⟩ := placeOf_outputPath_inj hin hon he
  cases hO : c.outDir with
  | none =>
    refine ha t u ht hu ?_
    rw [(resolve_spec ht).2, (resolve_spec hu).2, hp hO]
  | some d => exact hc ⟨by rw [hO]; rfl, by rw [hin, hon, hab]⟩

/-- After a run without failures, the code of a document is in its target unless code of a namesake
went there later, and targets of other documents are apart. -/
theorem generated_kept (hc : c.inputs.Pairwise (Apart fs)) (hp : c.perform fs false = (fs', r))
    (hr : r.failures = []) :
    (∀ before input after text, c.inputs = before ++ input :: after →
      (c.compileFile fs input).generated = some text →
      (∀ other ∈ after, Succeeds c fs other → ¬ Collide c input other) →
      fs'.readText (outputPath input c.outDir) = .ok text) ∧
    c.inputs.Pairwise fun input other =>
      Succeeds c fs input → Succeeds c fs other → ¬ Collide c input other →
      Apart fs' (outputPath input c.outDir) (outputPath other c.outDir) := by
  rw [Configuration.perform, if_neg Bool.false_ne_true] at hp
  constructor
  · intro before input after text hi hg hn
    rw [hi] at hc
    rw [BatchAlignment.compileFiles_eq, hi, List.map_append, List.map_cons] at hp
    -- only what is written later could take the place of the text
    have hh := run_holds (s := (fs, _)) (before.map _) (after.map _) hg (by rw [hp]; exact hr) ?_
    · rw [hp] at hh
      exact hh.readText
    · rintro ⟨o, hm, ho, he⟩
      obtain ⟨other, hmo, rfl⟩ := List.mem_map.mp hm
      have ha := (List.pairwise_cons.mp (List.pairwise_append.mp hc).2.1).1 other hmo
      have hs : Succeeds c fs input := by
        rw [Succeeds, hg]
        rfl
      exact target_ne ha hs ho (hn other hmo ho) he
  · refine hc.imp fun {input other} ha hi ho hn => apart_of_placeOf_ne ?_
    have hw : fs'.working = fs.working := by
      have hs := congrArg (·.1.working) hp
      exact hs.symm.trans (run_changes c ..).working
    rw [placeOf_congr hw, placeOf_congr hw]
    exact target_ne ha hi ho hn

/-! ### Namesakes -/

lemma writeGenerated_top {es : List (String × Node)} (hs : fs.start p = .ok [])
    (hp : p.segments = [name]) (ha : (p.parent?.getD ⟨""⟩).ancestors = [])
    (hr : fs.root = .directory es) (hl : FileSystem.isTooLong name = false)
    (hn : Proper name) (he : (es.lookup name).any (·.isDirectory) = false) :
    fs.writeGenerated p text = (fs.put [name] (.file text.toUTF8), .ok ()) := by
  have hspot : fs.spot p = .ok ⟨[], name, es.lookup name⟩ := by
    have hd : fs.reached [] = .directory es := hr
    rw [FileSystem.spot, hs, hp]
    simp only [bind, Except.bind, List.dropLast_singleton, List.foldlM_nil, pure, Except.pure, hd]
    exact if_neg (by simp [hl])
  have hw : fs.writeText p text = .ok (fs.put [name] (.file text.toUTF8)) := by
    rw [FileSystem.writeText, hspot]
    exact if_pos (by simp [FileSystem.Spot.isName, hn.1, hn.2.1, hn.2.2, he])
  unfold FileSystem.writeGenerated
  dsimp only
  rw [ha, FileSystem.makeDirectories]
  dsimp only
  rw [hw]

def desk : FileSystem where
  root := .directory
    [("M", .file "<Window x:Class='A'/>".toUTF8),
      ("N", .file "<Window x:Class='B'/>".toUTF8),
      ("sub", .directory [("M", .file "<Window x:Class='B'/>".toUTF8)])]
  working := []

def compiling (inputs : List Path) : Configuration where
  project := none
  inputs
  options := {}
  outDir := some ⟨"/"⟩
  types := {}

lemma compiling_generated {source className : String} (h : Holds fs input source)
    (ht : Markup.tokenize source = ⟨windowTokens className, none⟩) (hs : Text.trim source ≠ "")
    (hc : Text.trimmed? className = some className)
    (hn : ClassFile.splitName className = (none, className)) (inputs : List Path) :
    ((compiling inputs).compileFile fs input).generated =
      some (emptyClass className (windowBase .terminalGui)) := by
  rw [Configuration.compileFile, h.readText]
  exact compile_window window_known ht hs hc hn _ _

lemma desk_generated (inputs : List Path) :
    ((compiling inputs).compileFile desk ⟨"M"⟩).generated =
      some (emptyClass "A" (windowBase .terminalGui)) ∧
    ((compiling inputs).compileFile desk ⟨"N"⟩).generated =
      some (emptyClass "B" (windowBase .terminalGui)) ∧
    ((compiling inputs).compileFile desk ⟨"sub/M"⟩).generated =
      some (emptyClass "B" (windowBase .terminalGui)) := by
  refine ⟨compiling_generated ⟨_, rfl, rfl⟩ ?_ ?_ ?_ ?_ inputs,
    compiling_generated ⟨_, rfl, rfl⟩ ?_ ?_ ?_ ?_ inputs,
    compiling_generated ⟨_, rfl, rfl⟩ ?_ ?_ ?_ ?_ inputs⟩ <;> decide +kernel

lemma writeOutput_ok (hg : o.2.generated = some text)
    (hw : fs.writeGenerated (outputPath o.1 c.outDir) text = (fs', .ok ())) :
    c.writeOutput (fs, r) o =
      (fs', { r with written := r.written ++ [outputPath o.1 c.outDir] }) := by
  rw [Configuration.writeOutput, hg]
  dsimp only
  rw [hw]

lemma write_top {es : List (String × Node)} (hm : name = "M.g.cs" ∨ name = "N.g.cs")
    (hr : fs.root = .directory es) (he : (es.lookup name).any (·.isDirectory) = false)
    (text : String) :
    fs.writeGenerated ⟨"/" ++ name⟩ text = (fs.put [name] (.file text.toUTF8), .ok ()) := by
  rcases hm with rfl | rfl
  · exact writeGenerated_top rfl (by decide +kernel) (by decide +kernel) hr (by decide +kernel)
      (by decide +kernel) he
  · exact writeGenerated_top rfl (by decide +kernel) (by decide +kernel) hr (by decide +kernel)
      (by decide +kernel) he

lemma desk_run (o₁ o₂ : Path × Output) {text₁ text₂ : String} (hc : c.outDir = some ⟨"/"⟩)
    (hg₁ : o₁.2.generated = some text₁) (hg₂ : o₂.2.generated = some text₂)
    (ht₁ : outputPath o₁.1 (some ⟨"/"⟩) = ⟨"/" ++ "M.g.cs"⟩)
    (ht₂ : outputPath o₂.1 (some ⟨"/"⟩) = ⟨"/" ++ name⟩) (hm : name = "M.g.cs" ∨ name = "N.g.cs") :
    ([o₁, o₂].foldl c.writeOutput (desk, r)).2.failures = r.failures := by
  have hw₁ : desk.writeGenerated (outputPath o₁.1 c.outDir) text₁ =
      (desk.put ["M.g.cs"] (.file text₁.toUTF8), .ok ()) := by
    rw [hc, ht₁]
    exact write_top (.inl rfl) rfl rfl text₁
  have hw₂ : (desk.put ["M.g.cs"] (.file text₁.toUTF8)).writeGenerated (outputPath o₂.1 c.outDir)
      text₂ = ((desk.put ["M.g.cs"] (.file text₁.toUTF8)).put [name] (.file text₂.toUTF8), .ok ()) := by
    rw [hc, ht₂]
    refine write_top hm rfl ?_ text₂
    rcases hm with rfl | rfl
    · rw [lookup_putEntry_self]
      rfl
    · rw [lookup_putEntry_ne (by decide)]
      rfl
  rw [List.foldl_cons, writeOutput_ok hg₁ hw₁, List.foldl_cons, writeOutput_ok hg₂ hw₂]
  rfl

lemma desk_failures {second : Path}
    (hg : ((compiling [⟨"M"⟩, second]).compileFile desk second).generated = some text)
    (ht : outputPath second (some ⟨"/"⟩) = ⟨"/" ++ name⟩)
    (hm : name = "M.g.cs" ∨ name = "N.g.cs") :
    ((compiling [⟨"M"⟩, second]).perform desk false).2.failures = [] := by
  have ht₁ : outputPath ⟨"M"⟩ (some ⟨"/"⟩) = ⟨"/" ++ "M.g.cs"⟩ := by decide +kernel
  have hf : (compiling [⟨"M"⟩, second]).compileFiles desk =
      [(⟨"M"⟩, (compiling [⟨"M"⟩, second]).compileFile desk ⟨"M"⟩),
        (second, (compiling [⟨"M"⟩, second]).compileFile desk second)] := by
    rw [BatchAlignment.compileFiles_eq]
    simp only [compiling, List.map_cons, List.map_nil]
  rw [Configuration.perform, if_neg Bool.false_ne_true, hf]
  exact desk_run (⟨"M"⟩, _) (second, _) rfl (desk_generated _).1 hg ht₁ ht hm

theorem generated_kept_desk :
    ((compiling [⟨"M"⟩, ⟨"N"⟩]).perform desk false).1.readText ⟨"/M.g.cs"⟩ =
      .ok (emptyClass "A" (windowBase .terminalGui)) := by
  have hd := desk_generated [⟨"M"⟩, ⟨"N"⟩]
  have ha : (compiling [⟨"M"⟩, ⟨"N"⟩]).inputs.Pairwise (Apart desk) := by
    simpa [compiling] using apart_of_placeOf_ne (by decide +kernel)
  have hk := generated_kept ha (Prod.eta _).symm (desk_failures hd.2.1 (by decide +kernel) (.inr rfl))
  have ht : outputPath ⟨"M"⟩ (some ⟨"/"⟩) = ⟨"/M.g.cs"⟩ := by decide +kernel
  rw [← ht]
  refine hk.1 [] ⟨"M"⟩ [⟨"N"⟩] _ rfl hd.1 ?_
  intro other hm _ hc
  cases List.mem_singleton.mp hm
  exact absurd hc.2 (by decide +kernel)

/-- Of two documents with one name the first is lost. -/
theorem namesake_lost :
    ¬ ∀ (c : Configuration) (fs fs' : FileSystem) (r : RunResult),
      c.inputs.Pairwise (Apart fs) → c.perform fs false = (fs', r) → r.failures = [] →
      ∀ input ∈ c.inputs, ∀ text, (c.compileFile fs input).generated = some text →
        fs'.readText (outputPath input c.outDir) = .ok text := by
  intro h
  have hd := desk_generated [⟨"M"⟩, ⟨"sub/M"⟩]
  have ha : (compiling [⟨"M"⟩, ⟨"sub/M"⟩]).inputs.Pairwise (Apart desk) := by
    simpa [compiling] using apart_of_placeOf_ne (by decide +kernel)
  have hk := h _ desk _ _ ha (Prod.eta _).symm (desk_failures hd.2.2 (by decide +kernel) (.inl rfl))
  have hfirst := hk ⟨"M"⟩ (.head _) _ hd.1
  have hsecond := hk ⟨"sub/M"⟩ (.tail _ (.head _)) _ hd.2.2
  have ht : outputPath ⟨"sub/M"⟩ (some ⟨"/"⟩) = outputPath ⟨"M"⟩ (some ⟨"/"⟩) := by decide +kernel
  change FileSystem.readText _ (outputPath ⟨"sub/M"⟩ (some ⟨"/"⟩)) = _ at hsecond
  rw [ht] at hsecond
  have hc := emptyClass_inj (Except.ok.inj (hfirst.symm.trans hsecond))
  exact absurd hc (by decide)

end TuiMarkup.Proofs.Targets
