import Mathlib.Data.List.Basic
import Mathlib.Tactic.Lemma
import TuiMarkup.Command.Run
import TuiMarkup.Proofs.BatchAlignment
import TuiMarkup.Proofs.Policy

/-! What a run accounts for: each document, what was found in it, and what came of writing its code.
-/

namespace TuiMarkup.Proofs.RunAccount

open BatchAlignment

variable {fs : FileSystem} {c : Configuration} {input : Path}

/-! ### Attempts to write -/

abbrev Attempt := Path × Except WriteError Unit

def targets (c : Configuration) (os : List (Path × Output)) : List Path :=
  (os.filter (·.2.generated.isSome)).map fun o => outputPath o.1 c.outDir

/-- The attempts to write code, each on the files that the one before has left. -/
def attempts (c : Configuration) (fs : FileSystem) : List (Path × Output) → List Attempt
  | [] => []
  | o :: os =>
    match o.2.generated with
    | none => attempts c fs os
    | some text =>
      let after := fs.writeGenerated (outputPath o.1 c.outDir) text
      (outputPath o.1 c.outDir, after.2) :: attempts c after.1 os

def succeeded (as : List Attempt) : List Path :=
  (as.filter (·.2.isOk)).map (·.1)

def failed (as : List Attempt) : List (Path × WriteError) :=
  as.filterMap fun
    | (_, .ok _) => none
    | (target, .error e) => some (target, e)

lemma attempts_targets (c : Configuration) (fs : FileSystem) (os : List (Path × Output)) :
    (attempts c fs os).map (·.1) = targets c os := by
  induction os generalizing fs with
  | nil => rfl
  | cons o os ih =>
    rw [attempts, targets]
    cases hg : o.2.generated with
    | none =>
      rw [List.filter_cons_of_neg (by simp [hg])]
      exact ih fs
    | some text =>
      rw [List.filter_cons_of_pos (by simp [hg]), List.map_cons, List.map_cons, ih, targets]

lemma failed_targets (as : List Attempt) :
    (failed as).map (·.1) = (as.filter fun a => !a.2.isOk).map (·.1) := by
  induction as with
  | nil => rfl
  | cons a as ih =>
    obtain ⟨target, x⟩ := a
    cases x with
    | ok _ => exact ih
    | error e => exact congrArg (target :: ·) ih

lemma failed_ne_nil_iff (as : List Attempt) :
    failed as ≠ [] ↔ ∃ target e, (target, .error e) ∈ as := by
  constructor
  · intro h
    obtain ⟨f, hf⟩ := List.exists_mem_of_ne_nil _ h
    obtain ⟨⟨target, x⟩, ha, hx⟩ := List.mem_filterMap.mp hf
    cases x with
    | ok _ => cases hx
    | error e => exact ⟨target, e, ha⟩
  · rintro ⟨target, e, ha⟩
    exact List.ne_nil_of_mem (List.mem_filterMap.mpr ⟨_, ha, rfl⟩)

lemma succeeded_sublist (as : List Attempt) : (succeeded as).Sublist (as.map (·.1)) :=
  List.filter_sublist.map _

lemma failed_sublist (as : List Attempt) : ((failed as).map (·.1)).Sublist (as.map (·.1)) := by
  rw [failed_targets]
  exact List.filter_sublist.map _

lemma succeeded_append_failed (as : List Attempt) :
    (succeeded as ++ (failed as).map (·.1)).Perm (as.map (·.1)) := by
  rw [failed_targets, succeeded, ← List.map_append]
  exact (List.filter_append_perm _ as).map _

lemma failed_eq_nil_iff (as : List Attempt) : failed as = [] ↔ succeeded as = as.map (·.1) := by
  have hl := (succeeded_append_failed as).length_eq
  rw [List.length_append, List.length_map] at hl
  constructor
  · intro h
    apply (succeeded_sublist as).eq_of_length
    rw [h] at hl
    exact hl
  · intro h
    rw [h] at hl
    apply List.eq_nil_of_length_eq_zero
    omega

/-! ### Results -/

lemma run_result (c : Configuration) (os : List (Path × Output)) (fs : FileSystem)
    (r : RunResult) :
    (os.foldl c.writeOutput (fs, r)).2 =
      { r with
        written := r.written ++ succeeded (attempts c fs os)
        failures := r.failures ++ failed (attempts c fs os) } := by
  induction os generalizing fs r with
  | nil => simp [attempts, succeeded, failed]
  | cons o os ih =>
    rw [List.foldl_cons, Configuration.writeOutput, attempts]
    cases hg : o.2.generated with
    | none => exact ih fs r
    | some text =>
      dsimp only
      cases hw : fs.writeGenerated (outputPath o.1 c.outDir) text with
      | mk fs' x =>
        cases x with
        | ok _ => simp [ih, succeeded, failed, Except.isOk, Except.toBool]
        | error e => simp [ih, succeeded, failed, Except.isOk, Except.toBool]

lemma perform_result (c : Configuration) (fs : FileSystem) (check : Bool) :
    (c.perform fs check).2 =
      { diagnostics := c.inputs.flatMap fun input => (c.compileFile fs input).diagnostics
        documents := c.inputs.length
        written := if check then [] else succeeded (attempts c fs (c.compileFiles fs))
        failures := if check then [] else failed (attempts c fs (c.compileFiles fs)) } := by
  have hd : (c.compileFiles fs).flatMap (·.2.diagnostics) =
      c.inputs.flatMap fun input => (c.compileFile fs input).diagnostics := by
    rw [compileFiles_eq, List.flatMap_map]
  have hl : (c.compileFiles fs).length = c.inputs.length := by
    rw [compileFiles_eq, List.length_map]
  rw [Configuration.perform]
  cases check with
  | true => simp [hd, hl]
  | false => simp [run_result, hd, hl]

lemma compileFile_generated_iff (c : Configuration) (fs : FileSystem) (input : Path) :
    (c.compileFile fs input).generated.isSome = true ↔
      (c.compileFile fs input).hasErrors = false := by
  rw [Configuration.compileFile]
  split
  · exact Policy.generated_iff ..
  · simp [unreadable, Output.hasErrors, Diagnostic.of, Diagnostic.make, Diagnostic.isError,
      Problem.code, Code.severity]

lemma readable_of_generated (h : (c.compileFile fs input).generated.isSome = true) :
    ∃ text, fs.readText input = .ok text := by
  rw [Configuration.compileFile] at h
  split at h
  next text hr => exact ⟨text, hr⟩
  · cases h

lemma no_errors_iff (c : Configuration) (fs : FileSystem) :
    (c.inputs.flatMap fun input => (c.compileFile fs input).diagnostics).any (·.isError) = false ↔
      ∀ input ∈ c.inputs, (c.compileFile fs input).generated.isSome = true := by
  simp only [compileFile_generated_iff, Output.hasErrors, List.any_flatMap, List.any_eq_false,
    Bool.not_eq_true]

lemma targets_eq_map (h : ∀ input ∈ c.inputs, (c.compileFile fs input).generated.isSome = true) :
    targets c (c.compileFiles fs) = c.inputs.map (outputPath · c.outDir) := by
  have hf : (c.compileFiles fs).filter (·.2.generated.isSome) = c.compileFiles fs := by
    rw [List.filter_eq_self]
    intro o ho
    rw [compileFiles_eq] at ho
    obtain ⟨input, hi, rfl⟩ := List.mem_map.mp ho
    exact h input hi
  rw [targets, hf, compileFiles_eq, List.map_map, Function.comp_def]

lemma written_all_iff (h : ∀ input ∈ c.inputs, (c.compileFile fs input).generated.isSome = true) :
    succeeded (attempts c fs (c.compileFiles fs)) = c.inputs.map (outputPath · c.outDir) ↔
      failed (attempts c fs (c.compileFiles fs)) = [] := by
  rw [failed_eq_nil_iff, attempts_targets, targets_eq_map h]

/-! ### Exit codes -/

lemma exitCode_eq_two_iff (r : RunResult) : r.exitCode = 2 ↔ r.failures ≠ [] := by
  rw [RunResult.exitCode]
  cases r.failures <;> cases r.diagnostics.any (·.isError) <;> simp

lemma exitCode_eq_zero_iff (r : RunResult) :
    r.exitCode = 0 ↔ r.failures = [] ∧ r.diagnostics.any (·.isError) = false := by
  rw [RunResult.exitCode]
  cases r.failures <;> cases r.diagnostics.any (·.isError) <;> simp

lemma exitCode_cases (r : RunResult) : r.exitCode = 0 ∨ r.exitCode = 1 ∨ r.exitCode = 2 := by
  rw [RunResult.exitCode]
  cases r.failures <;> cases r.diagnostics.any (·.isError) <;> simp

/-- A run counts every document and reports what was found in each, in their order. Unless it only
checks, it lists the target of each document with code once, as written or as failed. Its exit code
tells whether writing failed, and whether all documents were compiled and their code written. -/
theorem run_account (c : Configuration) (fs : FileSystem) (check : Bool) :
    let r := (c.perform fs check).2
    let tried := attempts c fs (c.compileFiles fs)
    r.documents = c.inputs.length ∧
    r.diagnostics = c.inputs.flatMap (fun input => (c.compileFile fs input).diagnostics) ∧
    (check = true → r.written = [] ∧ r.failures = []) ∧
    (check = false →
      r.written = succeeded tried ∧ r.failures = failed tried ∧
      r.written.Sublist (targets c (c.compileFiles fs)) ∧
      (r.failures.map (·.1)).Sublist (targets c (c.compileFiles fs)) ∧
      (r.written ++ r.failures.map (·.1)).Perm (targets c (c.compileFiles fs))) ∧
    (r.exitCode = 2 ↔ check = false ∧ ∃ target e, (target, .error e) ∈ tried) ∧
    (r.exitCode = 0 ↔
      (∀ input ∈ c.inputs, (∃ text, fs.readText input = .ok text) ∧
        (c.compileFile fs input).generated.isSome = true) ∧
      (check = false → r.written = c.inputs.map (outputPath · c.outDir))) ∧
    (r.exitCode ≠ 2 → r.exitCode ≠ 0 → r.exitCode = 1) := by
  intro r tried
  have hr : r = _ := perform_result c fs check
  have ht : tried.map (·.1) = targets c (c.compileFiles fs) := attempts_targets ..
  refine ⟨by rw [hr], by rw [hr], ?_, ?_, ?_, ?_, ?_⟩
  · rintro rfl
    rw [hr]
    exact ⟨rfl, rfl⟩
  · rintro rfl
    rw [hr, ← ht]
    exact ⟨rfl, rfl, succeeded_sublist tried, failed_sublist tried, succeeded_append_failed tried⟩
  · rw [exitCode_eq_two_iff, hr]
    cases check with
    | true => simp
    | false => simpa using failed_ne_nil_iff tried
  · rw [exitCode_eq_zero_iff, hr, no_errors_iff]
    constructor
    · rintro ⟨hf, hg⟩
      refine ⟨fun input hi => ⟨readable_of_generated (hg input hi), hg input hi⟩, ?_⟩
      rintro rfl
      exact (written_all_iff hg).mpr hf
    · rintro ⟨hi, hw⟩
      have hg := fun input hm => (hi input hm).2
      refine ⟨?_, hg⟩
      cases check with
      | true => rfl
      | false => exact (written_all_iff hg).mp (hw rfl)
  · intro h2 h0
    exact ((exitCode_cases r).resolve_left h0).resolve_right h2

end TuiMarkup.Proofs.RunAccount
