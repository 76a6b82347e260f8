import Mathlib.Tactic.Lemma
import TuiMarkup.Proofs.RunAccount
import TuiMarkup.Proofs.Targets

/-!
A run that only checks says what a full run says, and a full run changes nothing but targets and the
directories above them. The file systems here have no links, through which a target could be elsewhere,
and their names are Unicode texts. The log is not part of what is said.
-/

namespace TuiMarkup.Proofs.CheckRun

open Places RunAccount Targets

variable {fs : FileSystem} {a : Arguments} {c : Configuration}

lemma execute_eq (h : (Command.request a).configure fs = .ok c) (check : Bool) :
    Command.execute fs { a with check } =
      { exitCode := (c.perform fs check).2.exitCode
        out := (Command.channels a.format (c.perform fs check).2.diagnostics).1
        err := (Command.channels a.format (c.perform fs check).2.diagnostics).2 ++
          (c.perform fs check).2.failures.map Command.failureLine
        files := (c.perform fs check).1 } := by
  have hr : (Command.request { a with check }).configure fs = .ok c := h
  rw [Command.execute, hr]

lemma execute_error {e : ConfigurationError} (h : (Command.request a).configure fs = .error e)
    (check : Bool) :
    Command.execute fs { a with check } =
      { exitCode := 2, err := ["error: " ++ e.message], files := fs } := by
  have hr : (Command.request { a with check }).configure fs = .error e := h
  rw [Command.execute, hr]

lemma perform_check (c : Configuration) (fs : FileSystem) :
    (c.perform fs true).2.failures = [] ∧
      (c.perform fs true).2.diagnostics = (c.perform fs false).2.diagnostics := by
  rw [perform_result, perform_result]
  exact ⟨rfl, rfl⟩

lemma exitCode_full (c : Configuration) (fs : FileSystem) :
    (c.perform fs false).2.exitCode =
      if (c.perform fs false).2.failures = [] then (c.perform fs true).2.exitCode else 2 := by
  obtain ⟨hf, hd⟩ := perform_check c fs
  by_cases h : (c.perform fs false).2.failures = []
  · rw [if_pos h, RunResult.exitCode, RunResult.exitCode, h, hf, hd]
  · rw [if_neg h]
    exact (exitCode_eq_two_iff _).mpr h

lemma perform_changes (c : Configuration) (fs : FileSystem) :
    Changes (Written c fs (c.compileFiles fs)) (Opened c fs (c.compileFiles fs)) fs
      (c.perform fs false).1 := by
  rw [Configuration.perform, if_neg Bool.false_ne_true]
  exact run_changes c (c.compileFiles fs) (fs, _)

def attemptsOf (fs : FileSystem) (a : Arguments) : List Attempt :=
  match (Command.request a).configure fs with
  | .error _ => []
  | .ok c => attempts c fs (c.compileFiles fs)

/-- A run that only checks leaves all files as they are. A full run says the same on both channels,
then what it could not write, and only for that has another exit code. It changes nothing but the
targets of documents with code and the directories above these that were missing. -/
theorem check_leaves_out_writes (a : Arguments) (fs : FileSystem) :
    let checked := Command.execute fs { a with check := true }
    let full := Command.execute fs { a with check := false }
    let failures := failed (attemptsOf fs a)
    checked.files = fs ∧ full.out = checked.out ∧
    full.err = checked.err ++ failures.map Command.failureLine ∧
    full.exitCode = (if failures = [] then checked.exitCode else 2) ∧
    Changes
      (fun place => ∃ c, (Command.request a).configure fs = .ok c ∧
        Written c fs (c.compileFiles fs) place)
      (fun place => ∃ c, (Command.request a).configure fs = .ok c ∧
        Opened c fs (c.compileFiles fs) place)
      fs full.files := by
  dsimp only
  cases h : (Command.request a).configure fs with
  | error e =>
    have hf : failed (attemptsOf fs a) = [] := by
      rw [attemptsOf, h]
      rfl
    rw [execute_error h, execute_error h, hf]
    exact ⟨rfl, rfl, rfl, rfl, .refl ..⟩
  | ok c =>
    obtain ⟨ht, hd⟩ := perform_check c fs
    have hf : failed (attemptsOf fs a) = (c.perform fs false).2.failures := by
      rw [attemptsOf, h, perform_result]
      rfl
    rw [execute_eq h, execute_eq h, hf, ht, hd]
    refine ⟨rfl, rfl, ?_, exitCode_full c fs, ?_⟩
    · rw [List.map_nil, List.append_nil]
    · exact (perform_changes c fs).mono (fun _ hp => ⟨c, rfl, hp⟩) fun _ hp => ⟨c, rfl, hp⟩

end TuiMarkup.Proofs.CheckRun
