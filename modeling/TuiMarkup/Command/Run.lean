import TuiMarkup.Catalog.TerminalGui
import TuiMarkup.Command.Arguments
import TuiMarkup.Command.Batch
import TuiMarkup.Command.Configuration
import TuiMarkup.Version

/-!
A run of the command: documents are read and compiled, code is written beside them or into a
directory of its own, and what is to be said is shown.

The log, which goes to the standard error stream line by line as its level asks, is left out: nothing
that a run does depends on it.
-/

namespace TuiMarkup

def generatedSuffix : String := ".g.cs"

def outputPath (input : Path) (outDir : Option Path) : Path :=
  let directory := (outDir.orElse fun _ => input.parent?).getD ⟨"."⟩
  directory.join (input.fileName?.getD "" ++ generatedSuffix)

inductive WriteError where
  | directory (path : Path) (e : FileError)
  | file (path : Path) (e : FileError)
deriving DecidableEq, Repr

def WriteError.message : WriteError → String
  | directory path e => "failed to create " ++ path.text ++ ": " ++ e.message
  | file path e => "failed to write " ++ path.text ++ ": " ++ e.message

def FileSystem.writeGenerated (fs : FileSystem) (target : Path) (text : String) :
    FileSystem × Except WriteError Unit :=
  let directory := target.parent?.getD ⟨""⟩
  match fs.makeDirectories directory.ancestors with
  | (fs, .error e) => (fs, .error (.directory directory e))
  | (fs, .ok ()) =>
    match fs.writeText target text with
    | .ok fs => (fs, .ok ())
    | .error e => (fs, .error (.file target e))

structure RunResult where
  diagnostics : List Diagnostic := []
  written : List Path := []
  failures : List (Path × WriteError) := []
  documents : Nat := 0
deriving DecidableEq, Repr

namespace Configuration

def compileFile (fs : FileSystem) (c : Configuration) (input : Path) : Output :=
  match fs.readText input with
  | .ok text => compile .terminalGui c.types.propertyOfType? c.options text input.text
  | .error e => unreadable input e

def compileFiles (fs : FileSystem) (c : Configuration) : List (Path × Output) :=
  fs.compileFiles .terminalGui c.types.propertyOfType? c.options c.inputs

def writeOutput (c : Configuration) (s : FileSystem × RunResult) (o : Path × Output) :
    FileSystem × RunResult :=
  match o.2.generated with
  | none => s
  | some text =>
    let target := outputPath o.1 c.outDir
    match s.1.writeGenerated target text with
    | (fs, .ok ()) => (fs, { s.2 with written := s.2.written ++ [target] })
    | (fs, .error e) => (fs, { s.2 with failures := s.2.failures ++ [(target, e)] })

/-- Compiles all documents. All are read before code is written, which is left out if the run only
checks. -/
def perform (fs : FileSystem) (c : Configuration) (check : Bool) : FileSystem × RunResult :=
  let outputs := c.compileFiles fs
  let result : RunResult :=
    { diagnostics := outputs.flatMap (·.2.diagnostics), documents := outputs.length }
  if check then (fs, result) else outputs.foldl c.writeOutput (fs, result)

end Configuration

def RunResult.exitCode (r : RunResult) : Nat :=
  if !r.failures.isEmpty then 2 else if r.diagnostics.any (·.isError) then 1 else 0

/-- What a run leaves behind: its exit code, what it says on the two channels, and the files. The lines
of its log are not among what it says. -/
structure Outcome where
  exitCode : Nat
  out : List String := []
  err : List String := []
  files : FileSystem

namespace Command

def name : String := "tuixc"

def help : String :=
  "Compiles Terminal.Gui markup documents into C# partial classes

Usage: tuixc [OPTIONS] [PATH]...

Arguments:
  [PATH]...  Markup files or directories to compile

Options:
  -p, --project <FILE>      Path to tuixaml.json
  -o, --out-dir <DIR>       Directory for generated files
      --warnings-as-errors  Suppress output for documents with warnings
      --format <format>     Diagnostic output format [default: text] [possible values: text, json]
      --check               Report diagnostics without writing files
  -v, --verbose             Log compilation progress
  -h, --help                Print help
  -V, --version             Print version"

def explain (fs : FileSystem) (u : Usage) : Outcome :=
  match u with
  | .displayHelp => { exitCode := u.exitCode, out := [help], files := fs }
  | .displayVersion => { exitCode := u.exitCode, out := [name ++ " " ++ Version.command], files := fs }
  | _ => { exitCode := u.exitCode, err := ["usage: " ++ u.name], files := fs }

def request (a : Arguments) : Request where
  paths := a.paths
  project := a.project
  outDir := a.outDir
  warningsAsErrors := a.warningsAsErrors

/-- Diagnostics as JSON go to the output, also if there are none; as text they go with the errors. -/
def channels (format : ReportFormat) (ds : List Diagnostic) : List String × List String :=
  match format with
  | .json => ([Diagnostic.report ds .json], [])
  | .text => ([], if ds.isEmpty then [] else [Diagnostic.report ds .text])

def failureLine (f : Path × WriteError) : String :=
  "error: could not write " ++ f.1.text ++ ": " ++ f.2.message

def execute (fs : FileSystem) (a : Arguments) : Outcome :=
  match (request a).configure fs with
  | .error e => { exitCode := 2, err := ["error: " ++ e.message], files := fs }
  | .ok c =>
    let (files, result) := c.perform fs a.check
    let (out, err) := channels a.format result.diagnostics
    { exitCode := result.exitCode, out, err := err ++ result.failures.map failureLine, files }

def run (fs : FileSystem) (args : List String) : Outcome :=
  match Arguments.read args with
  | .error u => explain fs u
  | .ok a => execute fs a

end Command

end TuiMarkup
