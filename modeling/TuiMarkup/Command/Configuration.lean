import TuiMarkup.Files.Glob
import TuiMarkup.Project

/-!
What a run compiles and how, from the command line and the project file.
-/

namespace TuiMarkup

structure Request where
  paths : List Path := []
  project : Option Path := none
  outDir : Option Path := none
  warningsAsErrors : Bool := false
deriving DecidableEq, Repr

structure Configuration where
  project : Option Path
  inputs : List Path
  options : Options
  outDir : Option Path
  types : TypeMap

inductive ConfigurationError where
  | unreadableProject (path : Path) (e : FileError)
  | malformedProject (path : Path)
  | missingInput (path : Path)
deriving DecidableEq, Repr

def ConfigurationError.message : ConfigurationError → String
  | unreadableProject path e => "failed to read project file " ++ path.text ++ ": " ++ e.message
  | malformedProject path => "failed to parse project file " ++ path.text
  | missingInput path => "input path does not exist: " ++ path.text

namespace Request

/-- The project file that is named, or the default one if no paths are given and it is there. -/
def projectPath? (fs : FileSystem) (r : Request) : Option Path :=
  r.project.orElse fun _ =>
    if r.paths.isEmpty && fs.isFile ⟨Project.fileName⟩ then some ⟨Project.fileName⟩ else none

def loadProject (fs : FileSystem) : Option Path → Except ConfigurationError Project
  | none => .ok {}
  | some path =>
    match fs.readText path with
    | .error e => .error (.unreadableProject path e)
    | .ok text =>
      match Project.read? text with
      | some p => .ok p
      | none => .error (.malformedProject path)

def baseDirectory (project : Option Path) : Path :=
  match project.bind (·.parent?) with
  | some parent => if parent.text = "" then ⟨"."⟩ else parent
  | none => ⟨"."⟩

def documentsAt (fs : FileSystem) (patterns : List String) (path : Path) :
    Except ConfigurationError (List Path) :=
  if fs.isDirectory path then .ok (fs.discover path patterns)
  else if fs.isFile path then .ok [path]
  else .error (.missingInput path)

def documents (fs : FileSystem) (base : Path) (patterns : List String) (paths : List Path) :
    Except ConfigurationError (List Path) :=
  if paths.isEmpty then .ok (fs.discover base patterns)
  else do return (← paths.mapM (documentsAt fs patterns)).flatten

def configure (fs : FileSystem) (r : Request) : Except ConfigurationError Configuration := do
  let project := r.projectPath? fs
  let p ← loadProject fs project
  let base := baseDirectory project
  let found ← documents fs base p.patterns r.paths
  return {
    project
    inputs := Path.sorted found
    options := { p.options with warningsAsErrors := r.warningsAsErrors || p.options.warningsAsErrors }
    outDir := r.outDir.orElse fun _ => p.outDirFrom base
    types := p.types }

end Request

end TuiMarkup
