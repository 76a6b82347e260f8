import TuiMarkup.Compilation
import TuiMarkup.Files.FileSystem

/-!
Files that are compiled together. All of them are read first, the sources that come of it are
compiled, and the outputs go back to the places of their files.
-/

namespace TuiMarkup

def unreadable (path : Path) (e : FileError) : Output :=
  { generated := none
    diagnostics :=
      [.of (.parseError ("failed to read " ++ path.text ++ ": " ++ e.message)) path.text] }

namespace FileSystem

def readSource (fs : FileSystem) (path : Path) : Except Output Source :=
  match fs.readText path with
  | .ok text => .ok { path := path.text, text }
  | .error e => .error (unreadable path e)

end FileSystem

/-- Gives each file its output. Those of the sources are taken up one after the other, so that only
their order tells which is whose. -/
def handOut : List (Path × Except Output Source) → List Output → List (Path × Output)
  | [], _ => []
  | (path, .error failed) :: rest, outputs => (path, failed) :: handOut rest outputs
  | (path, .ok _) :: rest, output :: outputs => (path, output) :: handOut rest outputs
  | (_, .ok _) :: rest, [] => handOut rest []

def FileSystem.compileFiles (fs : FileSystem) (catalog : Catalog) (resolver : TypeResolver)
    (options : Options) (files : List Path) : List (Path × Output) :=
  let reads := files.map fs.readSource
  handOut (files.zip reads) (compileAll catalog resolver options (reads.filterMap (·.toOption)))

end TuiMarkup
