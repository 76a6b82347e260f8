import TuiMarkup.Command.Run

/-!
The command as a program. The files that a run can meet are brought into memory, the run is made
there, and what it changed is written back. Of the content of files only what the run reads is
brought, so that a large directory costs no more than its names.
-/

namespace TuiMarkup.Disk

def namesOf (fs : FileSystem) (p : Path) : List String :=
  p.segments.foldl
    (fun names s =>
      if s = "" || s = "." then names else if s = ".." then names.dropLast else names ++ [s])
    (if p.isAbsolute then [] else fs.working)

def placeOf (names : List String) : String :=
  "/" ++ "/".intercalate names

/-- A directory and all below it, with empty files. Links to directories are left out, since they
can lead in circles. -/
partial def outline (place : String) : IO Node := do
  let mut node := Node.directory []
  for entry in ← (← IO.FS.realPath place).readDir do
    let below := place ++ "/" ++ entry.fileName
    if ← entry.path.isDir then
      if (← entry.path.symlinkMetadata).type != .symlink then
        node := Node.put (← outline below) [entry.fileName] node
    else node := Node.put (.file .empty) [entry.fileName] node
  return node

/-- Brings the outline of what stands at a path, unless it came with the working directory. A path
that leads nowhere changes nothing. -/
def bring (fs : FileSystem) (p : Path) : IO FileSystem := do
  let names := namesOf fs p
  if fs.working.isPrefixOf names && fs.fileExists p then return fs
  try
    let real ← IO.FS.realPath (placeOf names)
    if ← real.isDir then return fs.put names (← outline (placeOf names))
    else return fs.put names (.file .empty)
  catch _ => return fs

def fill (fs : FileSystem) (p : Path) : IO FileSystem := do
  if !fs.isFile p then return fs
  let names := namesOf fs p
  try
    return fs.put names (.file (← IO.FS.readBinFile (placeOf names)))
  catch _ => return fs

def searchStart (pattern : Path) : Path :=
  let isPlain := fun (s : String) => s.toList.all fun c => c != '*' && c != '?' && c != '['
  .ofSegments pattern.isAbsolute (pattern.segments.takeWhile isPlain)

def searched (fs : FileSystem) (r : Request) : List Path :=
  let project := r.projectPath? fs
  match Request.loadProject fs project with
  | .error _ => []
  | .ok p =>
    let directories := if r.paths.isEmpty then [Request.baseDirectory project] else r.paths
    directories.flatMap fun d => p.patterns.map fun s => searchStart (d.join s)

def filesFor (args : List String) : IO FileSystem := do
  let here ← IO.currentDir
  let empty : FileSystem := { root := .directory [], working := [] }
  let fs := { empty with working := namesOf empty ⟨here.toString⟩ }
  match Arguments.read args with
  | .error _ => return fs
  | .ok a =>
    let r := Command.request a
    let fs := fs.put fs.working (← outline (placeOf fs.working))
    let fs ← (r.paths ++ r.project.toList).foldlM bring fs
    let project := (r.projectPath? fs).toList
    let fs ← project.foldlM fill fs
    let fs ← (searched fs r).foldlM bring fs
    let fs ← project.foldlM fill fs
    match r.configure fs with
    | .error _ => return fs
    | .ok c => c.inputs.foldlM fill fs

def store (old new : FileSystem) : IO Unit :=
  for (names, node) in new.root.nodes do
    match node, old.node? names with
    | .directory _, none => IO.FS.createDirAll (placeOf names)
    | .directory _, some _ => pure ()
    | .file content, some (.file before) =>
      if content != before then IO.FS.writeBinFile (placeOf names) content
    | .file content, _ => IO.FS.writeBinFile (placeOf names) content

end TuiMarkup.Disk

open TuiMarkup in
def main (words : List String) : IO UInt32 := do
  let args := Command.name :: words
  let files ← Disk.filesFor args
  let outcome := Command.run files args
  Disk.store files outcome.files
  for line in outcome.out do IO.println line
  for line in outcome.err do IO.eprintln line
  return outcome.exitCode.toUInt32
