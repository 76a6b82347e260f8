import TuiMarkup.Files.Path

/-!
A file system in memory: directories, files, and a directory to start from. Operations resolve a path
segment by segment, as an operating system does, and fail with its errors.

There are no links, names are Unicode texts, everything may be read and written, and nothing else
touches the files during a run.
-/

namespace TuiMarkup

inductive FileError where
  | notFound
  | alreadyExists
  | notDirectory
  | isDirectory
  | nameTooLong
  | nulByte
  | notText
deriving DecidableEq, Repr

def FileError.message : FileError → String
  | notFound => "No such file or directory (os error 2)"
  | alreadyExists => "File exists (os error 17)"
  | notDirectory => "Not a directory (os error 20)"
  | isDirectory => "Is a directory (os error 21)"
  | nameTooLong => "File name too long (os error 36)"
  | nulByte => "file name contained an unexpected NUL byte"
  | notText => "stream did not contain valid UTF-8"

inductive Node where
  | file (content : ByteArray)
  | directory (entries : List (String × Node))

namespace Node

def isDirectory : Node → Bool
  | directory _ => true
  | file _ => false

def entries : Node → List (String × Node)
  | directory es => es
  | file _ => []

def get? : Node → List String → Option Node
  | n, [] => some n
  | n, name :: names => (n.entries.lookup name).bind (·.get? names)

def putEntry (name : String) (n : Node) : List (String × Node) → List (String × Node)
  | [] => [(name, n)]
  | (key, m) :: es =>
    if key = name then (name, n) :: es
    else if name < key then (name, n) :: (key, m) :: es
    else (key, m) :: putEntry name n es

def put (new : Node) : List String → Node → Node
  | [], _ => new
  | name :: names, n =>
    let old := (n.entries.lookup name).getD (directory [])
    directory (putEntry name (put new names old) n.entries)

mutual

/-- All nodes under this one, each with the names that lead to it, and a directory before what it
holds. -/
def nodes : Node → List (List String × Node)
  | file _ => []
  | directory es => entryNodes es

def entryNodes : List (String × Node) → List (List String × Node)
  | [] => []
  | (name, n) :: es =>
    ([name], n) :: n.nodes.map (fun (names, m) => (name :: names, m)) ++ entryNodes es

end

end Node

/-- A way down from the root: its names, the last one first, each with what it leads to. -/
abbrev Trail := List (String × Node)

def Trail.names (t : Trail) : List String :=
  (t.map (·.1)).reverse

/-- The root directory, and the names that lead to the working directory. -/
structure FileSystem where
  root : Node
  working : List String

namespace FileSystem

def nameLimit : Nat := 255

def pathLimit : Nat := 4095

def node? (fs : FileSystem) (place : List String) : Option Node :=
  fs.root.get? place

def reached (fs : FileSystem) : Trail → Node
  | [] => fs.root
  | (_, n) :: _ => n

def isTooLong (name : String) : Bool :=
  nameLimit < name.utf8ByteSize

def enter (fs : FileSystem) (t : Trail) (segment : String) : Except FileError Trail :=
  match fs.reached t with
  | .file _ => .error .notDirectory
  | .directory es =>
    if segment = "" || segment = "." then .ok t
    else if segment = ".." then .ok t.tail
    else if isTooLong segment then .error .nameTooLong
    else match es.lookup segment with
      | some n => .ok ((segment, n) :: t)
      | none => .error .notFound

def start (fs : FileSystem) (p : Path) : Except FileError Trail :=
  if Text.hasChar '\x00' p.text then .error .nulByte
  else if p.text = "" then .error .notFound
  else if pathLimit < p.text.utf8ByteSize then .error .nameTooLong
  else if p.isAbsolute then .ok []
  else fs.working.foldlM fs.enter []

def resolve (fs : FileSystem) (p : Path) : Except FileError Trail := do
  p.segments.foldlM fs.enter (← fs.start p)

def find? (fs : FileSystem) (p : Path) : Option Node :=
  match fs.resolve p with
  | .ok t => some (fs.reached t)
  | .error _ => none

def isDirectory (fs : FileSystem) (p : Path) : Bool :=
  (fs.find? p).any (·.isDirectory)

def isFile (fs : FileSystem) (p : Path) : Bool :=
  (fs.find? p).any (!·.isDirectory)

def fileExists (fs : FileSystem) (p : Path) : Bool :=
  (fs.find? p).isSome

def readText (fs : FileSystem) (p : Path) : Except FileError String := do
  match fs.reached (← fs.resolve p) with
  | .file content =>
    match String.fromUTF8? content with
    | some text => .ok text
    | none => .error .notText
  | .directory _ => .error .isDirectory

/-! ### Changes -/

def put (fs : FileSystem) (place : List String) (n : Node) : FileSystem :=
  { fs with root := Node.put n place fs.root }

structure Spot where
  directory : Trail
  name : String
  node : Option Node

namespace Spot

def place (s : Spot) : List String :=
  s.directory.names ++ [s.name]

/-- A segment that is no name stands for a directory that is there. -/
def isName (s : Spot) : Bool :=
  s.name != "" && s.name != "." && s.name != ".."

end Spot

def spot (fs : FileSystem) (p : Path) : Except FileError Spot := do
  let segments := p.segments
  let directory ← segments.dropLast.foldlM fs.enter (← fs.start p)
  let name := segments.getLast?.getD ""
  match fs.reached directory with
  | .file _ => .error .notDirectory
  | .directory es =>
    if isTooLong name then .error .nameTooLong
    else return { directory, name, node := es.lookup name }

def makeDirectory (fs : FileSystem) (p : Path) : Except FileError FileSystem := do
  let s ← fs.spot p
  if s.isName && s.node.isNone then return fs.put s.place (.directory [])
  else .error .alreadyExists

/-- Makes a directory with those above it that are missing, given from the inside out. Directories
that were made before a failure stay. -/
def makeDirectories (fs : FileSystem) : List Path → FileSystem × Except FileError Unit
  | [] => (fs, .ok ())
  | p :: above =>
    match fs.makeDirectory p with
    | .ok fs => (fs, .ok ())
    | .error .notFound =>
      match makeDirectories fs above with
      | (fs, .error e) => (fs, .error e)
      | (fs, .ok ()) =>
        match fs.makeDirectory p with
        | .ok fs => (fs, .ok ())
        | .error e => (fs, if fs.isDirectory p then .ok () else .error e)
    | .error e => (fs, if fs.isDirectory p then .ok () else .error e)

def writeText (fs : FileSystem) (p : Path) (text : String) : Except FileError FileSystem := do
  let s ← fs.spot p
  if s.isName && !s.node.any (·.isDirectory) then return fs.put s.place (.file text.toUTF8)
  else .error .isDirectory

def files (fs : FileSystem) : List (List String × ByteArray) :=
  match fs.node? fs.working with
  | none => []
  | some n => n.nodes.filterMap fun
    | (names, .file content) => some (names, content)
    | (_, .directory _) => none

def changesSince (fs old : FileSystem) : List (List String × ByteArray) :=
  fs.files.filter fun (names, content) =>
    match old.node? (old.working ++ names) with
    | some (.file before) => before != content
    | _ => true

end FileSystem

end TuiMarkup
