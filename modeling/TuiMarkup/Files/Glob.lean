import TuiMarkup.Files.FileSystem
import TuiMarkup.Files.Wildcard

/-!
Patterns for paths. A component has wildcards, or is `**` and stands for any number of directories.
Components are looked up one after the other; one without wildcards is not searched for but followed.

This is what is assumed of the library `glob` with its default options: letters count with their case,
a dot at the start of a name is like any other character, a directory that cannot be read has no
entries, and what is found is taken over as it is spelled.
-/

namespace TuiMarkup

namespace Glob

inductive Component where
  | anyDepth
  | marks (ms : List Mark)
deriving DecidableEq, Repr

namespace Component

def read? (s : String) : Option Component :=
  if s = "**" then some .anyDepth else (readMarks? s.toList).map .marks

def isAnyDepth : Component → Bool
  | anyDepth => true
  | marks _ => false

def literal? : Component → Option String
  | anyDepth => none
  | marks ms =>
    (ms.mapM fun m => match m with
      | Mark.char c => some c
      | _ => none).map String.ofList

def admits (name : String) : Component → Bool
  | anyDepth => true
  | marks ms => admitsChars ms name.toList

/-- The directories `.` and `..` are searched only for a component that spells its first dot. -/
def admitsDots : Component → Bool
  | marks (.char '.' :: _) => true
  | _ => false

end Component

/-- A pattern starts at the root or at the working directory. -/
structure Pattern where
  absolute : Bool
  components : List Component
  directoryOnly : Bool
deriving DecidableEq, Repr

def dropTerminator (ss : List String) : List String :=
  if ss.getLast? = some "" then ss.dropLast else ss

def Pattern.read? (s : String) : Option Pattern := do
  let absolute := Text.startsWith "/" s
  let segments := dropTerminator (Path.segments ⟨s⟩)
  return { absolute, components := ← segments.mapM Component.read?,
           directoryOnly := Text.endsWith "/" s }

def child (directory : Path) (name : String) : Path :=
  if directory.same ⟨"."⟩ then ⟨name⟩ else directory.join name

structure Found where
  path : Path
  name : String
  node : Node

def entriesOf (fs : FileSystem) (directory : Path) : List Found :=
  ((fs.find? directory).map (·.entries)).getD [] |>.map fun (name, node) =>
    { path := child directory name, name, node }

def pathsUnder (fs : FileSystem) (directory : Path) : List Found :=
  ((fs.find? directory).map (·.nodes)).getD [] |>.map fun (names, node) =>
    { path := child directory ("/".intercalate names), name := names.getLast?.getD "", node }

theorem length_dropWhile_lt (c : Component) (cs : List Component) (p : Component → Bool) :
    (cs.dropWhile p).length < (c :: cs).length :=
  Nat.lt_succ_of_le (List.dropWhile_sublist p).length_le

def expand (fs : FileSystem) (directory : Path) : List Component → List Path
  | [] => [directory]
  | c :: cs =>
    match c.literal? with
    | some name =>
      let next := child directory name
      let follows :=
        if name = "." || name = ".." then fs.isDirectory directory else fs.fileExists next
      if follows then expand fs next cs else []
    | none =>
      if !fs.isDirectory directory then []
      else if c.isAnyDepth then
        match _h : cs.dropWhile Component.isAnyDepth with
        | [] => ((pathsUnder fs directory).filter (·.node.isDirectory)).map (·.path)
        | d :: ds =>
          ((pathsUnder fs directory).filter fun f => d.admits f.name).flatMap fun f =>
            expand fs f.path ds
      else
        (if c.admitsDots then
          ["..", "."].flatMap fun dots =>
            if c.admits dots then expand fs (directory.join dots) cs else []
        else []) ++
        ((entriesOf fs directory).filter fun f => c.admits f.name).flatMap fun f =>
          expand fs f.path cs
termination_by cs => cs.length
decreasing_by
  · simp
  · have := length_dropWhile_lt c cs Component.isAnyDepth
    simp_all only [List.length_cons]
    omega
  · simp
  · simp

def Pattern.expand (fs : FileSystem) (p : Pattern) : List Path :=
  let found := Glob.expand fs (if p.absolute then ⟨"/"⟩ else ⟨"."⟩) p.components
  if p.directoryOnly then found.filter fs.isDirectory else found

end Glob

/-- The files under a directory that match one of the patterns. The directory is part of each
pattern, its own marks included; what is not a pattern matches nothing. -/
def FileSystem.discover (fs : FileSystem) (directory : Path) (patterns : List String) : List Path :=
  patterns.flatMap fun s =>
    match Glob.Pattern.read? (directory.join s).text with
    | some p => (p.expand fs).filter fs.isFile
    | none => []

end TuiMarkup
