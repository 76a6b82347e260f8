import TuiMarkup.Diagnostic.Report
import TuiMarkup.Files.Path

/-!
The arguments of the command. Options have long names after two dashes and some have a letter after
one; letters can stand together, and an option takes its value from the rest of the word, from after
an equals sign, or from the next word. A value counts only when something follows it, so that of two
mistakes the one in the spelling of an option is reported before that in the value in front of it.

All of this is assumed of the library `clap`, from which the command has its arguments. Of what it says
on a mistake only the kind of the mistake is here. Words are Unicode texts.
-/

namespace TuiMarkup

structure Arguments where
  paths : List Path := []
  project : Option Path := none
  outDir : Option Path := none
  warningsAsErrors : Bool := false
  format : ReportFormat := .text
  check : Bool := false
  verbose : Bool := false
deriving DecidableEq, Repr

inductive Usage where
  | invalidValue
  | unknownArgument
  | argumentConflict
  | tooManyValues
  | displayHelp
  | displayVersion
deriving DecidableEq, Repr

namespace Usage

def name : Usage → String
  | invalidValue => "InvalidValue"
  | unknownArgument => "UnknownArgument"
  | argumentConflict => "ArgumentConflict"
  | tooManyValues => "TooManyValues"
  | displayHelp => "DisplayHelp"
  | displayVersion => "DisplayVersion"

def isRequest : Usage → Bool
  | displayHelp | displayVersion => true
  | _ => false

def exitCode (u : Usage) : Nat :=
  if u.isRequest then 0 else 2

end Usage

namespace Arguments

inductive Setting where
  | project
  | outDir
  | format
deriving DecidableEq, Repr

inductive Flag where
  | warningsAsErrors
  | check
  | verbose
  | help
  | version
deriving DecidableEq, Repr

def long? (s : String) : Option (Setting ⊕ Flag) :=
  if s = "project" then some (.inl .project)
  else if s = "out-dir" then some (.inl .outDir)
  else if s = "format" then some (.inl .format)
  else if s = "warnings-as-errors" then some (.inr .warningsAsErrors)
  else if s = "check" then some (.inr .check)
  else if s = "verbose" then some (.inr .verbose)
  else if s = "help" then some (.inr .help)
  else if s = "version" then some (.inr .version)
  else none

def short? (c : Char) : Option (Setting ⊕ Flag) :=
  if c = 'p' then some (.inl .project)
  else if c = 'o' then some (.inl .outDir)
  else if c = 'v' then some (.inr .verbose)
  else if c = 'h' then some (.inr .help)
  else if c = 'V' then some (.inr .version)
  else none

/-- Words that have been read and not yet taken over. -/
inductive Pending where
  | none
  | setting (s : Setting) (value : Option String)
  | paths (values : List String)
deriving DecidableEq, Repr

structure Reading where
  paths : List Path := []
  project : Option Path := .none
  outDir : Option Path := .none
  format : Option ReportFormat := .none
  flags : List Flag := []
  pending : Pending := .none
deriving DecidableEq, Repr

namespace Reading

def path (s : String) : Except Usage Path :=
  if s = "" then .error .invalidValue else .ok ⟨s⟩

def set (r : Reading) (s : Setting) (value : String) : Except Usage Reading :=
  match s with
  | .project =>
    if r.project.isSome then .error .argumentConflict
    else (path value).map fun p => { r with project := p }
  | .outDir =>
    if r.outDir.isSome then .error .argumentConflict
    else (path value).map fun p => { r with outDir := p }
  | .format =>
    if r.format.isSome then .error .argumentConflict
    else match ReportFormat.ofName? value with
      | some f => .ok { r with format := f }
      | none => .error .invalidValue

def settle (r : Reading) : Except Usage Reading :=
  let rest := { r with pending := .none }
  match r.pending with
  | .none => .ok rest
  | .setting _ none => .error .invalidValue
  | .setting s (some value) => rest.set s value
  | .paths values => do return { rest with paths := rest.paths ++ (← values.mapM path) }

def raise (r : Reading) (f : Flag) : Except Usage Reading := do
  let r ← r.settle
  match f with
  | .help => .error .displayHelp
  | .version => .error .displayVersion
  | f =>
    if r.flags.contains f then .error .argumentConflict
    else return { r with flags := r.flags ++ [f] }

def meet (r : Reading) (s : Setting) (value : Option String) : Except Usage Reading := do
  let r ← r.settle
  match value with
  | some value => r.set s value
  | none => return { r with pending := .setting s none }

def word (r : Reading) (s : String) : Except Usage Reading :=
  match r.pending with
  | .paths values => .ok { r with pending := .paths (values ++ [s]) }
  | _ => do return { ← r.settle with pending := .paths [s] }

def long (r : Reading) (s : String) : Except Usage Reading :=
  let (name, value) := match Text.cutFirst '=' s with
    | some (name, value) => (name, some value)
    | none => (s, none)
  match long? name with
  | none => .error .unknownArgument
  | some (.inl setting) => r.meet setting value
  | some (.inr flag) => if value.isSome then .error .tooManyValues else r.raise flag

def attached : List Char → Option String
  | [] => none
  | '=' :: cs => some (String.ofList cs)
  | cs => some (String.ofList cs)

def short (r : Reading) : List Char → Except Usage Reading
  | [] => .ok r
  | c :: cs =>
    match short? c with
    | none => .error .unknownArgument
    | some (.inl setting) => r.meet setting (attached cs)
    | some (.inr flag) => do short (← r.raise flag) cs

def plain (r : Reading) (s : String) : Except Usage Reading :=
  match r.pending with
  | .setting setting none => .ok { r with pending := .setting setting (some s) }
  | _ => r.word s

def argument (r : Reading) (s : String) : Except Usage Reading :=
  match s.toList with
  | '-' :: '-' :: cs => r.long (String.ofList cs)
  | '-' :: c :: cs => r.short (c :: cs)
  | _ => r.plain s

/-- Takes the words in turn. After two dashes alone all words are paths. -/
def arguments (r : Reading) : List String → Except Usage Reading
  | [] => .ok r
  | s :: ss =>
    if s = "--" then ss.foldlM word r
    else do arguments (← r.argument s) ss

def result (r : Reading) : Arguments where
  paths := r.paths
  project := r.project
  outDir := r.outDir
  warningsAsErrors := r.flags.contains .warningsAsErrors
  format := r.format.getD .text
  check := r.flags.contains .check
  verbose := r.flags.contains .verbose

end Reading

def read (args : List String) : Except Usage Arguments := do
  let r ← ({} : Reading).arguments args.tail
  return (← r.settle).result

def logLevel (a : Arguments) : String :=
  if a.verbose then "debug" else "warn"

end Arguments

end TuiMarkup
