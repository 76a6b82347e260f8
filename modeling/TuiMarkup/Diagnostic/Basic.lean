import TuiMarkup.Text.Split

/-!
Diagnostics: what the compiler has to say about a document. A problem has a code and a message; a
diagnostic is a problem that was found in a file, at a line and a column if it has a place.
-/

namespace TuiMarkup

inductive Severity where
  | warning
  | error
deriving DecidableEq, Repr

def Severity.name : Severity → String
  | warning => "warning"
  | error => "error"

inductive Code where
  | emptyDocument
  | malformedMarkup
  | missingClassName
  | unknownControlType
  | invalidBindingExpression
  | unsupportedTwoWayBinding
  | unknownEvent
  | emptyEventHandler
  | parseError
  | duplicateName
  | invalidPropertyValue
  | obsoleteEventUsed
  | unknownControlTypeInGeneration
  | rootNotContainer
  | childOfNonContainer
deriving DecidableEq, Repr

namespace Code

def all : List Code :=
  [emptyDocument, malformedMarkup, missingClassName, unknownControlType, invalidBindingExpression,
    unsupportedTwoWayBinding, unknownEvent, emptyEventHandler, parseError, duplicateName,
    invalidPropertyValue, obsoleteEventUsed, unknownControlTypeInGeneration, rootNotContainer,
    childOfNonContainer]

def id : Code → String
  | emptyDocument => "TUI001"
  | malformedMarkup => "TUI002"
  | missingClassName => "TUI003"
  | unknownControlType => "TUI004"
  | invalidBindingExpression => "TUI005"
  | unsupportedTwoWayBinding => "TUI006"
  | unknownEvent => "TUI007"
  | emptyEventHandler => "TUI008"
  | parseError => "TUI009"
  | duplicateName => "TUI011"
  | invalidPropertyValue => "TUI012"
  | obsoleteEventUsed => "TUI013"
  | unknownControlTypeInGeneration => "TUI014"
  | rootNotContainer => "TUI015"
  | childOfNonContainer => "TUI016"

def name : Code → String
  | emptyDocument => "empty-document"
  | malformedMarkup => "malformed-markup"
  | missingClassName => "missing-class-name"
  | unknownControlType => "unknown-control-type"
  | invalidBindingExpression => "invalid-binding-expression"
  | unsupportedTwoWayBinding => "unsupported-two-way-binding"
  | unknownEvent => "unknown-event"
  | emptyEventHandler => "empty-event-handler"
  | parseError => "parse-error"
  | duplicateName => "duplicate-name"
  | invalidPropertyValue => "invalid-property-value"
  | obsoleteEventUsed => "obsolete-event-used"
  | unknownControlTypeInGeneration => "unknown-control-type-in-generation"
  | rootNotContainer => "root-not-container"
  | childOfNonContainer => "child-of-non-container"

def ofName? (s : String) : Option Code :=
  all.find? (·.name == s)

def severity : Code → Severity
  | unknownEvent | invalidPropertyValue | obsoleteEventUsed | unknownControlTypeInGeneration
  | rootNotContainer | childOfNonContainer => .warning
  | _ => .error

/-- Unknown types are met twice, when a document is checked and when it is written out. -/
def isUnknownControlType : Code → Bool
  | unknownControlType | unknownControlTypeInGeneration => true
  | _ => false

end Code

inductive Problem where
  | emptyDocument
  | malformedMarkup (detail : String)
  | missingClassName
  | unknownControlType (type : String) (known : List String)
  | invalidBindingExpression (value : String)
  | unsupportedTwoWayBinding (type property : String)
  | unknownEvent (type event : String)
  | emptyEventHandler (event : String)
  | parseError (detail : String)
  | duplicateName (name : String)
  | invalidPropertyValue (property value expected : String)
  | obsoleteEventUsed (event type : String) (replacement : Option String)
  | unknownControlTypeInGeneration (type : String)
  | rootNotContainer (type : String)
  | childOfNonContainer (type : String)
deriving DecidableEq, Repr

namespace Problem

def code : Problem → Code
  | emptyDocument => .emptyDocument
  | malformedMarkup _ => .malformedMarkup
  | missingClassName => .missingClassName
  | unknownControlType _ _ => .unknownControlType
  | invalidBindingExpression _ => .invalidBindingExpression
  | unsupportedTwoWayBinding _ _ => .unsupportedTwoWayBinding
  | unknownEvent _ _ => .unknownEvent
  | emptyEventHandler _ => .emptyEventHandler
  | parseError _ => .parseError
  | duplicateName _ => .duplicateName
  | invalidPropertyValue _ _ _ => .invalidPropertyValue
  | obsoleteEventUsed _ _ _ => .obsoleteEventUsed
  | unknownControlTypeInGeneration _ => .unknownControlTypeInGeneration
  | rootNotContainer _ => .rootNotContainer
  | childOfNonContainer _ => .childOfNonContainer

def message : Problem → String
  | emptyDocument => "The markup document is empty or contains only whitespace"
  | malformedMarkup detail => "Invalid markup: " ++ detail
  | missingClassName =>
    "The root element must have an x:Class attribute specifying the full class name"
  | unknownControlType type known =>
    "Unknown control type '" ++ type ++ "'. Supported types: " ++ ", ".intercalate known ++ "."
  | invalidBindingExpression value =>
    "Invalid binding expression '" ++ value ++
      "'. Expected format: \x7bBind PropertyPath\x7d or \x7bBind PropertyPath, Mode=TwoWay\x7d."
  | unsupportedTwoWayBinding type property =>
    "TwoWay binding is not supported on " ++ type ++ "." ++ property ++ "."
  | unknownEvent type event => "Unknown event '" ++ event ++ "' for control type '" ++ type ++ "'."
  | emptyEventHandler event =>
    "Event '" ++ event ++
      "' has an empty handler name. Specify a method name like 'OnButtonClick'."
  | parseError detail => "Error compiling markup document: " ++ detail
  | duplicateName name =>
    "Duplicate x:Name '" ++ name ++
      "'. Each control must have a unique name within the same document."
  | invalidPropertyValue property value expected =>
    "Invalid value '" ++ value ++ "' for property '" ++ property ++ "'. Expected " ++ expected ++
      "; emitted verbatim."
  | obsoleteEventUsed event type (some replacement) =>
    "Event '" ++ event ++ "' on '" ++ type ++ "' is obsolete. Use '" ++ replacement ++ "' instead."
  | obsoleteEventUsed event type none => "Event '" ++ event ++ "' on '" ++ type ++ "' is obsolete."
  | unknownControlTypeInGeneration type =>
    "Unknown control type '" ++ type ++ "' during code generation; emitted as 'object'."
  | rootNotContainer type =>
    "Root element '" ++ type ++ "' is not a container control and cannot host children."
  | childOfNonContainer type =>
    "Control '" ++ type ++ "' is not a container but has child elements."

end Problem

structure Diagnostic where
  code : Code
  severity : Severity
  path : String
  /-- Line and column count from one; both are zero without a place. -/
  line : Nat := 0
  column : Nat := 0
  message : String
deriving DecidableEq, Repr

namespace Diagnostic

def make (code : Code) (path message : String) (line column : Nat) : Diagnostic :=
  { code, severity := code.severity, path, line, column, message }

def of (p : Problem) (path : String) (line : Nat := 0) (column : Nat := 0) : Diagnostic :=
  make p.code path p.message line column

def isError (d : Diagnostic) : Bool :=
  d.severity == .error

def raised (d : Diagnostic) : Diagnostic :=
  { d with severity := .error }

def display (d : Diagnostic) : String :=
  d.path ++ ":" ++ toString d.line ++ ":" ++ toString d.column ++ ": " ++ d.severity.name ++ " " ++
    d.code.id ++ ": " ++ d.message

def blocks (ds : List Diagnostic) (warningsAsErrors : Bool) : Bool :=
  ds.any fun d => d.isError || warningsAsErrors

end Diagnostic

end TuiMarkup
