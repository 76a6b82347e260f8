import TuiMarkup.Diagnostic.Report
import TuiMarkup.Project

/-!
Reading reports in JSON. A diagnostic is an object with the keys `code`, `severity`, `filePath`,
`line`, `column` and `message`, each of them once, or an array of their values in this order. Other
keys are passed over.

This is what the derived readers of the library `serde` are assumed to take: a record as an object or
as the list of its fields, and a name among several as a string or as the key of a null.
-/

namespace TuiMarkup

open Json (Value)

def Severity.ofName? (s : String) : Option Severity :=
  if s = "warning" then some .warning else if s = "error" then some .error else none

namespace Diagnostic

/-- A name by itself, or as the one key of an object that has null under it. -/
def variant? {α : Type} (ofName? : String → Option α) : Value → Option α
  | .string name => name.bind ofName?
  | .object [(name, .null)] => name.bind ofName?
  | _ => none

def ofParts? (code severity path line column message : Value) : Option Diagnostic := do
  return {
    code := ← variant? Code.ofName? code
    severity := ← variant? Severity.ofName? severity
    path := ← Project.text? path
    line := ← Project.natural? line
    column := ← Project.natural? column
    message := ← Project.text? message }

def keys : List String :=
  ["code", "severity", "filePath", "line", "column", "message"]

def ofMembers? (members : List (String × Value)) : Option Diagnostic :=
  let given := members.map (·.1)
  if keys.any fun key => 1 < given.count key then none
  else do
    let get := fun key => members.lookup key
    ofParts? (← get "code") (← get "severity") (← get "filePath") (← get "line") (← get "column")
      (← get "message")

def ofItems? : List Value → Option Diagnostic
  | [code, severity, path, line, column, message] =>
    ofParts? code severity path line column message
  | _ => none

def ofValue? : Value → Option Diagnostic
  | .object members => do
    ofMembers? (← members.mapM fun (key, value) => key.map fun key => (key, value))
  | .array items => ofItems? items
  | _ => none

def ofReport? (s : String) : Option (List Diagnostic) := do
  match ← Json.read? s with
  | .array items => items.mapM ofValue?
  | _ => none

end Diagnostic

end TuiMarkup
