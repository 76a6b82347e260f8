import TuiMarkup.Diagnostic.Basic
import TuiMarkup.Json.Writer

/-!
Lists of diagnostics as they are shown: as text with a line for each, or as JSON.
-/

namespace TuiMarkup

inductive ReportFormat where
  | text
  | json
deriving DecidableEq, Repr

namespace ReportFormat

def name : ReportFormat → String
  | text => "text"
  | json => "json"

def ofName? (s : String) : Option ReportFormat :=
  if s = "text" then some text else if s = "json" then some json else none

end ReportFormat

namespace Diagnostic

def json (indent : Nat) (d : Diagnostic) : String :=
  Json.object indent
    [("code", Json.quote d.code.name), ("severity", Json.quote d.severity.name),
      ("filePath", Json.quote d.path), ("line", toString d.line), ("column", toString d.column),
      ("message", Json.quote d.message)]

def report (ds : List Diagnostic) : ReportFormat → String
  | .text => "\n".intercalate (ds.map display)
  | .json => Json.array 2 (ds.map (json 4))

end Diagnostic

end TuiMarkup
