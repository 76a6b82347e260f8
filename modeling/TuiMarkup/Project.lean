import TuiMarkup.Compilation
import TuiMarkup.Files.Path
import TuiMarkup.Json.Reader

/-!
Project files. A project file is a JSON object with the keys `include`, `outDir`,
`treatWarningsAsErrors`, `indentWidth` and `types`, none of which need be there, or an array of their
values in this order. Other keys are passed over. This is what the derived readers of the library
`serde` are assumed to take.
-/

namespace TuiMarkup

structure Project where
  included : Option (List String) := none
  outDir : Option String := none
  warningsAsErrors : Option Bool := none
  indentWidth : Option Nat := none
  types : TypeMap := {}

namespace Project

def fileName : String := "tuixaml.json"

def defaultPattern : String := "**/*.tui.xaml"

/-! ### Values -/

open Json (Value)

def text? : Value → Option String
  | .string chars => chars
  | _ => none

def texts? : Value → Option (List String)
  | .array items => items.mapM text?
  | _ => none

def bool? : Value → Option Bool
  | .bool b => some b
  | _ => none

/-- A whole number of 64 bits, spelled without sign, point and exponent. -/
def natural? : Value → Option Nat
  | .number ds =>
    if ds.all Text.isDecimalDigit ∧ Text.decimalValue ds < Nat.pow 2 64 then some (Text.decimalValue ds)
    else none
  | _ => none

def table? {α : Type} (decode : Value → Option α) : Value → Option (Table α)
  | .object members => do
    let entries ← members.mapM fun (key, value) => do return (← key, ← decode value)
    return .ofList entries
  | _ => none

def orNull {α : Type} (decode : Value → Option α) : Value → Option (Option α)
  | .null => some none
  | v => (decode v).map some

def part? {α : Type} (decode : Value → Option (Option α)) : Option Value → Option (Option α)
  | none => some none
  | some v => decode v

def ofParts? (included outDir warningsAsErrors indentWidth types : Option Value) :
    Option Project := do
  return {
    included := ← part? (orNull texts?) included
    outDir := ← part? (orNull text?) outDir
    warningsAsErrors := ← part? (orNull bool?) warningsAsErrors
    indentWidth := ← part? (orNull natural?) indentWidth
    types := (← part? (fun v => (table? (table? text?) v).map some) types).getD {} }

/-! ### Files -/

def keys : List String :=
  ["include", "outDir", "treatWarningsAsErrors", "indentWidth", "types"]

def ofMembers? (members : List (String × Value)) : Option Project :=
  let given := members.map (·.1)
  if keys.any fun key => 1 < given.count key then none
  else
    let get := fun key => members.lookup key
    ofParts? (get "include") (get "outDir") (get "treatWarningsAsErrors") (get "indentWidth")
      (get "types")

def ofItems? (items : List Value) : Option Project :=
  if keys.length < items.length then none
  else ofParts? items[0]? items[1]? items[2]? items[3]? items[4]?

def ofValue? : Value → Option Project
  | .object members => do
    ofMembers? (← members.mapM fun (key, value) => key.map fun key => (key, value))
  | .array items => ofItems? items
  | _ => none

def read? (s : String) : Option Project :=
  (Json.read? s).bind ofValue?

/-! ### Settings -/

def patterns (p : Project) : List String :=
  match p.included with
  | none | some [] => [defaultPattern]
  | some patterns => patterns

def outDirFrom (p : Project) (base : Path) : Option Path :=
  p.outDir.map base.join

def options (p : Project) : Options where
  warningsAsErrors := p.warningsAsErrors.getD false
  indentWidth := p.indentWidth.getD 4

end Project

end TuiMarkup
