import TuiMarkup.Code.ClassFile
import TuiMarkup.Validation

/-!
Compiling documents: a document is read and checked, and code is written for it unless something
stands against it.
-/

namespace TuiMarkup

/-- Properties of classes with their types, to find a property by its type. -/
abbrev TypeMap := Table (Table String)

namespace TypeMap

def insert (m : TypeMap) (className property type : String) : TypeMap :=
  m.upsert className fun t => (t.getD {}).put property type

def propertyOfType? (m : TypeMap) (className type : String) : Option String :=
  (m.get? className).bind fun t => (t.entries.find? (·.2 == type)).map (·.1)

end TypeMap

abbrev TypeResolver := (className type : String) → Option String

/-- The member that bindings start from. A hint without a dot is that member; any other is its type. -/
def dataContext (hint : Option String) (className : String) (resolver : TypeResolver) :
    Option String := do
  let hint ← hint.bind Text.trimmed?
  if Text.hasChar '.' hint then resolver className hint else some hint

structure Options where
  warningsAsErrors : Bool := false
  indentWidth : Nat := 4
deriving DecidableEq, Repr

structure Output where
  generated : Option String
  diagnostics : List Diagnostic
deriving DecidableEq, Repr

def Output.hasErrors (o : Output) : Bool :=
  o.diagnostics.any (·.isError)

def Document.emit (catalog : Catalog) (resolver : TypeResolver) (options : Options) (d : Document)
    (found : List Diagnostic) : Output :=
  match d.generate catalog (dataContext d.dataType d.className resolver) options.indentWidth with
  | .ok text =>
    { generated := some text, diagnostics := found ++ d.generationDiagnostics catalog }
  | .error fault =>
    { generated := none, diagnostics := found ++ [.of (.parseError fault.message) d.path] }

def compile (catalog : Catalog) (resolver : TypeResolver) (options : Options) (source path : String) :
    Output :=
  match Document.read catalog source path with
  | .error d => { generated := none, diagnostics := [d] }
  | .ok document =>
    let found := document.validate catalog
    let found := if options.warningsAsErrors then found.map (·.raised) else found
    if Diagnostic.blocks found options.warningsAsErrors then
      { generated := none, diagnostics := found }
    else document.emit catalog resolver options found

structure Source where
  path : String
  text : String
deriving DecidableEq, Repr

def compileAll (catalog : Catalog) (resolver : TypeResolver) (options : Options)
    (sources : List Source) : List Output :=
  sources.map fun s => compile catalog resolver options s.text s.path

end TuiMarkup
