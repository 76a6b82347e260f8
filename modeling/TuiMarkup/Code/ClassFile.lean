import TuiMarkup.Code.Initializer
import TuiMarkup.Code.Page
import TuiMarkup.Code.Wiring

/-!
The class that is generated for a document: its fields, the method that builds the controls, and,
when something is bound, the methods that keep controls and sources in step.
-/

namespace TuiMarkup

structure ClassFile where
  space : Option String
  name : String
  base : String
  /-- Types and names. -/
  fields : List (String × String)
  statements : List Statement
  wiring : Option Wiring

namespace ClassFile

def usings : List String :=
  ["System", "System.ComponentModel", "Terminal.Gui", "Terminal.Gui.Views", "Terminal.Gui.ViewBase"]

def changeHandler : String := "OnViewModelPropertyChanged"

def activationEvent : String := "Accepting"

def splitName (className : String) : Option String × String :=
  match Text.cutLast '.' className with
  | some (space, name) => (some space, name)
  | none => (none, className)

def ofDocument (catalog : Catalog) (d : Document) (context : Option String) :
    Except GenerationFault ClassFile := do
  let fields := Fields.build catalog d
  let bound ← boundControls catalog context fields d.tags
  let base ← fields.outputType d.root.tag.index
  let statements ← Initializer.statements catalog fields d
  let (space, name) := splitName d.className
  return { space, name, base, fields := fields.declarations, statements
           wiring := if bound.isEmpty then none else some (Wiring.make catalog context bound) }

/-! ### Methods -/

abbrev Printing := Except UnbalancedIndent Page

def printInitializer (p : Page) (c : ClassFile) : Printing :=
  let p := p.println "private void InitializeComponent()"
  let p := p.openBlock
  let p := c.statements.foldl (fun p s => p.println s.text) p
  let p := if c.wiring.isSome then p.blank.println "SetupBindings();" else p
  p.closeBlock "\x7d"

def printGuard (p : Page) (source : String) : Page :=
  let p := p.println ("if (" ++ source ++ " == null) throw new InvalidOperationException(\"" ++
    source ++ " property must be set before calling InitializeComponent\");")
  p.blank

def printActivation (p : Page) (t : Target) : Printing := do
  let source := t.binding.source
  let p := p.println ("// Wire up command: " ++ source)
  let p := p.println (t.field ++ "." ++ activationEvent ++ " += (s, e) => \x7b")
  let p := p.inset
  let p := p.println ("if (" ++ source ++ "?.CanExecute(null) == true)")
  let p := p.inset
  let p := p.println (source ++ ".Execute(null);")
  let p ← p.outset
  p.closeBlock "\x7d;"

def printInitial (p : Page) (t : Target) : Printing :=
  if t.isCommand then printActivation p t else .ok (p.println t.assignment)

def subscription (r : Reverse) : String :=
  r.target.field ++ "." ++ r.changeEvent ++ " += " ++ r.target.handler ++ ";"

def printEnabling (p : Page) (t : Target) : Printing := do
  let source := t.binding.source
  let enable := t.field ++ ".Enabled = " ++ source ++ ".CanExecute(null);"
  let p := p.println ("// Subscribe to CanExecuteChanged for " ++ t.field)
  let p := p.println ("if (" ++ source ++ " != null)")
  let p := p.openBlock
  let p := p.println (source ++ ".CanExecuteChanged += (s, e) => \x7b")
  let p := p.inset
  let p := p.println enable
  let p ← p.closeBlock "\x7d;"
  let p := p.println "// Set initial Enabled state"
  let p := p.println enable
  p.closeBlock "\x7d"

def printSetup (p : Page) (w : Wiring) : Printing := do
  let p := p.println "private void SetupBindings()"
  let p := p.openBlock
  let p := (w.source.map (printGuard p)).getD p
  let p ← w.targets.foldlM printInitial p
  let p := p.blank
  let p := p.println "// Subscribe to property changes"
  let p := p.println
    ((w.source.map (· ++ ".")).getD "" ++ "PropertyChanged += " ++ changeHandler ++ ";")
  let p := w.reverses.foldl (fun p r => p.println (subscription r)) p
  let p ← w.commands.foldlM printEnabling p
  p.closeBlock "\x7d"

def printCase (p : Page) (member : String) (assignments : List String) : Printing :=
  let p := p.println ("case \"" ++ member ++ "\":")
  let p := p.inset
  let p := assignments.foldl Page.println p
  let p := p.println "break;"
  p.outset

def printDispatcher (p : Page) (w : Wiring) : Printing := do
  let p := p.println
    ("private void " ++ changeHandler ++ "(object? sender, PropertyChangedEventArgs e)")
  let p := p.openBlock
  let p := p.println "switch (e.PropertyName)"
  let p := p.openBlock
  let p ← w.cases.entries.foldlM (fun p (m, as) => printCase p m as) p
  let p ← p.closeBlock "\x7d"
  p.closeBlock "\x7d"

def printReverse (p : Page) (r : Reverse) : Printing := do
  let source := r.target.binding.source
  let target := r.target.field ++ "." ++ r.target.property
  let p := p.blank
  let p := p.println
    ("private void " ++ r.target.handler ++ "(object? sender, " ++ r.argumentType ++ " e)")
  let p := p.openBlock
  let p := p.println ("if (" ++ source ++ " != " ++ target ++ ")")
  let p := p.inset
  let p := p.println (source ++ " = " ++ target ++ ";")
  let p ← p.outset
  p.closeBlock "\x7d"

def printWiring (p : Page) (w : Wiring) : Printing := do
  let p := p.blank
  let p ← printSetup p w
  let p := p.blank
  let p ← printDispatcher p w
  w.reverses.foldlM printReverse p

/-! ### The file -/

def printClass (p : Page) (c : ClassFile) : Printing := do
  let p := p.println ("partial class " ++ c.name ++ " : " ++ c.base)
  let p := p.openBlock
  let p := c.fields.foldl
    (fun p (type, name) => p.println ("private " ++ type ++ " " ++ name ++ " = null!;")) p
  let p := p.blank
  let p ← printInitializer p c
  let p ← match c.wiring with
    | some w => printWiring p w
    | none => .ok p
  p.closeBlock "\x7d"

def print (p : Page) (c : ClassFile) : Printing :=
  let p := p.println "// <auto-generated />"
  let p := p.println "#nullable enable"
  let p := p.blank
  let p := usings.foldl (fun p name => p.println ("using " ++ name ++ ";")) p
  let p := p.blank
  match c.space with
  | some space => do
    let p := p.println ("namespace " ++ space)
    let p := p.openBlock
    let p ← printClass p c
    p.closeBlock "\x7d"
  | none => printClass p c

def render (c : ClassFile) (width : Nat) : Except GenerationFault String :=
  match (print (Page.new 0) c).bind (·.render width) with
  | .ok text => .ok text
  | .error _ => .error .unbalancedIndent

end ClassFile

namespace Document

def generationDiagnostics (catalog : Catalog) (d : Document) : List Diagnostic :=
  Fields.diagnostics catalog d ++ Initializer.diagnostics catalog d

def generate (catalog : Catalog) (d : Document) (context : Option String) (indentWidth : Nat) :
    Except GenerationFault String := do
  let c ← ClassFile.ofDocument catalog d context
  c.render indentWidth

end Document

end TuiMarkup
