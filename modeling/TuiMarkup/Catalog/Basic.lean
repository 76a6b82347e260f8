import TuiMarkup.Text.Blank
import TuiMarkup.Text.Split
import TuiMarkup.Text.Table

/-!
The catalog of controls: what classes they become, which events they raise, which of their
properties can be written back, and what types properties have.
-/

namespace TuiMarkup

structure Control where
  outputType : String
  isContainer : Bool := false
  isGeneric : Bool := false
  /-- Its buttons have a place of their own beside its other children. -/
  hasButtonSlot : Bool := false
  /-- It goes to the button slot of a parent that has one. -/
  isActionButton : Bool := false
deriving DecidableEq, Repr

/-- The class of a control. A generic one is closed over the argument that is given for it. -/
def Control.outputTypeWith (c : Control) (argument : Option String) : String :=
  match argument.map Text.trim with
  | some a => if c.isGeneric && a != "" then c.outputType ++ "<" ++ a ++ ">" else c.outputType
  | none => c.outputType

def defaultArguments : String := "System.EventArgs"

/-- The `T` of a delegate `System.EventHandler<T>`, where `T` is not empty and stays on one line. -/
def argumentType (delegate : String) : String :=
  match (Text.afterStart? "System.EventHandler<" delegate).bind (Text.beforeEnd? ">") with
  | some t => if t != "" && !Text.hasChar '\n' t then t else defaultArguments
  | none => defaultArguments

structure EventEntry where
  delegateType : String
  obsolete : Bool := false
  replacement : Option String := none
deriving DecidableEq, Repr

def EventEntry.argumentType (e : EventEntry) : String :=
  TuiMarkup.argumentType e.delegateType

inductive PropertyType where
  | bool
  | int
  | float
  | string
  | array
  | layout
  | command
  | qualified (name : String)
deriving DecidableEq, Repr

structure Catalog where
  controls : Table Control := {}
  events : Table (Table EventEntry) := {}
  /-- For each control, the event that announces a change of a property. -/
  changeEvents : Table (Table String) := {}
  scopes : Table (Table PropertyType) := {}
  /-- The events that some control has, so that an attribute can be known for an event without
  knowing the control. -/
  eventNames : List String := []

namespace Catalog

def commonScope : String := "Common"

def control? (c : Catalog) (type : String) : Option Control :=
  c.controls.get? type

def isContainer (c : Catalog) (type : String) : Bool :=
  (c.control? type).any (·.isContainer)

def event? (c : Catalog) (type event : String) : Option EventEntry :=
  (c.events.get? type).bind (·.get? event)

def isKnownEvent (c : Catalog) (event : String) : Bool :=
  c.eventNames.contains event

def changeEvent? (c : Catalog) (type property : String) : Option String :=
  (c.changeEvents.get? type).bind (·.get? property)

/-- The type of a property in the common scope, or else in the first scope that has it. -/
def property? (c : Catalog) (property : String) : Option PropertyType :=
  ((c.scopes.get? commonScope).bind (·.get? property)).orElse fun _ =>
    (c.scopes.entries.filter (·.1 != commonScope)).findSome? (·.2.get? property)

def usesButtonSlot (c : Catalog) (parent child : String) : Bool :=
  (c.control? parent).any (·.hasButtonSlot) && (c.control? child).any (·.isActionButton)

def outputType? (c : Catalog) (type : String) (argument : Option String) : Option String :=
  (c.control? type).map (·.outputTypeWith argument)

def controlNames (c : Catalog) : List String :=
  c.controls.keys

end Catalog

end TuiMarkup
