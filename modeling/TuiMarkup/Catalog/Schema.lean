import TuiMarkup.Catalog.Basic

/-!
Catalogs written as lines of text.

A control line is `Name=Output.Type:flag:flag|member,member`. The flags are `container`, `generic`,
`button-slot` and `action`. A member is an event `*Name=Delegate`, an obsolete event
`*~Name>Replacement=Delegate`, or `<>Property>ChangeEvent` for a property that can be bound both ways.

A scope line is `Scope|property,property`. A mark in front of a property gives its type; a property
without a mark is a string, and `%Name=Full.Type` has a type of its own.

Lines and members that do not have these forms are passed over.
-/

namespace TuiMarkup.Schema

inductive Member where
  | event (name : String) (entry : EventEntry)
  | twoWay (property changeEvent : String)
deriving DecidableEq, Repr

structure ControlLine where
  name : String
  control : Control
  members : List Member
deriving DecidableEq, Repr

structure ScopeLine where
  scope : String
  properties : List (String × PropertyType)
deriving DecidableEq, Repr

def setFlag (c : Control) (flag : String) : Control :=
  if flag = "container" then { c with isContainer := true }
  else if flag = "generic" then { c with isGeneric := true }
  else if flag = "button-slot" then { c with hasButtonSlot := true }
  else if flag = "action" then { c with isActionButton := true }
  else c

def readControl (s : String) : Control :=
  match Text.pieces ':' s with
  | [] => { outputType := "" }
  | type :: flags => flags.foldl setFlag { outputType := type }

def readEvent? (s : String) : Option Member := do
  let (obsolete, s) := match Text.afterStart? "~" s with
    | some rest => (true, rest)
    | none => (false, s)
  let (names, delegateType) ← Text.cutFirst '=' s
  let (name, replacement) := match Text.cutFirst '>' names with
    | some (name, replacement) => (name, some replacement)
    | none => (names, none)
  if name = "" then none else some (.event name { delegateType, obsolete, replacement })

def readMember? (s : String) : Option Member :=
  match Text.afterStart? "<>" s with
  | some rest => (Text.cutFirst '>' rest).map fun (property, event) => .twoWay property event
  | none => (Text.afterStart? "*" s).bind readEvent?

def readControlLine? (line : String) : Option ControlLine := do
  let (head, members) ← Text.cutFirst '|' line
  let (name, type) ← Text.cutFirst '=' head
  return { name, control := readControl type,
           members := (Text.pieces ',' members).filterMap readMember? }

def readProperty (s : String) : String × PropertyType :=
  match s.toList with
  | '!' :: cs => (String.ofList cs, .bool)
  | '#' :: cs => (String.ofList cs, .int)
  | '$' :: cs => (String.ofList cs, .float)
  | '@' :: cs => (String.ofList cs, .array)
  | '^' :: cs => (String.ofList cs, .layout)
  | '&' :: cs => (String.ofList cs, .command)
  | '%' :: cs =>
    match Text.cutFirst '=' (String.ofList cs) with
    | some (name, type) => (name, .qualified type)
    | none => (String.ofList cs, .string)
  | _ => (s, .string)

def readScopeLine? (line : String) : Option ScopeLine := do
  let (scope, properties) ← Text.cutFirst '|' line
  return { scope, properties := ((Text.pieces ',' properties).filter (· != "")).map readProperty }

end TuiMarkup.Schema

namespace TuiMarkup.Catalog

def addMember (type : String) (c : Catalog) : Schema.Member → Catalog
  | .event name entry =>
    { c with
      events := c.events.upsert type fun t => (t.getD {}).put name entry
      eventNames := if c.eventNames.contains name then c.eventNames else c.eventNames ++ [name] }
  | .twoWay property event =>
    { c with changeEvents := c.changeEvents.upsert type fun t => (t.getD {}).put property event }

/-- Adds a control. An earlier line of the same name loses its class and flags and keeps its
members. -/
def addControl (c : Catalog) (line : Schema.ControlLine) : Catalog :=
  line.members.foldl (addMember line.name) { c with controls := c.controls.put line.name line.control }

def addScope (c : Catalog) (line : Schema.ScopeLine) : Catalog :=
  { c with
    scopes := c.scopes.upsert line.scope fun t =>
      line.properties.foldl (fun t (name, type) => t.put name type) (t.getD {}) }

def ofSchema (controlLines scopeLines : List String) : Catalog :=
  let c := (controlLines.filterMap Schema.readControlLine?).foldl addControl {}
  (scopeLines.filterMap Schema.readScopeLine?).foldl addScope c

end TuiMarkup.Catalog
