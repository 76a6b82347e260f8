import TuiMarkup.Code.Fields

/-!
Bindings of a document: which properties of which controls are bound to what, and what follows from
it for the generated class.
-/

namespace TuiMarkup

structure BoundProperty where
  property : String
  binding : Binding
  isCommand : Bool
deriving DecidableEq, Repr

structure BoundControl where
  index : Nat
  type : String
  field : String
  properties : List BoundProperty
deriving DecidableEq, Repr

structure Target where
  type : String
  field : String
  property : String
  binding : Binding
  isCommand : Bool
deriving DecidableEq, Repr

def BoundControl.targets (c : BoundControl) : List Target :=
  c.properties.map fun p => ⟨c.type, c.field, p.property, p.binding, p.isCommand⟩

def boundProperties (catalog : Catalog) (context : Option String) (t : Tag) : List BoundProperty :=
  (t.properties.filter fun a => isBindingValue a.value).filterMap fun a =>
    (Binding.read? a.value context).map fun binding =>
      { property := a.key, binding, isCommand := catalog.property? a.key == some .command }

def boundControls (catalog : Catalog) (context : Option String) (fields : Fields) :
    List Tag → Except GenerationFault (List BoundControl)
  | [] => .ok []
  | t :: ts =>
    let properties := boundProperties catalog context t
    if properties.isEmpty then boundControls catalog context fields ts
    else do
      let field ← fields.reference t.index
      return { index := t.index, type := t.type, field, properties } ::
        (← boundControls catalog context fields ts)

namespace Target

def assignment (t : Target) : String :=
  t.field ++ "." ++ t.property ++ " = " ++ t.binding.source ++ ";"

def handler (t : Target) : String :=
  "On" ++ (if t.field = Fields.self then t.type else t.field) ++ t.property ++ "Changed"

end Target

structure Reverse where
  target : Target
  changeEvent : String
  argumentType : String
deriving DecidableEq, Repr

def Target.reverse? (catalog : Catalog) (t : Target) : Option Reverse :=
  if t.binding.mode = .twoWay ∧ !t.isCommand then
    (catalog.changeEvent? t.type t.property).map fun changeEvent =>
      { target := t, changeEvent
        argumentType :=
          ((catalog.event? t.type changeEvent).map (·.argumentType)).getD defaultArguments }
  else none

structure Wiring where
  source : Option String
  targets : List Target
  reverses : List Reverse
deriving DecidableEq, Repr

namespace Wiring

def detectSource (targets : List Target) : Option String :=
  (targets.find? (·.binding.isQualified)).map (·.binding.root)

def make (catalog : Catalog) (context : Option String) (bound : List BoundControl) : Wiring :=
  let targets := bound.flatMap (·.targets)
  { source := context.orElse fun _ => detectSource targets
    targets
    reverses := targets.filterMap (·.reverse? catalog) }

def commands (w : Wiring) : List Target :=
  w.targets.filter (·.isCommand)

def addCase (cases : Table (List String)) (t : Target) : Table (List String) :=
  cases.upsert t.binding.member fun old =>
    let assignments := old.getD []
    if assignments.contains t.assignment then assignments else assignments ++ [t.assignment]

def cases (w : Wiring) : Table (List String) :=
  (w.targets.filter fun t => !t.isCommand).foldl addCase {}

end Wiring

end TuiMarkup
