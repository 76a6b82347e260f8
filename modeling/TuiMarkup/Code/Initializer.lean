import TuiMarkup.Code.Fields
import TuiMarkup.Code.Literal

/-!
The statements that build the controls of a document: each control is made, its properties and
events are set, and its children are built and attached to it one after the other.
-/

namespace TuiMarkup

inductive Statement where
  | nameRoot (name : String)
  | construct (reference type : String)
  | assign (reference property code : String)
  | subscribe (reference event handler : String)
  | attach (parent child : String) (toButtonSlot : Bool)
deriving DecidableEq, Repr

def Statement.text : Statement → String
  | nameRoot name => name ++ " = " ++ Fields.self ++ ";"
  | construct reference type => reference ++ " = new " ++ type ++ "();"
  | assign reference property code => reference ++ "." ++ property ++ " = " ++ code ++ ";"
  | subscribe reference event handler => reference ++ "." ++ event ++ " += " ++ handler ++ ";"
  | attach parent child toButtonSlot =>
    parent ++ (if toButtonSlot then ".AddButton(" else ".Add(") ++ child ++ ");"

namespace Initializer

def literals (catalog : Catalog) (t : Tag) : List (Attribute × Literal) :=
  (t.properties.filter fun a => !isBindingValue a.value).map fun a =>
    (a, Literal.ofValue a.value (catalog.property? a.key))

def obsoleteEvent? (catalog : Catalog) (t : Tag) (a : Attribute) : Option EventEntry :=
  (catalog.event? t.type a.key).filter (·.obsolete)

/-- The statements for one control. Handlers of obsolete events are left out. -/
def control (catalog : Catalog) (fields : Fields) (root : Nat) (t : Tag) :
    Except GenerationFault (List Statement) := do
  let reference ← fields.reference t.index
  let type ← fields.outputType t.index
  let make := if t.index = root then [] else [.construct reference type]
  let assignments := (literals catalog t).map fun (a, l) => .assign reference a.key l.code
  let handlers := (t.events.filter fun a => (obsoleteEvent? catalog t a).isNone).map fun a =>
    .subscribe reference a.key (Text.trim a.value)
  return make ++ assignments ++ handlers

def attachment (catalog : Catalog) (fields : Fields) (parent child : Tag) :
    Except GenerationFault Statement := do
  let p ← fields.reference parent.index
  let c ← fields.reference child.index
  return .attach p c (catalog.usesButtonSlot parent.type child.type)

/-- What is left to do: a control to build with all below it, or one to attach. -/
inductive Task where
  | build (e : Element)
  | attach (parent child : Tag)

def Task.weight : Task → Nat
  | build e => 2 * Element.sizeAll e.children + 1
  | attach _ _ => 1

def Task.weightAll : List Task → Nat
  | [] => 0
  | t :: ts => t.weight + weightAll ts

theorem weightAll_append (ts us : List Task) :
    Task.weightAll (ts ++ us) = Task.weightAll ts + Task.weightAll us := by
  induction ts with
  | nil => simp [Task.weightAll]
  | cons t ts ih => simp [Task.weightAll, ih, Nat.add_assoc]

def childTasks (e : Element) : List Task :=
  e.children.flatMap fun c => [.build c, .attach e.tag c.tag]

theorem weightAll_childTasks (t : Tag) (cs : List Element) :
    Task.weightAll (cs.flatMap fun c => [.build c, .attach t c.tag]) = 2 * Element.sizeAll cs := by
  induction cs with
  | nil => rfl
  | cons c cs ih =>
    obtain ⟨tag, children⟩ := c
    rw [List.flatMap_cons, weightAll_append, ih]
    simp only [Task.weightAll, Task.weight, Element.sizeAll, Element.size]
    omega

theorem weightAll_build (e : Element) (rest : List Task) :
    Task.weightAll (childTasks e ++ rest) < Task.weightAll (.build e :: rest) := by
  rw [weightAll_append, childTasks, weightAll_childTasks, Task.weightAll, Task.weight]
  omega

/-- Does the tasks in turn. The list of tasks takes the place of nested calls, so that deep documents
need no deep stack. -/
def run (catalog : Catalog) (fields : Fields) (root : Nat) :
    List Task → Except GenerationFault (List Statement)
  | [] => .ok []
  | .build e :: rest => do
    let here ← control catalog fields root e.tag
    return here ++ (← run catalog fields root (childTasks e ++ rest))
  | .attach parent child :: rest => do
    let here ← attachment catalog fields parent child
    return here :: (← run catalog fields root rest)
termination_by ts => Task.weightAll ts
decreasing_by
  · exact weightAll_build e rest
  · simp [Task.weightAll, Task.weight]

def statements (catalog : Catalog) (fields : Fields) (d : Document) :
    Except GenerationFault (List Statement) := do
  let rest ← run catalog fields d.root.tag.index [.build d.root]
  return (d.root.tag.explicitName?.map Statement.nameRoot).toList ++ rest

def problems (catalog : Catalog) (t : Tag) : List Problem :=
  ((literals catalog t).filterMap fun (a, l) =>
    l.expected?.map fun expected => .invalidPropertyValue a.key a.value expected) ++
  t.events.filterMap fun a =>
    (obsoleteEvent? catalog t a).map fun e => .obsoleteEventUsed a.key t.type e.replacement

/-- What is said while the tasks are done. It is said of a control when it is built, and attaching it
says nothing more. -/
def remarks (catalog : Catalog) (path : String) : List Task → List Diagnostic
  | [] => []
  | .build e :: rest =>
    (problems catalog e.tag).map (Diagnostic.of · path e.tag.line e.tag.column) ++
      remarks catalog path (childTasks e ++ rest)
  | .attach _ _ :: rest => remarks catalog path rest
termination_by ts => Task.weightAll ts
decreasing_by
  · exact weightAll_build e rest
  · simp [Task.weightAll, Task.weight]

def diagnostics (catalog : Catalog) (d : Document) : List Diagnostic :=
  remarks catalog d.path [.build d.root]

end Initializer

end TuiMarkup
