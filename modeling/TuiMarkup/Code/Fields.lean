import TuiMarkup.Diagnostic.Basic
import TuiMarkup.Markup.Element

/-!
The names and types that elements have in the generated class. An element keeps the name it is given
in the document. Of the others the root is the object itself, and the rest get names made from their
types and counted up, past those that the document uses.
-/

namespace TuiMarkup

inductive GenerationFault where
  | missingIdentifier (index : Nat)
  | unbalancedIndent
deriving DecidableEq, Repr

def GenerationFault.message : GenerationFault → String
  | missingIdentifier index => "no field identifier assigned to element #" ++ toString index
  | unbalancedIndent => "unbalanced indentation in generated output"

structure Slot where
  index : Nat
  /-- What statements call the element. -/
  reference : String
  /-- The field that is declared for it; the root without a name has none. -/
  field : Option String
  outputType : String
deriving DecidableEq, Repr

structure Fields where
  slots : List Slot
deriving DecidableEq, Repr

namespace Fields

def self : String := "this"

def unknownType : String := "object"

def madeName (type : String) (n : Nat) : String :=
  "__" ++ type ++ "_" ++ toString n

/-- The first number after `n` whose name is not taken. Among one more numbers than there are taken
names there is one. -/
def nextFree (taken : List String) (type : String) (n : Nat) : Nat :=
  ((List.range' (n + 1) (taken.length + 1)).find? fun m => !taken.contains (madeName type m)).getD
    (n + 1)

/-- The fields of the elements, where `counts` are the last numbers used for each type. -/
def names (taken : List String) (root : Nat) (counts : Table Nat) : List Tag → List (Option String)
  | [] => []
  | t :: ts =>
    match t.explicitName? with
    | some name => some name :: names taken root counts ts
    | none =>
      if t.index = root then none :: names taken root counts ts
      else
        let n := nextFree taken t.type ((counts.get? t.type).getD 0)
        some (madeName t.type n) :: names taken root (counts.put t.type n) ts

def outputTypeOf (catalog : Catalog) (t : Tag) : String :=
  (catalog.outputType? t.type t.genericArgument?).getD unknownType

def slotOf (catalog : Catalog) (t : Tag) (field : Option String) : Slot :=
  { index := t.index, reference := field.getD self, field, outputType := outputTypeOf catalog t }

def build (catalog : Catalog) (d : Document) : Fields :=
  let taken := d.tags.filterMap (·.explicitName?)
  { slots := List.zipWith (slotOf catalog) d.tags (names taken d.root.tag.index {} d.tags) }

def diagnostics (catalog : Catalog) (d : Document) : List Diagnostic :=
  (d.tags.filter fun t => (catalog.outputType? t.type t.genericArgument?).isNone).map fun t =>
    .of (.unknownControlTypeInGeneration t.type) d.path t.line t.column

def slot (f : Fields) (index : Nat) : Except GenerationFault Slot :=
  match f.slots.find? (·.index == index) with
  | some slot => .ok slot
  | none => .error (.missingIdentifier index)

def reference (f : Fields) (index : Nat) : Except GenerationFault String :=
  (f.slot index).map (·.reference)

def outputType (f : Fields) (index : Nat) : Except GenerationFault String :=
  (f.slot index).map (·.outputType)

def declarations (f : Fields) : List (String × String) :=
  f.slots.filterMap fun s => s.field.map fun name => (s.outputType, name)

end Fields

end TuiMarkup
