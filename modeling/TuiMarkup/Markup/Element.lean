import TuiMarkup.Binding
import TuiMarkup.Catalog.Basic
import TuiMarkup.Markup.Location

/-!
Elements and documents. An element has the attributes of its start tag, sorted by key, and its
children in their order.
-/

namespace TuiMarkup

inductive AttributeKind where
  | property
  | event
  | reserved
deriving DecidableEq, Repr

/-- An attribute is told by its key, and an event also by its value, which names a handler and is
neither a binding nor code. -/
def AttributeKind.of (catalog : Catalog) (key value : String) : AttributeKind :=
  if Text.startsWith "x:" key || Text.startsWith "xmlns" key then reserved
  else if catalog.isKnownEvent key && !isBindingValue value && !looksLikeCode value then event
  else property

structure Attribute where
  key : String
  value : String
  kind : AttributeKind
  span : Span
deriving DecidableEq, Repr

structure Tag where
  /-- The number of elements before it. -/
  index : Nat
  type : String
  attributes : List Attribute
  /-- Line and column of the name, counted from one. -/
  line : Nat
  column : Nat
  span : Span
deriving DecidableEq, Repr

namespace Tag

def attribute? (t : Tag) (key : String) : Option String :=
  (t.attributes.find? (·.key == key)).map (·.value)

def explicitName? (t : Tag) : Option String :=
  (t.attribute? "x:Name").bind Text.trimmed?

def genericArgument? (t : Tag) : Option String :=
  (t.attribute? "x:Type").bind Text.trimmed?

def properties (t : Tag) : List Attribute :=
  t.attributes.filter (·.kind == .property)

def events (t : Tag) : List Attribute :=
  t.attributes.filter (·.kind == .event)

end Tag

structure Element where
  tag : Tag
  children : List Element
deriving Repr

namespace Element

mutual

def size : Element → Nat
  | ⟨_, children⟩ => sizeAll children + 1

def sizeAll : List Element → Nat
  | [] => 0
  | e :: es => e.size + sizeAll es

end

theorem sizeAll_append (es fs : List Element) : sizeAll (es ++ fs) = sizeAll es + sizeAll fs := by
  induction es with
  | nil => simp [sizeAll]
  | cons e es ih => simp [sizeAll, ih, Nat.add_assoc]

/-- All elements of the trees, each before its children and those before its next sibling. The list
is also what is left to visit, so that deep trees need no deep calls. -/
def walk : List Element → List Element
  | [] => []
  | e :: rest => e :: walk (e.children ++ rest)
termination_by es => sizeAll es
decreasing_by
  obtain ⟨tag, children⟩ := e
  simp only [sizeAll, size, sizeAll_append]
  omega

def descendants (e : Element) : List Element :=
  walk [e]

end Element

structure Document where
  root : Element
  path : String
  className : String
  dataType : Option String

namespace Document

def elements (d : Document) : List Element :=
  d.root.descendants

def tags (d : Document) : List Tag :=
  d.elements.map (·.tag)

end Document

end TuiMarkup
