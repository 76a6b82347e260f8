import TuiMarkup.Markup.Document

/-!
Checks of a document against the catalog. All that is wrong is reported, element by element in
document order.
-/

namespace TuiMarkup

namespace Validation

def structureProblems (e : Element) (control : Control) : List Problem :=
  if control.isContainer then []
  else if e.tag.index = 0 then [.rootNotContainer e.tag.type]
  else if e.children.isEmpty then []
  else [.childOfNonContainer e.tag.type]

def propertyProblems (catalog : Catalog) (type : String) (a : Attribute) : List Problem :=
  if !isBindingValue a.value then []
  else
    match Binding.read? a.value none with
    | none => [.invalidBindingExpression (Text.trim a.value)]
    | some b =>
      if (catalog.control? type).isSome && b.mode == .twoWay
          && (catalog.changeEvent? type a.key).isNone then
        [.unsupportedTwoWayBinding type a.key]
      else []

def eventProblems (catalog : Catalog) (type : String) (a : Attribute) : List Problem :=
  (if (catalog.control? type).isSome && (catalog.event? type a.key).isNone then
    [.unknownEvent type a.key] else []) ++
  (if Text.trim a.value = "" then [.emptyEventHandler a.key] else [])

def attributeProblems (catalog : Catalog) (type : String) (a : Attribute) : List Problem :=
  match a.kind with
  | .property => propertyProblems catalog type a
  | .event => eventProblems catalog type a
  | .reserved => []

/-- What is wrong with an element, when the elements before it have the names `seen`. -/
def elementProblems (catalog : Catalog) (seen : List String) (e : Element) : List Problem :=
  let control := catalog.control? e.tag.type
  (if control.isNone then [.unknownControlType e.tag.type catalog.controlNames] else []) ++
  (match e.tag.explicitName? with
    | some name => if seen.contains name then [.duplicateName name] else []
    | none => []) ++
  (match control with
    | some control => structureProblems e control
    | none => []) ++
  e.tag.attributes.flatMap (attributeProblems catalog e.tag.type)

def check (catalog : Catalog) (path : String) (seen : List String) : List Element → List Diagnostic
  | [] => []
  | e :: es =>
    (elementProblems catalog seen e).map (Diagnostic.of · path e.tag.line e.tag.column) ++
      check catalog path (e.tag.explicitName?.toList ++ seen) es

end Validation

def Document.validate (catalog : Catalog) (d : Document) : List Diagnostic :=
  Validation.check catalog d.path [] d.elements

end TuiMarkup
