import TuiMarkup.Markup.Element
import TuiMarkup.Markup.Scan

/-!
The tree that a list of tokens describes. The tokens are taken one at a time; what has been opened
and not yet closed waits on a stack. The first fault ends the reading, and a root that was complete
by then is kept.
-/

namespace TuiMarkup.Markup

structure RawAttribute where
  key : String
  value : String
  span : Span
deriving DecidableEq, Repr

structure StartTag where
  name : String
  span : Span
  attributes : List RawAttribute := []
deriving DecidableEq, Repr

/-- An element that is open, with the children it has so far, the last one first. -/
structure OpenElement where
  name : String
  tag : Tag
  children : List Element := []

inductive Place where
  | content
  | tag (start : StartTag)
  | attribute (start : StartTag) (name : String) (span : Span)
deriving DecidableEq, Repr

structure Builder where
  place : Place := .content
  opened : List OpenElement := []
  root : Option Element := none
  count : Nat := 0

namespace Builder

/-- Puts a closed element under the innermost open one; without one it is the root. -/
def add (b : Builder) (e : Element) : Builder :=
  match b.opened with
  | [] => { b with root := some e }
  | o :: os => { b with opened := { o with children := e :: o.children } :: os }

def makeTag (catalog : Catalog) (index : Nat) (start : StartTag) (stop : Location) : Tag where
  index
  type := localName start.name
  attributes :=
    (start.attributes.mergeSort fun a b => decide (a.key ≤ b.key)).map fun a =>
      { key := a.key, value := a.value, kind := .of catalog a.key a.value, span := a.span }
  line := start.span.start.line + 1
  column := start.span.start.column + 2
  span := ⟨start.span.start, stop⟩

def contentToken (b : Builder) (t : Token) : Except Fault Builder :=
  match t.content with
  | .tagStart name =>
    if b.opened.isEmpty && b.root.isSome then .error ⟨.secondRoot name, t.span⟩
    else .ok { b with place := .tag { name, span := t.span } }
  | .tagClose name =>
    match b.opened with
    | [] => .error ⟨.strayClose name, t.span⟩
    | o :: os =>
      if o.name = name then
        let tag := { o.tag with span := ⟨o.tag.span.start, t.span.stop⟩ }
        .ok ({ b with opened := os }.add ⟨tag, o.children.reverse⟩)
      else .error ⟨.mismatchedClose name o.name, t.span⟩
  | .text value | .cdata value =>
    if b.opened.isEmpty && !value.toList.all isSpace then .error ⟨.textOutsideRoot, t.span⟩
    else .ok b
  | .comment _ | .instruction _ => .ok b
  | .doctype => .error ⟨.doctype, t.span⟩
  | .eof =>
    match b.opened with
    | o :: _ => .error ⟨.unclosed o.name, o.tag.span⟩
    | [] => if b.root.isNone then .error ⟨.noRoot, t.span⟩ else .ok b
  | .attributeName _ | .attributeValue _ | .tagEnd | .tagEndVoid => .error ⟨.strayToken, t.span⟩

def tagToken (catalog : Catalog) (b : Builder) (start : StartTag) (t : Token) :
    Except Fault Builder :=
  match t.content with
  | .attributeName name => .ok { b with place := .attribute start name t.span }
  | .tagEnd =>
    let tag := makeTag catalog b.count start t.span.stop
    .ok { b with place := .content, count := b.count + 1,
                 opened := { name := start.name, tag } :: b.opened }
  | .tagEndVoid =>
    let tag := makeTag catalog b.count start t.span.stop
    .ok ({ b with place := .content, count := b.count + 1 }.add ⟨tag, []⟩)
  | _ => .error ⟨.strayTokenInTag, t.span⟩

def attributeToken (b : Builder) (start : StartTag) (name : String) (span : Span) (t : Token) :
    Except Fault Builder :=
  match t.content with
  | .attributeValue value =>
    if start.attributes.any (·.key == name) then .error ⟨.duplicateAttribute name, span⟩
    else
      let a := { key := name, value, span := ⟨span.start, t.span.stop⟩ }
      .ok { b with place := .tag { start with attributes := start.attributes ++ [a] } }
  | _ => .error ⟨.missingValue name, span⟩

def next (catalog : Catalog) (b : Builder) (t : Token) : Except Fault Builder :=
  match b.place with
  | .content => b.contentToken t
  | .tag start => b.tagToken catalog start t
  | .attribute start name span => b.attributeToken start name span t

def endFault? (b : Builder) : Option Fault :=
  match b.place with
  | .content => none
  | .tag start => some ⟨.unexpectedEnd, start.span⟩
  | .attribute _ name span => some ⟨.missingValue name, span⟩

end Builder

structure Tree where
  root : Option Element
  fault : Option Fault

def Tree.build (catalog : Catalog) (b : Builder) : List Token → Tree
  | [] => { root := b.root, fault := b.endFault? }
  | t :: ts =>
    match b.next catalog t with
    | .ok b => build catalog b ts
    | .error fault => { root := b.root, fault }

def Tree.read (catalog : Catalog) (source : String) : Tree :=
  let r := tokenize source
  match r.fault with
  | some fault => { root := none, fault }
  | none => build catalog {} r.tokens

end TuiMarkup.Markup
