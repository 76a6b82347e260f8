import TuiMarkup.Diagnostic.Basic
import TuiMarkup.Markup.Tree

/-!
Documents: markup with one root that names the class to write.
-/

namespace TuiMarkup.Document

def ofRoot (root : Element) (path : String) : Except Diagnostic Document :=
  match (root.tag.attribute? "x:Class").bind Text.trimmed? with
  | none => .error (.of .missingClassName path root.tag.line root.tag.column)
  | some className =>
    .ok { root, path, className, dataType := (root.tag.attribute? "x:DataType").bind Text.trimmed? }

def read (catalog : Catalog) (source path : String) : Except Diagnostic Document :=
  if (Text.trim source) = "" then .error (.of .emptyDocument path)
  else
    let tree := Markup.Tree.read catalog source
    match tree.fault with
    | some f =>
      .error (.of (.malformedMarkup f.message) path (f.span.start.line + 1) (f.span.start.column + 1))
    | none =>
      match tree.root with
      | some root => ofRoot root path
      | none => .error (.of (.parseError "no element tree was produced") path)

end TuiMarkup.Document
