import Mathlib.Tactic.Lemma
import TuiMarkup.Code.ClassFile
import TuiMarkup.Proofs.Plan

/-! The class of a document can be made, whatever the document. -/

namespace TuiMarkup.Proofs.Generation

open DocumentOrder Slots Plan

def boundControl? (catalog : Catalog) (context : Option String) (f : Fields) (t : Tag) :
    Option BoundControl :=
  let properties := boundProperties catalog context t
  if properties.isEmpty then none else some ⟨t.index, t.type, called f t.index, properties⟩

theorem boundControls_eq (catalog : Catalog) (context : Option String) {f : Fields} {ts : List Tag}
    (h : ∀ t ∈ ts, Covers f t) :
    boundControls catalog context f ts = .ok (ts.filterMap (boundControl? catalog context f)) := by
  induction ts with
  | nil => rfl
  | cons t ts ih =>
    obtain ⟨ht, hts⟩ := List.forall_mem_cons.mp h
    rw [boundControls, List.filterMap_cons, boundControl?, ih hts, ht.reference]
    cases (boundProperties catalog context t).isEmpty <;> rfl

def bound (catalog : Catalog) (d : Document) (context : Option String) : List BoundControl :=
  d.tags.filterMap (boundControl? catalog context (Fields.build catalog d))

theorem bound_eq (catalog : Catalog) (d : Document) (context : Option String) :
    boundControls catalog context (Fields.build catalog d) d.tags =
      .ok (bound catalog d context) :=
  boundControls_eq catalog context fun _ => covers_of_mem catalog

def classOf (catalog : Catalog) (d : Document) (context : Option String) : ClassFile where
  space := (ClassFile.splitName d.className).1
  name := (ClassFile.splitName d.className).2
  base := made (Fields.build catalog d) d.root.tag.index
  fields := (Fields.build catalog d).declarations
  statements := documentPlan catalog d
  wiring :=
    if (bound catalog d context).isEmpty then none
    else some (Wiring.make catalog context (bound catalog d context))

theorem ofDocument_eq (catalog : Catalog) (d : Document) (context : Option String) :
    ClassFile.ofDocument catalog d context = .ok (classOf catalog d context) := by
  have hb := (covers_of_mem catalog (tag_mem_tags (mem_preorder_self d.root))).outputType
  rw [ClassFile.ofDocument, bound_eq, hb, statements_eq]
  rfl

end TuiMarkup.Proofs.Generation
