import Mathlib.Tactic.Lemma
import TuiMarkup.Proofs.Policy

/-! Documents without places. Neither code nor reports make use of the places of elements and
attributes, but for saying where something was found. -/

namespace TuiMarkup.Proofs.Placeless

open DocumentOrder Slots Plan Generation Policy

variable {catalog : Catalog} {e : Element} {t : Tag} {d : Document}

def nowhere : Span := ⟨{}, {}⟩

def bareAttribute (a : Attribute) : Attribute :=
  { a with span := nowhere }

def bareTag (t : Tag) : Tag :=
  { t with attributes := t.attributes.map bareAttribute, line := 0, column := 0, span := nowhere }

mutual

def bare : Element → Element
  | ⟨tag, children⟩ => ⟨bareTag tag, bareAll children⟩

def bareAll : List Element → List Element
  | [] => []
  | e :: es => bare e :: bareAll es

end

def bareDocument (d : Document) : Document :=
  { d with root := bare d.root, path := "" }

lemma bareAll_eq_map (es : List Element) : bareAll es = es.map bare := by
  induction es with
  | nil => rfl
  | cons e es ih => rw [bareAll, ih, List.map_cons]

lemma bare_tag (e : Element) : (bare e).tag = bareTag e.tag := by
  obtain ⟨tag, children⟩ := e
  rw [bare]

lemma bare_children (e : Element) : (bare e).children = e.children.map bare := by
  obtain ⟨tag, children⟩ := e
  rw [bare, bareAll_eq_map]

/-! ### Tags -/

@[simp] lemma bareAttribute_key (a : Attribute) : (bareAttribute a).key = a.key := rfl

@[simp] lemma bareAttribute_value (a : Attribute) : (bareAttribute a).value = a.value := rfl

@[simp] lemma bareTag_index (t : Tag) : (bareTag t).index = t.index := rfl

@[simp] lemma bareTag_type (t : Tag) : (bareTag t).type = t.type := rfl

lemma attribute?_bareTag (t : Tag) (key : String) :
    (bareTag t).attribute? key = t.attribute? key := by
  simp [Tag.attribute?, bareTag, List.find?_map, Function.comp_def, bareAttribute]

lemma explicitName?_bareTag (t : Tag) : (bareTag t).explicitName? = t.explicitName? := by
  rw [Tag.explicitName?, attribute?_bareTag, Tag.explicitName?]

lemma genericArgument?_bareTag (t : Tag) : (bareTag t).genericArgument? = t.genericArgument? := by
  rw [Tag.genericArgument?, attribute?_bareTag, Tag.genericArgument?]

lemma properties_bareTag (t : Tag) : (bareTag t).properties = t.properties.map bareAttribute := by
  simp [Tag.properties, bareTag, List.filter_map, Function.comp_def, bareAttribute]

lemma events_bareTag (t : Tag) : (bareTag t).events = t.events.map bareAttribute := by
  simp [Tag.events, bareTag, List.filter_map, Function.comp_def, bareAttribute]

/-! ### Document order -/

lemma preorder_bare (e : Element) : preorder (bare e) = (preorder e).map bare := by
  induction e using element_induction with
  | h tag children ih =>
    have hc : preorderAll (children.map bare) = (preorderAll children).map bare := by
      induction children with
      | nil => rfl
      | cons c cs ihs =>
        obtain ⟨hc, hcs⟩ := List.forall_mem_cons.mp ih
        rw [List.map_cons, preorderAll, preorderAll, hc, ihs hcs, List.map_append]
    rw [preorder_eq, bare_children, hc, preorder, List.map_cons]

lemma elements_bare (d : Document) : (bareDocument d).elements = d.elements.map bare := by
  rw [elements_eq_preorder, elements_eq_preorder, bareDocument, preorder_bare]

lemma tags_bare (d : Document) : (bareDocument d).tags = d.tags.map bareTag := by
  rw [Document.tags, elements_bare, Document.tags, List.map_map, List.map_map]
  exact List.map_congr_left fun e _ => bare_tag e

/-! ### Code -/

lemma slotOf_bareTag (t : Tag) (field : Option String) :
    Fields.slotOf catalog (bareTag t) field = Fields.slotOf catalog t field := by
  rw [Fields.slotOf, Fields.outputTypeOf, genericArgument?_bareTag]
  rfl

lemma names_bare (taken : List String) (root : ℕ) (counts : Table ℕ) (ts : List Tag) :
    Fields.names taken root counts (ts.map bareTag) = Fields.names taken root counts ts := by
  induction ts generalizing counts with
  | nil => rfl
  | cons t ts ih =>
    rw [List.map_cons, Fields.names, Fields.names, explicitName?_bareTag]
    cases t.explicitName? with
    | some name => exact congrArg _ (ih counts)
    | none =>
      change (if t.index = root then _ else _) = _
      split
      · exact congrArg _ (ih counts)
      · exact congrArg _ (ih _)

lemma fields_bare (catalog : Catalog) (d : Document) :
    Fields.build catalog (bareDocument d) = Fields.build catalog d := by
  have hn : (bareDocument d).tags.filterMap (·.explicitName?) =
      d.tags.filterMap (·.explicitName?) := by
    rw [tags_bare, List.filterMap_map]
    exact List.filterMap_congr fun t _ => explicitName?_bareTag t
  have hi : (bareDocument d).root.tag.index = d.root.tag.index := by
    rw [bareDocument, bare_tag]
    rfl
  rw [Fields.build, hn, hi, tags_bare, names_bare, List.zipWith_map_left]
  simp only [slotOf_bareTag]
  rfl

lemma literals_bareTag (t : Tag) :
    Initializer.literals catalog (bareTag t) =
      (Initializer.literals catalog t).map fun (a, l) => (bareAttribute a, l) := by
  simp [Initializer.literals, properties_bareTag, List.filter_map, Function.comp_def]

lemma controlPlan_bareTag (f : Fields) (root : ℕ) (t : Tag) :
    controlPlan catalog f root (bareTag t) = controlPlan catalog f root t := by
  have ha : assignments catalog f (bareTag t) = assignments catalog f t := by
    simp [assignments, literals_bareTag, Function.comp_def]
  have hs : subscriptions catalog f (bareTag t) = subscriptions catalog f t := by
    simp [subscriptions, events_bareTag, List.filter_map, Function.comp_def,
      Initializer.obsoleteEvent?]
  rw [controlPlan, controlPlan, ha, hs]
  rfl

lemma plan_bare (f : Fields) (root : ℕ) (e : Element) :
    plan catalog f root (bare e) = plan catalog f root e := by
  induction e using element_induction with
  | h tag children ih =>
    have hc : planChildren catalog f root (bareTag tag) (bareAll children) =
        planChildren catalog f root tag children := by
      induction children with
      | nil => rfl
      | cons c cs ihs =>
        obtain ⟨hc, hcs⟩ := List.forall_mem_cons.mp ih
        have hl : link catalog f (bareTag tag) (bare c).tag = link catalog f tag c.tag := by
          rw [bare_tag]
          rfl
        rw [bareAll, planChildren, planChildren, hc, hl, ihs hcs]
    rw [bare, plan, plan, controlPlan_bareTag, hc]

lemma documentPlan_bare (catalog : Catalog) (d : Document) :
    documentPlan catalog (bareDocument d) = documentPlan catalog d := by
  have hr : (bareDocument d).root.tag = bareTag d.root.tag := bare_tag d.root
  rw [documentPlan, documentPlan, naming, naming, fields_bare, hr, explicitName?_bareTag]
  exact congrArg _ (plan_bare ..)

lemma boundProperties_bareTag (context : Option String) (t : Tag) :
    boundProperties catalog context (bareTag t) = boundProperties catalog context t := by
  simp [boundProperties, properties_bareTag, List.filter_map, Function.comp_def, List.filterMap_map]

lemma bound_bare (catalog : Catalog) (d : Document) (context : Option String) :
    bound catalog (bareDocument d) context = bound catalog d context := by
  rw [bound, bound, fields_bare, tags_bare, List.filterMap_map]
  refine List.filterMap_congr fun t _ => ?_
  simp only [Function.comp_apply, boundControl?, boundProperties_bareTag]
  rfl

theorem classOf_bare (catalog : Catalog) (d : Document) (context : Option String) :
    classOf catalog (bareDocument d) context = classOf catalog d context := by
  have hr : (bareDocument d).root.tag.index = d.root.tag.index := by
    rw [bareDocument, bare_tag]
    rfl
  simp only [classOf, fields_bare, documentPlan_bare, bound_bare, hr]
  rfl

/-! ### Reports -/

def gist (x : Diagnostic) : Code × Severity × String :=
  (x.code, x.severity, x.message)

lemma attributeProblems_bare (catalog : Catalog) (type : String) (a : Attribute) :
    Validation.attributeProblems catalog type (bareAttribute a) =
      Validation.attributeProblems catalog type a := by
  obtain ⟨key, value, kind, span⟩ := a
  dsimp only [bareAttribute, Validation.attributeProblems, Validation.propertyProblems,
    Validation.eventProblems]

lemma elementProblems_bare (catalog : Catalog) (seen : List String) (e : Element) :
    Validation.elementProblems catalog seen (bare e) =
      Validation.elementProblems catalog seen e := by
  have ha : (bareTag e.tag).attributes.flatMap
      (Validation.attributeProblems catalog (bareTag e.tag).type) =
      e.tag.attributes.flatMap (Validation.attributeProblems catalog e.tag.type) := by
    rw [bareTag, List.flatMap_map]
    simp only [attributeProblems_bare]
  have hs : ∀ control, Validation.structureProblems (bare e) control =
      Validation.structureProblems e control := by
    intro control
    rw [Validation.structureProblems, Validation.structureProblems, bare_tag, bare_children,
      List.isEmpty_map]
    rfl
  simp only [Validation.elementProblems, bare_tag, explicitName?_bareTag, hs, ha]
  rfl

lemma check_bare (catalog : Catalog) (path : String) (seen : List String) (es : List Element) :
    (Validation.check catalog path seen es).map gist =
      (Validation.check catalog "" seen (es.map bare)).map gist := by
  induction es generalizing seen with
  | nil => rfl
  | cons e es ih =>
    rw [Validation.check, List.map_cons, Validation.check, List.map_append, List.map_append, ih,
      elementProblems_bare, bare_tag, explicitName?_bareTag, List.map_map, List.map_map]
    rfl

lemma validate_bare (catalog : Catalog) (d : Document) :
    (d.validate catalog).map gist = ((bareDocument d).validate catalog).map gist := by
  rw [Document.validate, check_bare, Document.validate, elements_bare]
  rfl

lemma problems_bareTag (catalog : Catalog) (t : Tag) :
    Initializer.problems catalog (bareTag t) = Initializer.problems catalog t := by
  simp [Initializer.problems, literals_bareTag, events_bareTag, List.filterMap_map,
    Function.comp_def, Initializer.obsoleteEvent?]

lemma generation_bare (catalog : Catalog) (d : Document) :
    (d.generationDiagnostics catalog).map gist =
      ((bareDocument d).generationDiagnostics catalog).map gist := by
  have hf : (Fields.diagnostics catalog d).map gist =
      (Fields.diagnostics catalog (bareDocument d)).map gist := by
    rw [Fields.diagnostics, Fields.diagnostics, tags_bare, List.filter_map]
    simp only [List.map_map, Function.comp_def, genericArgument?_bareTag]
    rfl
  have hi : (Initializer.diagnostics catalog d).map gist =
      (Initializer.diagnostics catalog (bareDocument d)).map gist := by
    rw [Plan.diagnostics_eq, Plan.diagnostics_eq, tags_bare, List.flatMap_map, List.map_flatMap,
      List.map_flatMap]
    simp only [problems_bareTag, List.map_map]
    rfl
  rw [Document.generationDiagnostics, Document.generationDiagnostics, List.map_append,
    List.map_append, hf, hi]

/-! ### Output -/

def view (o : Output) : Option String × List (Code × Severity × String) :=
  (o.generated, o.diagnostics.map gist)

lemma any_isError (xs : List Diagnostic) :
    xs.any (·.isError) = (xs.map gist).any fun g => g.2.1 == .error := by
  rw [List.any_map]
  rfl

lemma map_raised (xs : List Diagnostic) :
    (xs.map (·.raised)).map gist = (xs.map gist).map fun g => (g.1, .error, g.2.2) := by
  rw [List.map_map, List.map_map]
  rfl

lemma reported_bare (catalog : Catalog) (options : Options) (d : Document) :
    (reported catalog options d).map gist =
      (reported catalog options (bareDocument d)).map gist := by
  rw [reported, reported]
  split
  · rw [map_raised, map_raised, validate_bare]
  · exact validate_bare catalog d

lemma generate_bare (catalog : Catalog) (d : Document) (context : Option String) (width : ℕ) :
    d.generate catalog context width = (bareDocument d).generate catalog context width := by
  rw [Document.generate, Document.generate, ofDocument_eq, ofDocument_eq, classOf_bare]

lemma emit_bare (catalog : Catalog) (resolver : TypeResolver) (options : Options) (d : Document)
    {found found' : List Diagnostic} (h : found.map gist = found'.map gist) :
    view (d.emit catalog resolver options found) =
      view ((bareDocument d).emit catalog resolver options found') := by
  obtain ⟨text, ht⟩ := ClassText.generate_ok catalog (bareDocument d)
    (dataContext d.dataType d.className resolver) options.indentWidth
  have ht' : (bareDocument d).generate catalog (dataContext (bareDocument d).dataType
      (bareDocument d).className resolver) options.indentWidth = .ok text := ht
  have hb : (bareDocument d).emit catalog resolver options found' =
      ⟨some text, found' ++ (bareDocument d).generationDiagnostics catalog⟩ := by
    rw [Document.emit, ht']
  rw [hb, Document.emit, generate_bare, ht]
  simp [view, h, generation_bare catalog d]

def judged (catalog : Catalog) (resolver : TypeResolver) (options : Options) (d : Document) :
    Output :=
  if (reported catalog options d).any (·.isError) then ⟨none, reported catalog options d⟩
  else d.emit catalog resolver options (reported catalog options d)

theorem judged_bare (catalog : Catalog) (resolver : TypeResolver) (options : Options)
    (d : Document) :
    view (judged catalog resolver options d) =
      view (judged catalog resolver options (bareDocument d)) := by
  have hr := reported_bare catalog options d
  rw [judged, judged, any_isError, any_isError, hr]
  split
  · rw [view, view, hr]
  · exact emit_bare catalog resolver options d hr

end TuiMarkup.Proofs.Placeless
