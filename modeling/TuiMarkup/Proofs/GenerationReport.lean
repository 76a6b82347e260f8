import Mathlib.Data.List.Forall2
import Mathlib.Tactic.Lemma
import TuiMarkup.Proofs.Policy
import TuiMarkup.Proofs.ValidationReport

/-! Everything that is reported while code is written for a document, and nothing else. -/

namespace TuiMarkup.Proofs.GenerationReport

open DocumentOrder Initializer
open ValidationReport (Reports Unknown reports_iff unknown_iff forall₂_iff_map)

/-! ### Reports -/

inductive ValueReport (catalog : Catalog) (a : Attribute) : List Problem → Prop
  | bound : isBindingValue a.value = true → ValueReport catalog a []
  | converted {code : String} : isBindingValue a.value = false →
      Literal.ofValue a.value (catalog.property? a.key) = .converted code →
      ValueReport catalog a []
  | verbatim {code expected : String} : isBindingValue a.value = false →
      Literal.ofValue a.value (catalog.property? a.key) = .verbatim code expected →
      ValueReport catalog a [.invalidPropertyValue a.key a.value expected]

inductive EventReport (catalog : Catalog) (type : String) (a : Attribute) : List Problem → Prop
  | unknown : catalog.event? type a.key = none → EventReport catalog type a []
  | current {entry : EventEntry} : catalog.event? type a.key = some entry →
      entry.obsolete = false → EventReport catalog type a []
  | obsolete {entry : EventEntry} : catalog.event? type a.key = some entry →
      entry.obsolete = true →
      EventReport catalog type a [.obsoleteEventUsed a.key type entry.replacement]

inductive ControlReport (catalog : Catalog) (e : Element) : List Problem → Prop
  | intro {pss qss : List (List Problem)} :
      List.Forall₂ (ValueReport catalog) e.tag.properties pss →
      List.Forall₂ (EventReport catalog e.tag.type) e.tag.events qss →
      ControlReport catalog e (pss.flatten ++ qss.flatten)

def TypeReport (catalog : Catalog) (e : Element) : List Problem → Prop :=
  Reports (Unknown catalog e.tag.type) (.unknownControlTypeInGeneration e.tag.type)

inductive InTurn (report : Element → List Problem → Prop) (path : String) :
    List Element → List Diagnostic → Prop
  | nil : InTurn report path [] []
  | cons {e : Element} {es : List Element} {ps : List Problem} {ds : List Diagnostic} :
      report e ps → InTurn report path es ds →
      InTurn report path (e :: es)
        (ps.map (Diagnostic.of · path e.tag.line e.tag.column) ++ ds)

inductive Report (catalog : Catalog) (path : String) (root : Element) : List Diagnostic → Prop
  | intro {ds ds' : List Diagnostic} :
      InTurn (TypeReport catalog) path (preorder root) ds →
      InTurn (ControlReport catalog) path (preorder root) ds' →
      Report catalog path root (ds ++ ds')

variable {catalog reading : Catalog} {type source path : String} {a : Attribute} {e : Element}
  {es : List Element} {ps : List Problem} {ds : List Diagnostic} {d : Document}

/-! ### Elements -/

def valueProblems (catalog : Catalog) (a : Attribute) : List Problem :=
  if isBindingValue a.value then []
  else ((Literal.ofValue a.value (catalog.property? a.key)).expected?.map fun expected =>
    .invalidPropertyValue a.key a.value expected).toList

lemma valueReport_iff : ValueReport catalog a ps ↔ ps = valueProblems catalog a := by
  rw [valueProblems]
  constructor
  · intro h
    cases h with
    | bound hb => rw [if_pos hb]
    | converted hb hl =>
      rw [hb, hl]
      rfl
    | verbatim hb hl =>
      rw [hb, hl]
      rfl
  · intro hp
    rw [hp]
    split
    next hb => exact .bound hb
    next hb =>
      have hb : isBindingValue a.value = false := by simpa using hb
      cases hl : Literal.ofValue a.value (catalog.property? a.key) with
      | converted code => exact .converted hb hl
      | verbatim code expected => exact .verbatim hb hl

def eventProblems (catalog : Catalog) (type : String) (a : Attribute) : List Problem :=
  (((catalog.event? type a.key).filter (·.obsolete)).map fun entry =>
    .obsoleteEventUsed a.key type entry.replacement).toList

lemma eventReport_iff : EventReport catalog type a ps ↔ ps = eventProblems catalog type a := by
  rw [eventProblems]
  constructor
  · intro h
    cases h with
    | unknown hn => simp [hn]
    | current he ho => simp [he, ho]
    | obsolete he ho =>
      rw [he, Option.filter_some, if_pos ho]
      rfl
  · rintro rfl
    cases he : catalog.event? type a.key with
    | none => exact .unknown he
    | some entry =>
      cases ho : entry.obsolete with
      | false =>
        rw [Option.filter_some, if_neg (by simp [ho])]
        exact .current he ho
      | true =>
        rw [Option.filter_some, if_pos ho]
        exact .obsolete he ho

lemma values_eq (catalog : Catalog) (as : List Attribute) :
    ((as.filter fun a => !isBindingValue a.value).filterMap fun a =>
      (Literal.ofValue a.value (catalog.property? a.key)).expected?.map fun expected =>
        Problem.invalidPropertyValue a.key a.value expected) =
      (as.map (valueProblems catalog)).flatten := by
  induction as with
  | nil => rfl
  | cons a as ih =>
    rw [List.map_cons, List.flatten_cons, ← ih, List.filter_cons, valueProblems]
    cases isBindingValue a.value with
    | true => rfl
    | false =>
      rw [Bool.not_false, if_pos rfl, if_neg Bool.false_ne_true, List.filterMap_cons]
      cases (Literal.ofValue a.value (catalog.property? a.key)).expected? with
      | none => rfl
      | some expected => rfl

lemma problems_eq (catalog : Catalog) (t : Tag) :
    problems catalog t = (t.properties.map (valueProblems catalog)).flatten ++
      (t.events.map (eventProblems catalog t.type)).flatten := by
  have he : (t.events.filterMap fun a => (obsoleteEvent? catalog t a).map fun entry =>
      Problem.obsoleteEventUsed a.key t.type entry.replacement) =
      (t.events.map (eventProblems catalog t.type)).flatten := by
    rw [List.filterMap_eq_flatMap_toList, List.flatMap_def]
    rfl
  rw [problems, literals, List.filterMap_map, ← values_eq, ← he]
  rfl

lemma valueReports_iff {as : List Attribute} {pss : List (List Problem)} :
    List.Forall₂ (ValueReport catalog) as pss ↔ pss = as.map (valueProblems catalog) := by
  apply forall₂_iff_map
  intro a ps
  exact valueReport_iff

lemma eventReports_iff {as : List Attribute} {pss : List (List Problem)} :
    List.Forall₂ (EventReport catalog type) as pss ↔
      pss = as.map (eventProblems catalog type) := by
  apply forall₂_iff_map
  intro a ps
  exact eventReport_iff

lemma controlReport_iff : ControlReport catalog e ps ↔ ps = problems catalog e.tag := by
  rw [problems_eq]
  constructor
  · rintro ⟨hv, he⟩
    rw [valueReports_iff.mp hv, eventReports_iff.mp he]
  · rintro rfl
    exact .intro (valueReports_iff.mpr rfl) (eventReports_iff.mpr rfl)

/-! ### Documents -/

lemma inTurn_iff {report : Element → List Problem → Prop} {f : Element → List Problem}
    (h : ∀ e ps, report e ps ↔ ps = f e) :
    InTurn report path es ds ↔
      ds = es.flatMap fun e => (f e).map (Diagnostic.of · path e.tag.line e.tag.column) := by
  constructor
  · intro hr
    induction hr with
    | nil => rfl
    | cons hp _ ih => rw [(h _ _).mp hp, ih, List.flatMap_cons]
  · rintro rfl
    induction es with
    | nil => exact .nil
    | cons e es ih => exact .cons ((h e _).mpr rfl) ih

def typeProblems (catalog : Catalog) (t : Tag) : List Problem :=
  if (catalog.outputType? t.type t.genericArgument?).isNone then
    [.unknownControlTypeInGeneration t.type]
  else []

lemma typeReport_iff : TypeReport catalog e ps ↔ ps = typeProblems catalog e.tag := by
  apply reports_iff
  rw [unknown_iff, Catalog.outputType?, Option.isNone_map]

lemma typesInTurn_iff : InTurn (TypeReport catalog) path es ds ↔
    ds = es.flatMap fun e =>
      (typeProblems catalog e.tag).map (Diagnostic.of · path e.tag.line e.tag.column) := by
  apply inTurn_iff
  intro e ps
  exact typeReport_iff

lemma controlsInTurn_iff : InTurn (ControlReport catalog) path es ds ↔
    ds = es.flatMap fun e =>
      (problems catalog e.tag).map (Diagnostic.of · path e.tag.line e.tag.column) := by
  apply inTurn_iff
  intro e ps
  exact controlReport_iff

lemma types_eq (catalog : Catalog) (d : Document) :
    Fields.diagnostics catalog d = (preorder d.root).flatMap fun e =>
      (typeProblems catalog e.tag).map (Diagnostic.of · d.path e.tag.line e.tag.column) := by
  rw [Fields.diagnostics, Document.tags, elements_eq_preorder]
  induction preorder d.root with
  | nil => rfl
  | cons e es ih =>
    rw [List.map_cons, List.filter_cons, List.flatMap_cons, ← ih, typeProblems]
    split <;> rfl

lemma remarks_eq_preorder (catalog : Catalog) (d : Document) :
    Initializer.diagnostics catalog d = (preorder d.root).flatMap fun e =>
      (problems catalog e.tag).map (Diagnostic.of · d.path e.tag.line e.tag.column) := by
  rw [Initializer.diagnostics, Plan.remarks_eq, List.flatMap_singleton]
  rfl

theorem report_iff : Report catalog d.path d.root ds ↔ ds = d.generationDiagnostics catalog := by
  rw [Document.generationDiagnostics, types_eq, remarks_eq_preorder]
  constructor
  · rintro ⟨ht, hc⟩
    rw [typesInTurn_iff.mp ht, controlsInTurn_iff.mp hc]
  · rintro rfl
    exact .intro (typesInTurn_iff.mpr rfl) (controlsInTurn_iff.mpr rfl)

/-- Whatever a document binds to and however wide it is set, its code comes with the same reports:
the types that are not known, in document order, and then, element by element, the values that are
not what their properties expect and the events that should no longer be used, in the order of
their keys. -/
theorem generation_reported (catalog : Catalog)
    (h : Document.read reading source path = .ok d) :
    (∀ ds, Report catalog d.path d.root ds ↔ ds = d.generationDiagnostics catalog) ∧
      (∀ e ∈ preorder d.root, (e.tag.attributes.map (·.key)).Pairwise (· < ·)) ∧
      (∀ context width, ∃ text, d.generate catalog context width = .ok text) ∧
      ∀ resolver options found, ∃ text, d.emit catalog resolver options found =
        ⟨some text, found ++ d.generationDiagnostics catalog⟩ := by
  refine ⟨fun _ => report_iff, (ValidationReport.elements_placed h).2, ?_, ?_⟩
  · exact ClassText.generate_ok catalog d
  · intro resolver options found
    exact Policy.emit_eq catalog resolver options d found

/-! Both phases at once, in a document that would not pass validation. -/

def depot : Catalog where
  controls := ⟨[("Button", ⟨"Button", false, false, false, false⟩),
    ("Window", ⟨"Window", true, false, false, false⟩)]⟩
  events := ⟨[("Button", ⟨[("Accept", ⟨"EventHandler", true, some "Accepting"⟩)]⟩)]⟩
  scopes := ⟨[(Catalog.commonScope, ⟨[("Height", .float), ("Width", .int)]⟩)]⟩
  eventNames := ["Accept"]

def patched : String :=
  "<Window x:Class='A'>\n<Odd Accept='Go'><Button Accept='Go'/><Button Width='\x7bBind W\x7d'/>" ++
    "</Odd>\n<Odd Width='wide'><Button Height='tall'/></Odd></Window>"

def findings : List (Code × Nat × Nat) :=
  [(.unknownControlTypeInGeneration, 2, 2), (.unknownControlTypeInGeneration, 3, 2),
    (.obsoleteEventUsed, 2, 19), (.invalidPropertyValue, 3, 2), (.invalidPropertyValue, 3, 20)]

theorem generation_reported_patched :
    ∃ d, Document.read depot patched "m" = .ok d ∧
      (d.generationDiagnostics depot).map (fun x => (x.code, x.line, x.column)) = findings ∧
      Report depot d.path d.root (d.generationDiagnostics depot) := by
  have hr : (Document.read depot patched "m").toOption.map (fun d =>
      (d.generationDiagnostics depot).map fun x => (x.code, x.line, x.column)) =
        some findings := by
    decide +kernel
  cases hd : Document.read depot patched "m" with
  | error x =>
    rw [hd] at hr
    cases hr
  | ok d =>
    rw [hd] at hr
    obtain ⟨hv, -, -, -⟩ := generation_reported depot hd
    exact ⟨d, rfl, Option.some.inj hr, (hv _).mpr rfl⟩

end TuiMarkup.Proofs.GenerationReport
