import Mathlib.Tactic.Lemma
import TuiMarkup.Proofs.ClassText
import TuiMarkup.Proofs.Validity

/-! Every attribute of a document without errors shows in the code once. -/

namespace TuiMarkup.Proofs.Accounting

open ClassText Slots Plan Generation Validity

def isAssignment : Statement → Bool
  | .assign _ _ _ => true
  | _ => false

def isSubscription : Statement → Bool
  | .subscribe _ _ _ => true
  | _ => false

def carriesBinding (t : Tag) : Bool :=
  t.attributes.any fun a => a.kind == .property && isBindingValue a.value

/-- What comes of an attribute: the statement that it becomes, or what is bound through it. -/
inductive Outcome (catalog : Catalog) (context : Option String) (reference : String) (t : Tag)
    (a : Attribute) : Option Statement → Option BoundProperty → Prop
  | reserved : a.kind = .reserved → Outcome catalog context reference t a none none
  | bound {binding : Binding} : a.kind = .property → isBindingValue a.value = true →
      Binding.read? a.value context = some binding →
      Outcome catalog context reference t a none
        (some ⟨a.key, binding, catalog.property? a.key == some .command⟩)
  | assigned : a.kind = .property → isBindingValue a.value = false →
      Outcome catalog context reference t a
        (some (.assign reference a.key (Literal.ofValue a.value (catalog.property? a.key)).code))
        none
  | subscribed : a.kind = .event →
      (∀ e, catalog.event? t.type a.key = some e → e.obsolete = false) →
      Outcome catalog context reference t a
        (some (.subscribe reference a.key (Text.trim a.value))) none
  | obsolete {e : EventEntry} : a.kind = .event → catalog.event? t.type a.key = some e →
      e.obsolete = true → Outcome catalog context reference t a none none

def said (catalog : Catalog) (f : Fields) (t : Tag) (a : Attribute) : Option Statement :=
  match a.kind with
  | .property =>
    if isBindingValue a.value then none
    else some (.assign (called f t.index) a.key
      (Literal.ofValue a.value (catalog.property? a.key)).code)
  | .event =>
    if (Initializer.obsoleteEvent? catalog t a).isNone then
      some (.subscribe (called f t.index) a.key (Text.trim a.value))
    else none
  | .reserved => none

def tied (catalog : Catalog) (context : Option String) (a : Attribute) : Option BoundProperty :=
  if a.kind = .property ∧ isBindingValue a.value = true then
    (Binding.read? a.value context).map fun binding =>
      ⟨a.key, binding, catalog.property? a.key == some .command⟩
  else none

variable {catalog : Catalog} {context : Option String} {f : Fields} {d : Document} {t : Tag}

lemma outcome {a : Attribute}
    (hb : a.kind = .property → isBindingValue a.value = true →
      ∃ b, Binding.read? a.value context = some b) :
    Outcome catalog context (called f t.index) t a (said catalog f t a)
      (tied catalog context a) := by
  cases hk : a.kind with
  | property =>
    cases hv : isBindingValue a.value with
    | false => simpa [said, tied, hk, hv] using .assigned hk hv
    | true =>
      obtain ⟨b, hr⟩ := hb hk hv
      simpa [said, tied, hk, hv, hr] using .bound hk hv hr
  | event =>
    cases he : catalog.event? t.type a.key with
    | none =>
      have ho : Initializer.obsoleteEvent? catalog t a = none := by
        simp [Initializer.obsoleteEvent?, he]
      simpa [said, tied, hk, ho] using .subscribed hk (by simp [he])
    | some e =>
      cases hx : e.obsolete with
      | false =>
        have ho : Initializer.obsoleteEvent? catalog t a = none := by
          simp [Initializer.obsoleteEvent?, he, hx]
        simpa [said, tied, hk, ho] using .subscribed hk (by simp [he, hx])
      | true =>
        have ho : Initializer.obsoleteEvent? catalog t a = some e := by
          simp [Initializer.obsoleteEvent?, he, hx]
        simpa [said, tied, hk, ho] using .obsolete hk he hx
  | reserved => simpa [said, tied, hk] using .reserved hk

/-! ### The attributes of one control -/

lemma assignments_eq (catalog : Catalog) (f : Fields) (t : Tag) :
    assignments catalog f t = (t.attributes.filterMap (said catalog f t)).filter isAssignment := by
  rw [assignments, Initializer.literals, Tag.properties]
  induction t.attributes with
  | nil => rfl
  | cons a as ih =>
    cases hk : a.kind with
    | property =>
      cases hv : isBindingValue a.value <;>
        simpa [said, hk, hv, isAssignment, List.filter_cons] using ih
    | event =>
      cases ho : (Initializer.obsoleteEvent? catalog t a).isNone <;>
        simpa [said, hk, ho, isAssignment] using ih
    | reserved => simpa [said, hk] using ih

lemma subscriptions_eq (catalog : Catalog) (f : Fields) (t : Tag) :
    subscriptions catalog f t =
      (t.attributes.filterMap (said catalog f t)).filter isSubscription := by
  rw [subscriptions, Tag.events]
  induction t.attributes with
  | nil => rfl
  | cons a as ih =>
    cases hk : a.kind with
    | property =>
      cases hv : isBindingValue a.value <;> simpa [said, hk, hv, isSubscription] using ih
    | event =>
      cases ho : (Initializer.obsoleteEvent? catalog t a).isNone <;>
        simpa [said, hk, ho, isSubscription, List.filter_cons] using ih
    | reserved => simpa [said, hk] using ih

lemma boundProperties_eq (catalog : Catalog) (context : Option String) (t : Tag) :
    boundProperties catalog context t = t.attributes.filterMap (tied catalog context) := by
  rw [boundProperties, Tag.properties]
  induction t.attributes with
  | nil => simp
  | cons a as ih =>
    cases hk : a.kind with
    | property =>
      cases hv : isBindingValue a.value
      · simpa [tied, hk, hv] using ih
      · cases hr : Binding.read? a.value context <;> simpa [tied, hk, hv, hr] using ih
    | event | reserved => simpa [tied, hk] using ih

lemma tied_isEmpty {as : List Attribute}
    (hb : ∀ a ∈ as, a.kind = .property → isBindingValue a.value = true →
      ∃ b, Binding.read? a.value context = some b) :
    (as.filterMap (tied catalog context)).isEmpty =
      !as.any fun a => a.kind == .property && isBindingValue a.value := by
  induction as with
  | nil => rfl
  | cons a as ih =>
    obtain ⟨ha, has⟩ := List.forall_mem_cons.mp hb
    by_cases hk : a.kind = .property ∧ isBindingValue a.value = true
    · obtain ⟨b, hr⟩ := ha hk.1 hk.2
      simp [tied, hk, hr]
    · have ht : tied catalog context a = none := if_neg hk
      have hf : (a.kind == .property && isBindingValue a.value) = false := by
        simpa using hk
      rw [List.filterMap_cons_none ht, ih has, List.any_cons, hf, Bool.false_or]

/-! ### All controls -/

lemma filter_document {p : Statement → Bool} (ha : ∀ q c b, p (.attach q c b) = false)
    (hn : ∀ name, p (.nameRoot name) = false) (catalog : Catalog) (d : Document) :
    (documentPlan catalog d).filter p = d.tags.flatMap fun t =>
      (controlPlan catalog (Fields.build catalog d) d.root.tag.index t).filter p := by
  rw [← List.filterMap_eq_filter, filterMap_document (fun name => by simp [hn]),
    filterMap_plan (fun q c b => by simp [ha]), tags_eq, List.flatMap_map]

lemma filter_control {p : Statement → Bool} (hp : ∀ r type, p (.construct r type) = false)
    (root : ℕ) :
    (controlPlan catalog f root t).filter p =
      (t.attributes.filterMap (said catalog f t)).filter (fun s => p s && isAssignment s) ++
        (t.attributes.filterMap (said catalog f t)).filter (fun s => p s && isSubscription s) := by
  have hc : (constructions f root t).filter p = [] := by
    rw [constructions]
    split <;> simp [hp]
  rw [controlPlan, List.filter_append, List.filter_append, hc, List.nil_append, assignments_eq,
    subscriptions_eq, List.filter_filter, List.filter_filter]

lemma not_both (s : Statement) : (isAssignment s && isSubscription s) = false := by
  cases s <;> rfl

theorem document_assignments (catalog : Catalog) (d : Document) :
    (documentPlan catalog d).filter isAssignment = d.tags.flatMap fun t =>
      (t.attributes.filterMap (said catalog (Fields.build catalog d) t)).filter isAssignment := by
  rw [filter_document (fun _ _ _ => rfl) (fun _ => rfl)]
  apply List.flatMap_congr
  intro t _
  rw [filter_control fun _ _ => rfl]
  simp [not_both]

theorem document_subscriptions (catalog : Catalog) (d : Document) :
    (documentPlan catalog d).filter isSubscription = d.tags.flatMap fun t =>
      (t.attributes.filterMap (said catalog (Fields.build catalog d) t)).filter isSubscription := by
  rw [filter_document (fun _ _ _ => rfl) (fun _ => rfl)]
  apply List.flatMap_congr
  intro t _
  rw [filter_control fun _ _ => rfl]
  simp [Bool.and_comm (isSubscription _), not_both]

lemma bound_eq_map (h : ErrorFree catalog d) (context : Option String) :
    bound catalog d context = (d.tags.filter carriesBinding).map fun t =>
      ⟨t.index, t.type, called (Fields.build catalog d) t.index,
        t.attributes.filterMap (tied catalog context)⟩ := by
  have hb : ∀ t ∈ d.tags, (boundProperties catalog context t).isEmpty = !carriesBinding t := by
    intro t ht
    obtain ⟨e, he, rfl⟩ := List.mem_map.mp ht
    rw [boundProperties_eq]
    exact tied_isEmpty fun a ha => h.binding context he ha
  rw [bound]
  generalize d.tags = ts at hb ⊢
  induction ts with
  | nil => rfl
  | cons t ts ih =>
    obtain ⟨ht, hts⟩ := List.forall_mem_cons.mp hb
    rw [List.filterMap_cons, ih hts, List.filter_cons, boundControl?, ht, boundProperties_eq]
    cases carriesBinding t <;> simp

/-- Where the attributes of a document are in its class, when `said` and `tied` are what comes of
them. -/
structure Accounts (catalog : Catalog) (context : Option String) (d : Document) (c : ClassFile)
    (bound : List BoundControl) (said : Tag → Attribute → Option Statement)
    (tied : Tag → Attribute → Option BoundProperty) : Prop where
  references : ∀ t ∈ d.tags,
    (Fields.build catalog d).reference t.index = .ok (called (Fields.build catalog d) t.index)
  outcomes : ∀ t ∈ d.tags, ∀ a ∈ t.attributes,
    Outcome catalog context (called (Fields.build catalog d) t.index) t a (said t a) (tied t a)
  assignments : c.statements.filter isAssignment =
    d.tags.flatMap fun t => (t.attributes.filterMap (said t)).filter isAssignment
  subscriptions : c.statements.filter isSubscription =
    d.tags.flatMap fun t => (t.attributes.filterMap (said t)).filter isSubscription
  controls : bound = (d.tags.filter carriesBinding).map fun t =>
    ⟨t.index, t.type, called (Fields.build catalog d) t.index, t.attributes.filterMap (tied t)⟩
  wired : c.wiring =
    if d.tags.any carriesBinding then some (Wiring.make catalog context bound) else none
  call : c.initializer = Layout.braced "private void InitializeComponent()"
    (c.statements.map (fun s => .line s.text) ++
      if d.tags.any carriesBinding then [.blank, .line "SetupBindings();"] else [])
  reads : List.Forall₂ Reads c.statements (c.statements.map (·.text))
  methods : c.classLayout =
    Layout.braced ("partial class " ++ c.name ++ " : " ++ c.base)
      (c.fields.map (fun f => .line ("private " ++ f.1 ++ " " ++ f.2 ++ " = null!;")) ++
        .blank :: c.initializer ++
        if d.tags.any carriesBinding then
          .blank :: ClassFile.setup (Wiring.make catalog context bound) ++
            .blank :: ClassFile.dispatcher (Wiring.make catalog context bound) ++
            (Wiring.make catalog context bound).reverses.flatMap ClassFile.reverseMethod
        else [])
  fields : c.fields = (Fields.build catalog d).declarations
  text : ∀ width, d.generate catalog context width =
    .ok (textOf width (file c.space c.classLayout))

lemma bound_isEmpty (h : ErrorFree catalog d) (context : Option String) :
    (bound catalog d context).isEmpty = !d.tags.any carriesBinding := by
  rw [bound_eq_map h, List.isEmpty_map]
  induction d.tags with
  | nil => rfl
  | cons t ts ih =>
    rw [List.filter_cons, List.any_cons]
    cases carriesBinding t
    · exact ih
    · rfl

/-- In a document without errors no attribute is lost, and none is written twice. -/
theorem attributes_accounted (h : ErrorFree catalog d) (context : Option String) :
    ∃ c bound said tied, ClassFile.ofDocument catalog d context = .ok c ∧
      boundControls catalog context (Fields.build catalog d) d.tags = .ok bound ∧
      Accounts catalog context d c bound said tied := by
  refine ⟨classOf catalog d context, bound catalog d context, said catalog (Fields.build catalog d),
    fun _ => tied catalog context, ofDocument_eq catalog d context, bound_eq catalog d context, ?_⟩
  have hw : (classOf catalog d context).wiring =
      if d.tags.any carriesBinding then
        some (Wiring.make catalog context (bound catalog d context))
      else none := by
    rw [classOf, bound_isEmpty h]
    cases d.tags.any carriesBinding <;> simp
  refine ⟨fun t ht => (covers_of_mem catalog ht).reference, ?_, document_assignments catalog d,
    document_subscriptions catalog d, bound_eq_map h context, hw, ?_, reads_texts _, ?_, rfl, ?_⟩
  · intro t ht a ha
    obtain ⟨e, he, rfl⟩ := List.mem_map.mp ht
    exact outcome fun hk hv => h.binding context he ha hk hv
  · rw [ClassFile.initializer, hw]
    cases d.tags.any carriesBinding <;> simp
  · rw [ClassFile.classLayout, hw]
    cases d.tags.any carriesBinding <;> rfl
  · intro width
    rw [generate_eq, layout_eq]

def buttons : Catalog where
  controls := ⟨[("Button", { outputType := "B" })]⟩
  events := ⟨[("Button", ⟨[("Accepting", { delegateType := "E" }),
    ("Clicked", { delegateType := "E", obsolete := true })]⟩)]⟩

def nowhere : Span :=
  ⟨{}, {}⟩

def button : Document where
  root := ⟨⟨0, "Button",
    [⟨"Accepting", " Go ", .event, nowhere⟩, ⟨"Clicked", "Go", .event, nowhere⟩,
      ⟨"Enabled", " \x7bBind Ready \x7d", .property, nowhere⟩, ⟨"Text", "Go", .property, nowhere⟩,
      ⟨"x:Class", "Start", .reserved, nowhere⟩], 1, 1, nowhere⟩, []⟩
  path := "b"
  className := "Start"
  dataType := none

theorem attributes_accounted_button :
    ErrorFree buttons button ∧
      ∃ c bound said tied, ClassFile.ofDocument buttons button (some "Model") = .ok c ∧
        boundControls buttons (some "Model") (Fields.build buttons button) button.tags = .ok bound ∧
        Accounts buttons (some "Model") button c bound said tied := by
  have h : ErrorFree buttons button := by decide +kernel
  exact ⟨h, attributes_accounted h (some "Model")⟩

end TuiMarkup.Proofs.Accounting
