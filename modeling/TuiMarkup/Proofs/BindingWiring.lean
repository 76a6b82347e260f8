import Mathlib.Data.List.Forall2
import Mathlib.Tactic.Lemma
import TuiMarkup.Proofs.Accounting

/-! What is written for the bindings of a document, told by the bound properties alone. -/

namespace TuiMarkup.Proofs.BindingWiring

open ClassText Slots Generation Validity

def targets (bound : List BoundControl) : List Target :=
  bound.flatMap fun c => c.properties.map fun p =>
    ⟨c.type, c.field, p.property, p.binding, p.isCommand⟩

def commands (bound : List BoundControl) : List Target :=
  (targets bound).filter (·.isCommand)

def returning (bound : List BoundControl) : List Target :=
  (targets bound).filter fun t => !t.isCommand && t.binding.mode == .twoWay

inductive Initial (t : Target) : List Layout → Prop
  | assignment : t.isCommand = false →
      Initial t [.line (t.field ++ "." ++ t.property ++ " = " ++ t.binding.source ++ ";")]
  | activation : t.isCommand = true →
      Initial t
        [.line ("// Wire up command: " ++ t.binding.source),
          .block (t.field ++ "." ++ "Accepting" ++ " += (s, e) => \x7b")
            [.line ("if (" ++ t.binding.source ++ "?.CanExecute(null) == true)"),
              .inset [.line (t.binding.source ++ ".Execute(null);")]]
            "\x7d;"]

inductive Enabling (t : Target) : List Layout → Prop
  | intro : t.isCommand = true →
      Enabling t
        [.line ("// Subscribe to CanExecuteChanged for " ++ t.field),
          .line ("if (" ++ t.binding.source ++ " != null)"),
          .block "\x7b"
            [.block (t.binding.source ++ ".CanExecuteChanged += (s, e) => \x7b")
                [.line (t.field ++ ".Enabled = " ++ t.binding.source ++ ".CanExecute(null);")]
                "\x7d;",
              .line "// Set initial Enabled state",
              .line (t.field ++ ".Enabled = " ++ t.binding.source ++ ".CanExecute(null);")]
            "\x7d"]

inductive Subscription (catalog : Catalog) (t : Target) : Layout → Prop
  | intro {event : String} : catalog.changeEvent? t.type t.property = some event →
      Subscription catalog t (.line (t.field ++ "." ++ event ++ " += " ++ t.handler ++ ";"))

inductive WayBack (catalog : Catalog) (t : Target) : List Layout → Prop
  | intro {event : String} : catalog.changeEvent? t.type t.property = some event →
      WayBack catalog t
        [.blank,
          .line ("private void " ++ t.handler ++ "(object? sender, " ++
            ((catalog.event? t.type event).map (·.argumentType)).getD defaultArguments ++ " e)"),
          .block "\x7b"
            [.line ("if (" ++ t.binding.source ++ " != " ++ (t.field ++ "." ++ t.property) ++ ")"),
              .inset [.line (t.binding.source ++ " = " ++ (t.field ++ "." ++ t.property) ++ ";")]]
            "\x7d"]

inductive Setup (catalog : Catalog) (bound : List BoundControl) : List Layout → Prop
  | intro {source : Option String} {initial enabling : List (List Layout)}
      {subscriptions : List Layout} :
      List.Forall₂ Initial (targets bound) initial →
      List.Forall₂ (Subscription catalog) (returning bound) subscriptions →
      List.Forall₂ Enabling (commands bound) enabling →
      Setup catalog bound
        [.line "private void SetupBindings()",
          .block "\x7b"
            ((source.map ClassFile.guardSource).getD [] ++ initial.flatten ++
              [.blank, .line "// Subscribe to property changes",
                .line ((source.map (· ++ ".")).getD "" ++
                  "PropertyChanged += " ++ "OnViewModelPropertyChanged" ++ ";")] ++
              subscriptions ++ enabling.flatten)
            "\x7d"]

inductive Dispatcher (bound : List BoundControl) : List Layout → Prop
  | intro {cases : List (String × List String)} :
      (∀ member code, (∃ codes, (member, codes) ∈ cases ∧ code ∈ codes) ↔
        ∃ t ∈ targets bound, t.isCommand = false ∧ t.binding.member = member ∧
          t.field ++ "." ++ t.property ++ " = " ++ t.binding.source ++ ";" = code) →
      Dispatcher bound
        [.line "private void OnViewModelPropertyChanged(object? sender, PropertyChangedEventArgs e)",
          .block "\x7b"
            [.line "switch (e.PropertyName)",
              .block "\x7b"
                (cases.flatMap fun c =>
                  [.line ("case \"" ++ c.1 ++ "\":"),
                    .inset (c.2.map .line ++ [.line "break;"])])
                "\x7d"]
            "\x7d"]

inductive WaysBack (catalog : Catalog) (bound : List BoundControl) : List Layout → Prop
  | intro {methods : List (List Layout)} :
      List.Forall₂ (WayBack catalog) (returning bound) methods →
      WaysBack catalog bound methods.flatten

/-- The members of a class after its fields: the methods for the bindings follow the initializer if
anything is bound. -/
inductive Members (catalog : Catalog) (bound : List BoundControl) (initializer : List Layout) :
    List Layout → Prop
  | unbound : bound = [] → Members catalog bound initializer initializer
  | bound {setup dispatcher waysBack : List Layout} : bound ≠ [] → Setup catalog bound setup →
      Dispatcher bound dispatcher → WaysBack catalog bound waysBack →
      Members catalog bound initializer
        (initializer ++ .blank :: setup ++ .blank :: dispatcher ++ waysBack)

variable {catalog : Catalog} {context : Option String} {d : Document}

/-! ### Targets -/

lemma target_of_mem {t : Target} (h : t ∈ targets (bound catalog d context)) :
    ∃ e ∈ d.elements, ∃ a ∈ e.tag.attributes, a.kind = .property ∧
      isBindingValue a.value = true ∧ Binding.read? a.value context = some t.binding ∧
      t.type = e.tag.type ∧ t.property = a.key ∧
      t.isCommand = (catalog.property? a.key == some .command) := by
  obtain ⟨c, hc, ht⟩ := List.mem_flatMap.mp h
  obtain ⟨p, hp, rfl⟩ := List.mem_map.mp ht
  rw [bound] at hc
  obtain ⟨tag, htag, hb⟩ := List.mem_filterMap.mp hc
  obtain ⟨e, he, rfl⟩ := List.mem_map.mp htag
  rw [boundControl?] at hb
  split at hb
  · cases hb
  · cases hb
    rw [boundProperties] at hp
    obtain ⟨a, hm, hs⟩ := List.mem_filterMap.mp hp
    obtain ⟨binding, hr, rfl⟩ := Option.map_eq_some_iff.mp hs
    obtain ⟨hm, hv⟩ := List.mem_filter.mp hm
    obtain ⟨ha, hk⟩ := List.mem_filter.mp hm
    exact ⟨e, he, a, ha, beq_iff_eq.mp hk, hv, hr, rfl, rfl, rfl⟩

lemma mem_targets {e : Element} {a : Attribute} {b : Binding} (he : e ∈ d.elements)
    (ha : a ∈ e.tag.attributes) (hk : a.kind = .property) (hv : isBindingValue a.value = true)
    (hb : Binding.read? a.value context = some b) :
    ⟨e.tag.type, called (Fields.build catalog d) e.tag.index, a.key, b,
      catalog.property? a.key == some .command⟩ ∈ targets (bound catalog d context) := by
  have hp : ⟨a.key, b, catalog.property? a.key == some .command⟩ ∈
      boundProperties catalog context e.tag := by
    refine List.mem_filterMap.mpr ⟨a, ?_, by rw [hb]; rfl⟩
    exact List.mem_filter.mpr ⟨List.mem_filter.mpr ⟨ha, beq_iff_eq.mpr hk⟩, hv⟩
  have hc : boundControl? catalog context (Fields.build catalog d) e.tag =
      some ⟨e.tag.index, e.tag.type, called (Fields.build catalog d) e.tag.index,
        boundProperties catalog context e.tag⟩ := by
    rw [boundControl?, if_neg]
    intro hn
    rw [List.isEmpty_iff.mp hn] at hp
    cases hp
  exact List.mem_flatMap.mpr ⟨_, List.mem_filterMap.mpr ⟨_, List.mem_map.mpr ⟨e, he, rfl⟩, hc⟩,
    List.mem_map.mpr ⟨_, hp, rfl⟩⟩

lemma isCommand_eq {t : Target} (ht : t ∈ targets (bound catalog d context)) :
    t.isCommand = (catalog.property? t.property == some .command) := by
  obtain ⟨_, _, a, _, _, _, _, _, hp, hi⟩ := target_of_mem ht
  rw [hi, hp]

lemma property_ne {t u : Target} (ht : t ∈ targets (bound catalog d context))
    (hu : u ∈ targets (bound catalog d context)) (hc : t.isCommand = true)
    (hn : u.isCommand = false) : t.property ≠ u.property := by
  intro hx
  rw [isCommand_eq ht, hx, ← isCommand_eq hu, hn] at hc
  cases hc

/-! ### Steps of the set-up -/

lemma forall₂_map {α : Type} {R : Target → α → Prop} {f : Target → α} {ts : List Target}
    (h : ∀ t ∈ ts, R t (f t)) : List.Forall₂ R ts (ts.map f) := by
  rw [List.forall₂_map_right_iff, List.forall₂_same]
  exact h

lemma initialStep_initial (t : Target) : Initial t (ClassFile.initialStep t) := by
  rw [ClassFile.initialStep]
  cases h : t.isCommand with
  | false =>
    rw [if_neg (by simp)]
    exact .assignment h
  | true =>
    rw [if_pos rfl]
    exact .activation h

lemma reverses_eq {ts : List Target}
    (h : ∀ t ∈ ts, t.binding.mode = .twoWay →
      ∃ event, catalog.changeEvent? t.type t.property = some event) :
    List.Forall₂ (fun t r => r.target = t ∧ catalog.changeEvent? t.type t.property =
        some r.changeEvent ∧ r.argumentType =
          ((catalog.event? t.type r.changeEvent).map (·.argumentType)).getD defaultArguments)
      (ts.filter fun t => !t.isCommand && t.binding.mode == .twoWay)
      (ts.filterMap (·.reverse? catalog)) := by
  induction ts with
  | nil => exact .nil
  | cons t ts ih =>
    obtain ⟨ht, hts⟩ := List.forall_mem_cons.mp h
    by_cases hm : t.binding.mode = .twoWay ∧ (!t.isCommand) = true
    · obtain ⟨event, he⟩ := ht hm.1
      have hr : t.reverse? catalog = some ⟨t, event,
          ((catalog.event? t.type event).map (·.argumentType)).getD defaultArguments⟩ := by
        rw [Target.reverse?, if_pos hm, he]
        rfl
      rw [List.filterMap_cons_some hr, List.filter_cons_of_pos (by simp_all)]
      exact .cons ⟨rfl, he, rfl⟩ (ih hts)
    · have hr : t.reverse? catalog = none := if_neg hm
      rw [List.filterMap_cons_none hr, List.filter_cons_of_neg (by grind)]
      exact ih hts

/-! ### Cases of the dispatcher -/

def Lists (entries : List (String × List String)) (member code : String) : Prop :=
  ∃ codes, (member, codes) ∈ entries ∧ code ∈ codes

lemma lists_cons {entries : List (String × List String)} {e : String × List String}
    {member code : String} :
    Lists (e :: entries) member code ↔
      (member = e.1 ∧ code ∈ e.2) ∨ Lists entries member code := by
  constructor
  · rintro ⟨codes, hm, hc⟩
    rcases List.mem_cons.mp hm with rfl | hm
    · exact .inl ⟨rfl, hc⟩
    · exact .inr ⟨codes, hm, hc⟩
  · rintro (⟨rfl, hc⟩ | ⟨codes, hm, hc⟩)
    · exact ⟨e.2, List.mem_cons_self, hc⟩
    · exact ⟨codes, List.mem_cons_of_mem _ hm, hc⟩

def extend (new : String) (old : Option (List String)) : List String :=
  if (old.getD []).contains new then old.getD [] else old.getD [] ++ [new]

lemma mem_extend {new code : String} {old : Option (List String)} :
    code ∈ extend new old ↔ code ∈ old.getD [] ∨ code = new := by
  rw [extend]
  split
  next h =>
    have hn := List.contains_iff_mem.mp h
    constructor
    · exact .inl
    · rintro (hc | rfl)
      · exact hc
      · exact hn
  · simp

lemma lists_upsert {key new : String} {entries : List (String × List String)}
    {member code : String} :
    Lists (Table.upsertEntries key (extend new) entries) member code ↔
      Lists entries member code ∨ (key = member ∧ new = code) := by
  induction entries with
  | nil =>
    rw [Table.upsertEntries, lists_cons, mem_extend]
    simp [Lists, eq_comm]
  | cons e entries ih =>
    obtain ⟨k, v⟩ := e
    rw [Table.upsertEntries]
    split
    next hk =>
      subst hk
      rw [lists_cons, lists_cons, mem_extend, Option.getD_some]
      grind
    · rw [lists_cons, lists_cons, ih, or_assoc]

lemma lists_cases (w : Wiring) {member code : String} :
    Lists w.cases.entries member code ↔
      ∃ t ∈ w.targets, t.isCommand = false ∧ t.binding.member = member ∧ t.assignment = code := by
  have hf : ∀ (ts : List Target) (cases : Table (List String)),
      Lists (ts.foldl Wiring.addCase cases).entries member code ↔
        Lists cases.entries member code ∨
          ∃ t ∈ ts, t.binding.member = member ∧ t.assignment = code := by
    intro ts
    induction ts with
    | nil => simp
    | cons t ts ih =>
      intro cases
      have hu : Lists (Wiring.addCase cases t).entries member code ↔
          Lists cases.entries member code ∨
            (t.binding.member = member ∧ t.assignment = code) := lists_upsert
      rw [List.foldl_cons, ih, hu]
      simp [or_assoc]
  rw [Wiring.cases, hf]
  simp [Lists, and_assoc]

/-! ### The class -/

lemma setup_wired (h : ErrorFree catalog d) (context : Option String) :
    Setup catalog (bound catalog d context)
        (ClassFile.setup (Wiring.make catalog context (bound catalog d context))) ∧
      WaysBack catalog (bound catalog d context)
        ((Wiring.make catalog context (bound catalog d context)).reverses.flatMap
          ClassFile.reverseMethod) := by
  have hn : ∀ t ∈ targets (bound catalog d context), t.binding.mode = .twoWay →
      ∃ event, catalog.changeEvent? t.type t.property = some event := by
    intro t ht hm
    obtain ⟨e, he, a, ha, hk, hv, hb, htype, hp, _⟩ := target_of_mem ht
    rw [htype, hp]
    exact h.changeEvent he ha hk hv hb hm
  have hr := reverses_eq hn
  constructor
  · rw [ClassFile.setup, List.flatMap_def, List.flatMap_def]
    refine .intro (forall₂_map fun t _ => initialStep_initial t) ?_ (forall₂_map ?_)
    · rw [List.forall₂_map_right_iff]
      refine hr.imp fun t r hx => ?_
      obtain ⟨rfl, he, _⟩ := hx
      exact .intro he
    · intro t ht
      exact .intro (List.mem_filter.mp ht).2
  · rw [List.flatMap_def]
    refine .intro ?_
    rw [List.forall₂_map_right_iff]
    refine hr.imp fun t r hx => ?_
    obtain ⟨rfl, he, ha⟩ := hx
    rw [ClassFile.reverseMethod, ha]
    exact .intro he

lemma dispatcher_wired (catalog : Catalog) (context : Option String) (bound : List BoundControl) :
    Dispatcher bound (ClassFile.dispatcher (Wiring.make catalog context bound)) :=
  .intro fun _ _ => lists_cases (Wiring.make catalog context bound)

lemma members_wired (h : ErrorFree catalog d) (context : Option String) :
    Members catalog (bound catalog d context) (classOf catalog d context).initializer
      ((classOf catalog d context).initializer ++
        ((classOf catalog d context).wiring.map ClassFile.wiringMethods).getD []) := by
  by_cases hb : bound catalog d context = []
  · have hw : (classOf catalog d context).wiring = none := by simp [classOf, hb]
    rw [hw, Option.map_none, Option.getD_none, List.append_nil]
    exact .unbound hb
  · have hw : (classOf catalog d context).wiring =
        some (Wiring.make catalog context (bound catalog d context)) := by simp [classOf, hb]
    obtain ⟨hs, hr⟩ := setup_wired h context
    have hd := dispatcher_wired catalog context (bound catalog d context)
    rw [hw, Option.map_some, Option.getD_some, ClassFile.wiringMethods]
    simpa only [List.append_assoc, List.cons_append] using
      @Members.bound _ _ (classOf catalog d context).initializer _ _ _ hb hs hd hr

/-- In the class of a document without errors each bound property has its place in the methods for
the bindings: set up once, brought up to date unless it is a command, and written back exactly if it
is bound both ways. -/
theorem wiring_exact (h : ErrorFree catalog d) (context : Option String) :
    ∃ c bound members, ClassFile.ofDocument catalog d context = .ok c ∧
      boundControls catalog context (Fields.build catalog d) d.tags = .ok bound ∧
      c.classLayout = Layout.braced ("partial class " ++ c.name ++ " : " ++ c.base)
        (c.fields.map (fun f => .line ("private " ++ f.1 ++ " " ++ f.2 ++ " = null!;")) ++
          .blank :: members) ∧
      (∀ width, d.generate catalog context width =
        .ok (textOf width (file c.space c.classLayout))) ∧
      Members catalog bound c.initializer members ∧
      (∀ t ∈ targets bound, t.isCommand = (catalog.property? t.property == some .command)) ∧
      (∀ t ∈ targets bound, ∀ u ∈ targets bound, t.isCommand = true → u.isCommand = false →
        t.property ≠ u.property) ∧
      ∀ e ∈ d.elements, ∀ a ∈ e.tag.attributes, a.kind = .property →
        isBindingValue a.value = true → ∀ b, Binding.read? a.value none = some b →
        b.mode = .twoWay → catalog.property? a.key ≠ some .command →
        ∃ t ∈ returning bound, t.type = e.tag.type ∧ t.property = a.key ∧
          (Fields.build catalog d).reference e.tag.index = .ok t.field ∧
          Binding.read? a.value context = some t.binding := by
  refine ⟨classOf catalog d context, bound catalog d context,
    (classOf catalog d context).initializer ++
      ((classOf catalog d context).wiring.map ClassFile.wiringMethods).getD [],
    ofDocument_eq catalog d context, bound_eq catalog d context, ?_, fun width => ?_,
    members_wired h context, fun t ht => isCommand_eq ht, fun t ht u hu => property_ne ht hu, ?_⟩
  · rw [ClassFile.classLayout, List.append_assoc, List.cons_append]
  · rw [generate_eq, layout_eq]
  · intro e he a ha hk hv b hb hm hc
    have hr : Binding.read? a.value context =
        some { b with source := Binding.sourceOf b.path context } := by
      rw [read?_context, hb]
      rfl
    refine ⟨_, List.mem_filter.mpr ⟨mem_targets he ha hk hv hr, ?_⟩, rfl, rfl, ?_, hr⟩
    · simp [hc, hm]
    · exact (covers_of_mem catalog (List.mem_map.mpr ⟨e, he, rfl⟩)).reference

/-! ### A command -/

lemma exists_of_forall₂ {R : Target → List Layout → Prop} {ts : List Target}
    {steps : List (List Layout)} (h : List.Forall₂ R ts steps) {t : Target} (ht : t ∈ ts) :
    ∃ step ∈ steps, R t step := by
  induction h with
  | nil => cases ht
  | cons hs _ ih =>
    rcases List.mem_cons.mp ht with rfl | ht
    · exact ⟨_, List.mem_cons_self, hs⟩
    · obtain ⟨step, hm, hr⟩ := ih ht
      exact ⟨step, List.mem_cons_of_mem _ hm, hr⟩

lemma Setup.command {bound : List BoundControl} {setup : List Layout}
    (h : Setup catalog bound setup) {t : Target} (ht : t ∈ commands bound) :
    ∃ body, setup = [.line "private void SetupBindings()", .block "\x7b" body "\x7d"] ∧
      (∃ step, Initial t step ∧ step <:+: body) ∧ ∃ step, Enabling t step ∧ step <:+: body := by
  cases h with
  | intro hi _ he =>
    obtain ⟨step, hm, hr⟩ := exists_of_forall₂ hi (List.mem_filter.mp ht).1
    obtain ⟨step', hm', hr'⟩ := exists_of_forall₂ he ht
    refine ⟨_, rfl, ⟨step, hr, ?_⟩, step', hr', ?_⟩
    · simp only [List.append_assoc]
      exact (List.infix_of_mem_flatten hm).trans (List.infix_append' ..)
    · exact (List.infix_of_mem_flatten hm').trans (List.suffix_append _ _).isInfix

lemma Members.setup_of_command {bound : List BoundControl} {initializer members : List Layout}
    (h : Members catalog bound initializer members) {t : Target} (ht : t ∈ commands bound) :
    ∃ setup, Setup catalog bound setup ∧ setup <:+: members := by
  cases h with
  | unbound hb =>
    subst hb
    cases ht
  | @bound setup dispatcher waysBack _ hs _ _ =>
    have hm := (List.suffix_cons .blank setup).trans (List.suffix_append initializer _)
    have hd := hm.isInfix.trans (List.prefix_append _ (.blank :: dispatcher)).isInfix
    exact ⟨setup, hs, hd.trans (List.prefix_append _ waysBack).isInfix⟩

def command : Attribute :=
  ⟨"Command", "\x7bBind Save, Mode=TwoWay\x7d", .property, Accounting.nowhere⟩

def text : Attribute :=
  ⟨"Text", "\x7bBind Name, mode = twoway\x7d", .property, Accounting.nowhere⟩

def entries : Catalog where
  controls := ⟨[("Entry", { outputType := "E", isContainer := true })]⟩
  changeEvents := ⟨[("Entry", ⟨[("Command", "Reset"), ("Text", "TextChanged")]⟩)]⟩
  scopes := ⟨[("Common", ⟨[("Command", .command)]⟩)]⟩

def entry : Document where
  root := ⟨⟨0, "Entry",
    [command, text, ⟨"Title", "\x7bBind Name\x7d", .property, Accounting.nowhere⟩], 1, 1,
      Accounting.nowhere⟩, []⟩
  path := "e"
  className := "Form"
  dataType := none

lemma entry_save : ⟨"Entry", "this", "Command", ⟨"Save", .twoWay, "Model.Save"⟩, true⟩ ∈
    commands (bound entries entry (some "Model")) := by
  decide +kernel

theorem wiring_exact_entry :
    ErrorFree entries entry ∧
      ∃ c bound members, ClassFile.ofDocument entries entry (some "Model") = .ok c ∧
        boundControls entries (some "Model") (Fields.build entries entry) entry.tags = .ok bound ∧
        Members entries bound c.initializer members ∧
        (∃ t ∈ returning bound, t.property = "Text" ∧ t.binding.source = "Model.Name") ∧
        ∃ body, [.line "private void SetupBindings()", .block "\x7b" body "\x7d"] <:+: members ∧
          [.line "// Wire up command: Model.Save",
            .block "this.Accepting += (s, e) => \x7b"
              [.line "if (Model.Save?.CanExecute(null) == true)",
                .inset [.line "Model.Save.Execute(null);"]]
              "\x7d;"] <:+: body ∧
          [.line "// Subscribe to CanExecuteChanged for this",
            .line "if (Model.Save != null)",
            .block "\x7b"
              [.block "Model.Save.CanExecuteChanged += (s, e) => \x7b"
                  [.line "this.Enabled = Model.Save.CanExecute(null);"] "\x7d;",
                .line "// Set initial Enabled state",
                .line "this.Enabled = Model.Save.CanExecute(null);"]
              "\x7d"] <:+: body := by
  have h : ErrorFree entries entry := by decide +kernel
  have hb : Binding.read? text.value none = some ⟨"Name", .twoWay, "Name"⟩ := by decide +kernel
  have hm : Binding.read? text.value (some "Model") = some ⟨"Name", .twoWay, "Model.Name"⟩ := by
    decide +kernel
  have hc : entries.property? text.key ≠ some .command := by decide +kernel
  have he : entry.root ∈ entry.elements := by
    rw [DocumentOrder.elements_eq_preorder]
    exact DocumentOrder.mem_preorder_self entry.root
  obtain ⟨c, bound, members, hd, hx, _, _, hw, _, _, ht⟩ := wiring_exact h (some "Model")
  obtain ⟨t, hr, _, hp, _, hs⟩ := ht entry.root he text (by simp [entry]) rfl
    (by decide +kernel) _ hb rfl hc
  rw [hm] at hs
  have hv : bound = Generation.bound entries entry (some "Model") :=
    Except.ok.inj (hx.symm.trans (bound_eq entries entry (some "Model")))
  have hsave := hv ▸ entry_save
  obtain ⟨setup, hsetup, hin⟩ := hw.setup_of_command hsave
  obtain ⟨body, rfl, ⟨step, hi, hs₁⟩, step', hj, hs₂⟩ := hsetup.command hsave
  refine ⟨h, c, bound, members, hd, hx, hw, ⟨t, hr, hp, by rw [← Option.some.inj hs]⟩, body, hin,
    ?_, ?_⟩
  · cases hi with
    | assignment hn => cases hn
    | activation _ => exact hs₁
  · cases hj with
    | intro _ => exact hs₂

end TuiMarkup.Proofs.BindingWiring
