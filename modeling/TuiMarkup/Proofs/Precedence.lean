import Mathlib.Tactic.Lemma
import TuiMarkup.Proofs.SchemaGrammar

/-! Which of several declarations counts. Lines about one control are merged, and what is declared
last of its class, its flags, an event or a change event holds. A property is looked for in the
common scope and then in the others, in the order in which their lines first come. -/

namespace TuiMarkup.Proofs.Precedence

open Declarations SchemaGrammar

variable {α : Type} {type event property : String}

lemma ofSchema_eq (lines scopes : List String) :
    Catalog.ofSchema lines scopes = ofLines (lines.filterMap Schema.readControlLine?)
      (scopes.filterMap Schema.readScopeLine?) :=
  rfl

/-! ### Controls -/

section Controls

variable {controls : List Schema.ControlLine} {scopes : List Schema.ScopeLine}

lemma eventOf?_eq_some {m : Schema.Member} {entry : EventEntry} :
    eventOf? m = some (event, entry) ↔ m = .event event entry := by
  cases m with
  | event name entry => simp [eventOf?]
  | twoWay property event => simp [eventOf?]

lemma event?_isSome :
    ((ofLines controls scopes).event? type event).isSome = true ↔
      ∃ l ∈ controls, l.name = type ∧ ∃ entry, .event event entry ∈ l.members := by
  rw [event?_ofLines, last?_membersOf_isSome]
  simp only [List.mem_map, List.mem_filterMap, eventOf?_eq_some, Prod.exists, exists_and_right,
    exists_eq_right]

lemma mem_controlNames :
    type ∈ (ofLines controls scopes).controlNames ↔ ∃ l ∈ controls, l.name = type := by
  rw [controlNames_ofLines, List.mem_eraseDups, List.mem_map]

lemma isKnownEvent_iff :
    (ofLines controls scopes).isKnownEvent event = true ↔
      ∃ type ∈ (ofLines controls scopes).controlNames,
        ((ofLines controls scopes).event? type event).isSome = true := by
  rw [isKnownEvent_ofLines]
  simp only [event?_isSome, mem_controlNames]
  constructor
  · rintro ⟨l, hl, entry, hm⟩
    exact ⟨l.name, ⟨l, hl, rfl⟩, l, hl, rfl, entry, hm⟩
  · rintro ⟨type, -, l, hl, -, entry, hm⟩
    exact ⟨l, hl, entry, hm⟩

lemma mem_controlNames_of_event (h : ((ofLines controls scopes).event? type event).isSome = true) :
    type ∈ (ofLines controls scopes).controlNames := by
  obtain ⟨l, hl, hn, -⟩ := event?_isSome.mp h
  exact mem_controlNames.mpr ⟨l, hl, hn⟩

lemma mem_controlNames_of_changeEvent
    (h : ((ofLines controls scopes).changeEvent? type property).isSome = true) :
    type ∈ (ofLines controls scopes).controlNames := by
  rw [changeEvent?_ofLines, last?_membersOf_isSome] at h
  obtain ⟨l, hl, hn, -⟩ := h
  exact mem_controlNames.mpr ⟨l, hl, hn⟩

end Controls

/-- An event is known if some control has it, whatever lines the catalog is made of. Of several lines
about a control the first gives its place and the last its class and flags, while of its members the
last of each name holds, on whichever of these lines it stands. -/
theorem controls_coherent (lines scopes : List String) :
    ∃ ls, (∀ ms, ControlLines lines ms ↔ ms = ls) ∧
      let catalog := Catalog.ofSchema lines scopes
      (∀ event, catalog.isKnownEvent event = true ↔
        ∃ type ∈ catalog.controlNames, (catalog.event? type event).isSome = true) ∧
      (catalog.isKnownEvent "" = false ∧ ∀ type, catalog.event? type "" = none) ∧
      (∀ type event, (catalog.event? type event).isSome = true → type ∈ catalog.controlNames) ∧
      (∀ type property, (catalog.changeEvent? type property).isSome = true →
        type ∈ catalog.controlNames) ∧
      catalog.controlNames = (ls.map (·.name)).eraseDups ∧
      (∀ type, catalog.control? type = last? type (ls.map fun l => (l.name, l.control))) ∧
      (∀ type event, catalog.event? type event =
        last? event ((membersOf type ls).filterMap eventOf?)) ∧
      ∀ type property, catalog.changeEvent? type property =
        last? property ((membersOf type ls).filterMap pairOf?) := by
  refine ⟨_, fun ms => controlLines_iff, ?_⟩
  rw [ofSchema_eq]
  have hl : ControlLines lines _ := controlLines_iff.mpr rfl
  -- a line that is read names all its events, so the empty name is none of them
  have he : ∀ type, (ofLines (lines.filterMap Schema.readControlLine?)
      (scopes.filterMap Schema.readScopeLine?)).event? type "" = none := by
    intro type
    rw [← Option.not_isSome_iff_eq_none, event?_isSome]
    rintro ⟨l, hm, -, entry, hn⟩
    exact hl.name_ne hm hn rfl
  refine ⟨fun event => isKnownEvent_iff, ⟨?_, he⟩, fun type event => mem_controlNames_of_event,
    fun type property => mem_controlNames_of_changeEvent, controlNames_ofLines _ _,
    control?_ofLines _ _, event?_ofLines _ _, changeEvent?_ofLines _ _⟩
  rw [← Bool.not_eq_true, isKnownEvent_iff]
  rintro ⟨type, -, h⟩
  rw [he] at h
  cases h

example :
    (Catalog.ofSchema ["A=X:action|*E=D", "junk", "B=Y|", "A=Z|*F=D,*=D"] []).controls.entries =
      [("A", { outputType := "Z" }), ("B", { outputType := "Y" })] := by decide +kernel

/-! ### Properties -/

lemma findSome?_eraseDups (f : String → Option α) (xs : List String) :
    xs.eraseDups.findSome? f = xs.findSome? f := by
  induction xs using List.reverseRecOn with
  | nil => rfl
  | append_singleton xs x ih =>
    rw [eraseDups_concat, List.findSome?_append]
    split
    next hx =>
      rw [ih]
      cases hs : xs.findSome? f with
      | some v => rfl
      | none => simp [List.findSome?_eq_none_iff.mp hs x hx]
    next => rw [List.findSome?_append, ih]

lemma findSome?_filter_ne {f : String → Option α} {x : String} (h : f x = none) (xs : List String) :
    (xs.filter (· != x)).findSome? f = xs.findSome? f := by
  induction xs with
  | nil => rfl
  | cons y ys ih =>
    by_cases hy : y = x
    · simp [hy, h, ih]
    · simp [hy, List.findSome?_cons, ih]

variable {ls : List Schema.ScopeLine}

inductive Resolves (ls : List Schema.ScopeLine) (property : String) : PropertyType → Prop
  | common {type : PropertyType}
      (h : last? property (propertiesOf Catalog.commonScope ls) = some type) :
      Resolves ls property type
  | first {type : PropertyType} {before after : List Schema.ScopeLine} {l : Schema.ScopeLine}
      (hc : last? property (propertiesOf Catalog.commonScope ls) = none)
      (hl : ls = before ++ l :: after)
      (hb : ∀ x ∈ before, last? property (propertiesOf x.scope ls) = none)
      (h : last? property (propertiesOf l.scope ls) = some type) : Resolves ls property type

lemma property?_eq_findSome? (controls : List Schema.ControlLine) (ls : List Schema.ScopeLine)
    (property : String) :
    (ofLines controls ls).property? property =
      (last? property (propertiesOf Catalog.commonScope ls)).or
        (ls.findSome? fun l => last? property (propertiesOf l.scope ls)) := by
  rw [property?_ofLines]
  cases hc : last? property (propertiesOf Catalog.commonScope ls) with
  | some type => rfl
  | none =>
    rw [findSome?_filter_ne hc, findSome?_eraseDups, List.findSome?_map]
    rfl

lemma property?_eq_some_iff {controls : List Schema.ControlLine} {type : PropertyType} :
    (ofLines controls ls).property? property = some type ↔ Resolves ls property type := by
  rw [property?_eq_findSome?, Option.or_eq_some_iff, List.findSome?_eq_some_iff]
  constructor
  · rintro (h | ⟨hc, before, l, after, hl, h, hb⟩)
    · exact .common h
    · exact .first hc hl hb h
  · rintro (h | ⟨hc, hl, hb, h⟩)
    · exact .inl h
    · exact .inr ⟨hc, _, _, _, hl, h, hb⟩

lemma mem_propertiesOf {scope : String} :
    property ∈ (propertiesOf scope ls).map Prod.fst ↔
      ∃ l ∈ ls, l.scope = scope ∧ property ∈ l.properties.map Prod.fst := by
  simp only [propertiesOf, List.map_flatMap, List.mem_flatMap, List.mem_filter, beq_iff_eq, and_assoc]

lemma property?_eq_none_iff {controls : List Schema.ControlLine} :
    (ofLines controls ls).property? property = none ↔
      ∀ l ∈ ls, property ∉ l.properties.map Prod.fst := by
  rw [property?_eq_findSome?, Option.or_eq_none_iff, List.findSome?_eq_none_iff]
  simp only [last?_eq_none, mem_propertiesOf, not_exists, not_and]
  constructor
  · rintro ⟨-, h⟩ l hl
    exact h l hl l hl rfl
  · intro h
    exact ⟨fun l hl _ => h l hl, fun _ _ l hl _ => h l hl⟩

/-- A property has the type that is declared last in the common scope, or else in the first scope
that declares it on any of its lines. -/
theorem properties_shadowed (lines scopes : List String) :
    ∃ ls, (∀ ms, ScopeLines scopes ms ↔ ms = ls) ∧ ∀ property,
      (∀ type, (Catalog.ofSchema lines scopes).property? property = some type ↔
        Resolves ls property type) ∧
      ((Catalog.ofSchema lines scopes).property? property = none ↔
        ∀ l ∈ ls, property ∉ l.properties.map Prod.fst) := by
  refine ⟨_, fun ms => scopeLines_iff, ?_⟩
  intro property
  rw [ofSchema_eq]
  exact ⟨fun type => property?_eq_some_iff, property?_eq_none_iff⟩

example : (Catalog.ofSchema [] ["A|", "B|!P", "Common|Q", "A|#P,$P"]).property? "P" = some .float := by
  decide +kernel

end TuiMarkup.Proofs.Precedence
