import Mathlib.Tactic.Lemma
import TuiMarkup.Proofs.Declarations
import TuiMarkup.Proofs.Splitting

/-! Catalogs described by their parts, written as lines of text and read back. -/

namespace TuiMarkup.Proofs.SchemaText

open Declarations Splitting

/-! ### Descriptions -/

def Lacks (seps s : String) : Prop :=
  ∀ c ∈ seps.toList, c ∉ s.toList

instance (seps s : String) : Decidable (Lacks seps s) :=
  List.decidableBAll (fun c => c ∉ s.toList) seps.toList

inductive Flag where
  | container
  | generic
  | buttonSlot
  | action
deriving DecidableEq

structure Event where
  name : String
  delegate : String
  obsolete : Bool
  replacement : Option String
  name_ne : name ≠ "" := by decide
  name_lacks : Lacks ",=>" name := by decide
  name_start : name.toList.head? ≠ some '~' := by decide
  delegate_lacks : Lacks "," delegate := by decide
  replacement_lacks : ∀ r ∈ replacement, Lacks ",=" r := by decide

structure Pair where
  property : String
  changeEvent : String
  property_lacks : Lacks ",>" property := by decide
  changeEvent_lacks : Lacks "," changeEvent := by decide

inductive Member where
  | event (e : Event)
  | pair (p : Pair)

def Member.event? : Member → Option Event
  | event e => some e
  | pair _ => none

def Member.pair? : Member → Option Pair
  | event _ => none
  | pair p => some p

structure ControlPart where
  name : String
  outputType : String
  flags : List Flag
  members : List Member
  name_lacks : Lacks "|=" name := by decide
  outputType_lacks : Lacks "|:" outputType := by decide
  events_nodup : ((members.filterMap Member.event?).map (·.name)).Nodup := by decide

def sigils : List Char :=
  ['!', '#', '$', '@', '^', '&', '%']

/-- Whether the name of a property can be told from the mark and the type that go with it. -/
def FitsType (name : String) : PropertyType → Prop
  | .string => ∀ c ∈ name.toList.head?, c ∉ sigils
  | .qualified full => Lacks "=" name ∧ Lacks "," full
  | _ => True

instance (name : String) : (type : PropertyType) → Decidable (FitsType name type)
  | .string => inferInstanceAs (Decidable (∀ c ∈ name.toList.head?, c ∉ sigils))
  | .qualified full => inferInstanceAs (Decidable (Lacks "=" name ∧ Lacks "," full))
  | .bool | .int | .float | .array | .layout | .command => .isTrue trivial

structure Property where
  name : String
  type : PropertyType
  name_ne : name ≠ "" := by decide
  name_lacks : Lacks "," name := by decide
  fits : FitsType name type := by decide

structure Scope where
  name : String
  properties : List Property
  name_lacks : Lacks "|" name := by decide
  properties_nodup : (properties.map (·.name)).Nodup := by decide

structure Description where
  controls : List ControlPart
  scopes : List Scope
  controls_nodup : (controls.map (·.name)).Nodup := by decide
  scopes_nodup : (scopes.map (·.name)).Nodup := by decide

/-! ### Texts -/

def Flag.text : Flag → String
  | container => "container"
  | generic => "generic"
  | buttonSlot => "button-slot"
  | action => "action"

namespace Event

def names (e : Event) : String :=
  match e.replacement with
  | none => e.name
  | some r => e.name ++ ">" ++ r

def text (e : Event) : String :=
  let declaration := e.names ++ "=" ++ e.delegate
  "*" ++ (if e.obsolete then "~" ++ declaration else declaration)

end Event

def Pair.text (p : Pair) : String :=
  "<>" ++ (p.property ++ ">" ++ p.changeEvent)

def Member.text : Member → String
  | event e => e.text
  | pair p => p.text

namespace ControlPart

def head (x : ControlPart) : String :=
  x.name ++ "=" ++ ":".intercalate (x.outputType :: x.flags.map Flag.text)

def text (x : ControlPart) : String :=
  x.head ++ "|" ++ ",".intercalate (x.members.map Member.text)

end ControlPart

def Property.text (p : Property) : String :=
  match p.type with
  | .bool => "!" ++ p.name
  | .int => "#" ++ p.name
  | .float => "$" ++ p.name
  | .string => p.name
  | .array => "@" ++ p.name
  | .layout => "^" ++ p.name
  | .command => "&" ++ p.name
  | .qualified full => "%" ++ (p.name ++ "=" ++ full)

def Scope.text (s : Scope) : String :=
  s.name ++ "|" ++ ",".intercalate (s.properties.map Property.text)

/-! ### Characters -/

variable {c : Char} {s seps : String} {ss : List String}

lemma Lacks.not_mem (h : Lacks seps s) (hc : c ∈ seps.toList) : c ∉ s.toList :=
  h c hc

lemma Event.names_not_mem (e : Event) (hn : c ∉ e.name.toList) (hc : c ≠ '>')
    (hr : ∀ r ∈ e.replacement, c ∉ r.toList) : c ∉ e.names.toList := by
  rw [Event.names]
  cases h : e.replacement with
  | none => exact hn
  | some r =>
    refine not_mem_append (not_mem_append hn ?_) (hr r h)
    simpa using hc

lemma Event.names_start (e : Event) (rest : String) :
    (e.names ++ rest).toList.head? = e.name.toList.head? := by
  obtain ⟨c, cs, hc⟩ := List.exists_cons_of_ne_nil (mt String.toList_eq_nil_iff.mp e.name_ne)
  rw [Event.names]
  cases e.replacement <;> simp [String.toList_append, hc]

lemma Event.text_not_mem (e : Event) : ',' ∉ e.text.toList := by
  have hn : ',' ∉ e.names.toList :=
    e.names_not_mem (e.name_lacks.not_mem (by decide)) (by decide)
      fun r hr => (e.replacement_lacks r hr).not_mem (by decide)
  have hd : ',' ∉ (e.names ++ "=" ++ e.delegate).toList :=
    not_mem_append (not_mem_append hn (by decide)) (e.delegate_lacks.not_mem (by decide))
  rw [Event.text]
  refine not_mem_append (by decide) ?_
  split
  · exact not_mem_append (by decide) hd
  · exact hd

lemma Member.text_not_mem (m : Member) : ',' ∉ m.text.toList := by
  cases m with
  | event e => exact e.text_not_mem
  | pair p =>
    refine not_mem_append (by decide) (not_mem_append (not_mem_append ?_ (by decide)) ?_)
    · exact p.property_lacks.not_mem (by decide)
    · exact p.changeEvent_lacks.not_mem (by decide)

lemma Flag.text_not_mem (f : Flag) : ':' ∉ f.text.toList ∧ '|' ∉ f.text.toList := by
  cases f <;> decide

lemma ControlPart.head_not_mem (x : ControlPart) : '|' ∉ x.head.toList := by
  refine not_mem_append (not_mem_append (x.name_lacks.not_mem (by decide)) (by decide)) ?_
  refine not_mem_intercalate (by decide) (List.forall_mem_cons.mpr ⟨?_, ?_⟩)
  · exact x.outputType_lacks.not_mem (by decide)
  · intro s hs
    obtain ⟨f, -, rfl⟩ := List.mem_map.mp hs
    exact f.text_not_mem.2

lemma Property.text_not_mem (p : Property) : ',' ∉ p.text.toList := by
  have hn := p.name_lacks.not_mem (c := ',') (by decide)
  rw [Property.text]
  split
  case h_4 => exact hn
  case h_8 full h =>
    refine not_mem_append (by decide) (not_mem_append (not_mem_append hn (by decide)) ?_)
    have hf : FitsType p.name (.qualified full) := h ▸ p.fits
    exact hf.2.not_mem (by decide)
  all_goals exact not_mem_append (by decide) hn

/-! ### Reading -/

def Event.entry (e : Event) : EventEntry :=
  ⟨e.delegate, e.obsolete, e.replacement⟩

def Member.line : Member → Schema.Member
  | event e => .event e.name e.entry
  | pair p => .twoWay p.property p.changeEvent

namespace ControlPart

def control (x : ControlPart) : Control where
  outputType := x.outputType
  isContainer := .container ∈ x.flags
  isGeneric := .generic ∈ x.flags
  hasButtonSlot := .buttonSlot ∈ x.flags
  isActionButton := .action ∈ x.flags

def line (x : ControlPart) : Schema.ControlLine :=
  ⟨x.name, x.control, x.members.map Member.line⟩

end ControlPart

def Scope.line (s : Scope) : Schema.ScopeLine :=
  ⟨s.name, s.properties.map fun p => (p.name, p.type)⟩

def readDeclaration? (obsolete : Bool) (s : String) : Option Schema.Member := do
  let (names, delegateType) ← Text.cutFirst '=' s
  let (name, replacement) := match Text.cutFirst '>' names with
    | some (name, replacement) => (name, some replacement)
    | none => (names, none)
  if name = "" then none else some (.event name { delegateType, obsolete, replacement })

lemma readEvent?_marked (s : String) : Schema.readEvent? ("~" ++ s) = readDeclaration? true s := by
  rw [Schema.readEvent?, afterStart?_append]
  rfl

lemma readEvent?_unmarked (h : s.toList.head? ≠ some '~') :
    Schema.readEvent? s = readDeclaration? false s := by
  rw [Schema.readEvent?, afterStart?_eq_none (c := '~') (by decide) h]
  rfl

lemma readDeclaration?_eq (e : Event) (obsolete : Bool) :
    readDeclaration? obsolete (e.names ++ "=" ++ e.delegate) =
      some (.event e.name ⟨e.delegate, obsolete, e.replacement⟩) := by
  have hn : '=' ∉ e.names.toList :=
    e.names_not_mem (e.name_lacks.not_mem (by decide)) (by decide)
      fun r hr => (e.replacement_lacks r hr).not_mem (by decide)
  have ha : '>' ∉ e.name.toList := e.name_lacks.not_mem (by decide)
  rw [readDeclaration?, cutFirst_append (by decide) hn, Event.names]
  cases e.replacement with
  | none =>
    simp only [Option.bind_eq_bind, Option.bind_some, cutFirst_of_not_mem ha]
    exact if_neg e.name_ne
  | some r =>
    have hc : Text.cutFirst '>' (e.name ++ ">" ++ r) = some (e.name, r) :=
      cutFirst_append (by decide) ha r
    simp only [Option.bind_eq_bind, Option.bind_some, hc]
    exact if_neg e.name_ne

lemma readMember?_event (e : Event) : Schema.readMember? e.text = some (.event e.name e.entry) := by
  have hs : Text.afterStart? "<>" e.text = none := by
    apply afterStart?_eq_none (c := '<') (by decide)
    rw [Event.text, String.toList_append]
    simp
  have hh : (e.names ++ "=" ++ e.delegate).toList.head? ≠ some '~' := by
    rw [String.append_assoc, e.names_start]
    exact e.name_start
  rw [Schema.readMember?, hs, Event.text]
  dsimp only
  rw [afterStart?_append, Option.bind_some, Event.entry]
  cases e.obsolete with
  | false => rw [if_neg Bool.false_ne_true, readEvent?_unmarked hh, readDeclaration?_eq]
  | true => rw [if_pos rfl, readEvent?_marked, readDeclaration?_eq]

lemma readMember?_text (m : Member) : Schema.readMember? m.text = some m.line := by
  cases m with
  | event e => exact readMember?_event e
  | pair p =>
    have hp : '>' ∉ p.property.toList := p.property_lacks.not_mem (by decide)
    rw [Schema.readMember?, Member.text, Pair.text, afterStart?_append]
    dsimp only
    rw [cutFirst_append (by decide) hp]
    rfl

def flagged (type : String) (flags : List String) : Control where
  outputType := type
  isContainer := "container" ∈ flags
  isGeneric := "generic" ∈ flags
  hasButtonSlot := "button-slot" ∈ flags
  isActionButton := "action" ∈ flags

lemma setFlag_eq (c : Control) (flag : String) :
    Schema.setFlag c flag =
      { c with
        isContainer := c.isContainer || flag == "container"
        isGeneric := c.isGeneric || flag == "generic"
        hasButtonSlot := c.hasButtonSlot || flag == "button-slot"
        isActionButton := c.isActionButton || flag == "action" } := by
  obtain ⟨type, c₁, c₂, c₃, c₄⟩ := c
  unfold Schema.setFlag
  split_ifs <;> simp_all

lemma foldl_setFlag (flags : List String) (c : Control) :
    flags.foldl Schema.setFlag c =
      { c with
        isContainer := c.isContainer || "container" ∈ flags
        isGeneric := c.isGeneric || "generic" ∈ flags
        hasButtonSlot := c.hasButtonSlot || "button-slot" ∈ flags
        isActionButton := c.isActionButton || "action" ∈ flags } := by
  induction flags generalizing c with
  | nil => simp
  | cons flag flags ih =>
    rw [List.foldl_cons, ih, setFlag_eq]
    simp [Bool.or_assoc, eq_comm, beq_eq_decide]

lemma readControl_intercalate {type : String} {flags : List String}
    (hf : ∀ s ∈ type :: flags, ':' ∉ s.toList) :
    Schema.readControl (":".intercalate (type :: flags)) = flagged type flags := by
  rw [Schema.readControl, pieces_intercalate (by decide) hf (List.cons_ne_nil _ _)]
  dsimp only
  rw [foldl_setFlag]
  simp [flagged]

lemma Flag.text_injective : Function.Injective Flag.text := by
  intro f g
  cases f <;> cases g <;> simp [Flag.text]

lemma readControl_text (x : ControlPart) :
    Schema.readControl (":".intercalate (x.outputType :: x.flags.map Flag.text)) = x.control := by
  have hf : ∀ s ∈ x.outputType :: x.flags.map Flag.text, ':' ∉ s.toList := by
    refine List.forall_mem_cons.mpr ⟨x.outputType_lacks.not_mem (by decide), ?_⟩
    intro s hs
    obtain ⟨f, -, rfl⟩ := List.mem_map.mp hs
    exact f.text_not_mem.1
  have hm : ∀ f : Flag, f.text ∈ x.flags.map Flag.text ↔ f ∈ x.flags :=
    fun f => List.mem_map_of_injective Flag.text_injective
  rw [readControl_intercalate hf, flagged, ControlPart.control]
  simp only [← hm, Flag.text]

lemma pieces_joined (hs : ∀ s ∈ ss, ',' ∉ s.toList) :
    Text.pieces ',' (",".intercalate ss) = if ss = [] then [""] else ss := by
  by_cases hn : ss = []
  · subst hn
    rfl
  · rw [if_neg hn, pieces_intercalate (by decide) hs hn]

theorem readControlLine?_text (x : ControlPart) :
    Schema.readControlLine? x.text = some x.line := by
  have hn : '=' ∉ x.name.toList := x.name_lacks.not_mem (by decide)
  have hs : ∀ s ∈ x.members.map Member.text, ',' ∉ s.toList := by
    intro s hs
    obtain ⟨m, -, rfl⟩ := List.mem_map.mp hs
    exact m.text_not_mem
  have hm : (Text.pieces ',' (",".intercalate (x.members.map Member.text))).filterMap
      Schema.readMember? = x.members.map Member.line := by
    rw [pieces_joined hs]
    split
    next he =>
      rw [List.map_eq_nil_iff.mp he]
      decide
    · rw [List.filterMap_map, ← List.filterMap_eq_map]
      congr 1
      funext m
      exact readMember?_text m
  have hh : Text.cutFirst '=' x.head = some (x.name, _) := cutFirst_append (by decide) hn _
  rw [Schema.readControlLine?, ControlPart.text, cutFirst_append (by decide) x.head_not_mem]
  simp only [Option.bind_eq_bind, Option.bind_some, hh, readControl_text, hm]
  rfl

lemma readProperty_text (p : Property) : Schema.readProperty p.text = (p.name, p.type) := by
  obtain ⟨name, type, hne, hl, hf⟩ := p
  cases type with
  | string =>
    have hs : ∀ c ∈ sigils, ∀ cs, name.toList ≠ c :: cs := by
      intro c hc cs hcs
      exact hf c (by rw [hcs]; rfl) hc
    simp only [sigils, List.forall_mem_cons] at hs
    rw [Property.text, Schema.readProperty]
    split
    case h_8 => rfl
    all_goals simp_all
  | qualified full =>
    have hn : '=' ∉ name.toList := hf.1.not_mem (by decide)
    have ht : ("%" ++ (name ++ "=" ++ full)).toList = '%' :: (name ++ "=" ++ full).toList := by
      rw [String.toList_append]
      rfl
    simp only [Property.text, Schema.readProperty, ht, String.ofList_toList]
    rw [cutFirst_append (by decide) hn]
  | _ => simp [Property.text, Schema.readProperty, String.toList_append]

lemma Property.text_ne (p : Property) : p.text ≠ "" := by
  rw [Property.text]
  split
  case h_4 => exact p.name_ne
  all_goals simp

theorem readScopeLine?_text (s : Scope) : Schema.readScopeLine? s.text = some s.line := by
  have hn : '|' ∉ s.name.toList := s.name_lacks.not_mem (by decide)
  have hs : ∀ t ∈ s.properties.map Property.text, ',' ∉ t.toList := by
    intro t ht
    obtain ⟨p, -, rfl⟩ := List.mem_map.mp ht
    exact p.text_not_mem
  have hp : ((Text.pieces ',' (",".intercalate (s.properties.map Property.text))).filter
      (· != "")).map Schema.readProperty = s.properties.map fun p => (p.name, p.type) := by
    rw [pieces_joined hs]
    split
    next he =>
      rw [List.map_eq_nil_iff.mp he]
      rfl
    · have hf : (s.properties.map Property.text).filter (· != "") =
          s.properties.map Property.text := by
        rw [List.filter_eq_self]
        intro t ht
        obtain ⟨p, -, rfl⟩ := List.mem_map.mp ht
        simpa using p.text_ne
      rw [hf, List.map_map]
      congr 1
      funext p
      exact readProperty_text p
  rw [Schema.readScopeLine?, Scope.text, cutFirst_append (by decide) hn]
  simp only [Option.bind_eq_bind, Option.bind_some, hp]
  rfl

/-! ### What a description says -/

namespace ControlPart

def events (x : ControlPart) : List Event :=
  x.members.filterMap Member.event?

def event? (x : ControlPart) (event : String) : Option Event :=
  x.events.find? (·.name == event)

def changeEvent? (x : ControlPart) (property : String) : Option String :=
  last? property ((x.members.filterMap Member.pair?).map fun p => (p.property, p.changeEvent))

end ControlPart

def Scope.property? (s : Scope) (property : String) : Option PropertyType :=
  (s.properties.find? (·.name == property)).map (·.type)

namespace Description

def control? (d : Description) (type : String) : Option ControlPart :=
  d.controls.find? (·.name == type)

def searched (d : Description) : List Scope :=
  d.scopes.filter (·.name == Catalog.commonScope) ++
    d.scopes.filter (·.name != Catalog.commonScope)

def catalog (d : Description) : Catalog :=
  .ofSchema (d.controls.map ControlPart.text) (d.scopes.map Scope.text)

end Description

variable {α β : Type} {d : Description} {type event property : String}

lemma lookup_map (name : α → String) (value : α → β) (key : String) (xs : List α) :
    (xs.map fun x => (name x, value x)).lookup key = (xs.find? (name · == key)).map value := by
  induction xs with
  | nil => rfl
  | cons x xs ih =>
    rw [List.map_cons, lookup_cons_eq, List.find?_cons, ih]
    by_cases h : key = name x
    · simp [h]
    · simp [h, beq_eq_false_iff_ne.mpr (Ne.symm h)]

lemma filter_name (name : α → String) {xs : List α} (h : (xs.map name).Nodup) (key : String) :
    xs.filter (name · == key) = (xs.find? (name · == key)).toList := by
  induction xs with
  | nil => rfl
  | cons x xs ih =>
    obtain ⟨hn, hxs⟩ := List.nodup_cons.mp h
    rw [List.filter_cons, List.find?_cons, ih hxs]
    by_cases hk : name x = key
    · have hf : xs.find? (name · == key) = none := by
        rw [List.find?_eq_none]
        intro y hy hyk
        exact hn (hk.trans (beq_iff_eq.mp hyk).symm ▸ List.mem_map.mpr ⟨y, hy, rfl⟩)
      simp [hk, hf]
    · simp [beq_eq_false_iff_ne.mpr hk]

lemma find?_name (name : α → String) {xs : List α} (h : (xs.map name).Nodup) {x : α} (hx : x ∈ xs) :
    xs.find? (name · == name x) = some x := by
  have hm : x ∈ xs.filter (name · == name x) := List.mem_filter.mpr ⟨hx, beq_self_eq_true _⟩
  rw [filter_name name h] at hm
  exact Option.mem_toList.mp hm

lemma catalog_eq (d : Description) :
    d.catalog = ofLines (d.controls.map ControlPart.line) (d.scopes.map Scope.line) := by
  have hc : (d.controls.map ControlPart.text).filterMap Schema.readControlLine? =
      d.controls.map ControlPart.line := by
    rw [List.filterMap_map, ← List.filterMap_eq_map]
    congr 1
    funext x
    exact readControlLine?_text x
  have hs : (d.scopes.map Scope.text).filterMap Schema.readScopeLine? =
      d.scopes.map Scope.line := by
    rw [List.filterMap_map, ← List.filterMap_eq_map]
    congr 1
    funext s
    exact readScopeLine?_text s
  rw [Description.catalog, Catalog.ofSchema, hc, hs]
  rfl

lemma membersOf_lines (d : Description) (type : String) :
    membersOf type (d.controls.map ControlPart.line) =
      (d.control? type).toList.flatMap fun x => x.members.map Member.line := by
  rw [membersOf, List.filter_map, List.flatMap_map, Description.control?,
    ← filter_name _ d.controls_nodup]
  rfl

lemma last?_membersOf (pick : Schema.Member → Option (String × α)) (d : Description)
    (type key : String) :
    last? key ((membersOf type (d.controls.map ControlPart.line)).filterMap pick) =
      (d.control? type).bind fun x => last? key (x.members.filterMap (pick ∘ Member.line)) := by
  rw [membersOf_lines]
  cases d.control? type with
  | none => rfl
  | some x => simp [List.filterMap_map]

theorem control?_catalog (d : Description) (type : String) :
    d.catalog.control? type = (d.control? type).map ControlPart.control := by
  have hn : ((d.controls.map fun x => (x.name, x.control)).map Prod.fst).Nodup := by
    rw [List.map_map]
    exact d.controls_nodup
  rw [catalog_eq, control?_ofLines, List.map_map]
  exact (last?_eq_lookup hn type).trans (lookup_map _ _ type d.controls)

theorem event?_catalog (d : Description) (type event : String) :
    d.catalog.event? type event =
      (d.control? type).bind fun x => (x.event? event).map Event.entry := by
  have hx : ∀ x : ControlPart, x.members.filterMap (eventOf? ∘ Member.line) =
      x.events.map fun e => (e.name, e.entry) := by
    intro x
    rw [ControlPart.events, ← List.filterMap_eq_map, List.filterMap_filterMap]
    congr 1
    funext m
    cases m <;> rfl
  rw [catalog_eq, event?_ofLines, last?_membersOf]
  congr 1
  funext x
  have hn : ((x.events.map fun e => (e.name, e.entry)).map Prod.fst).Nodup := by
    rw [List.map_map]
    exact x.events_nodup
  rw [hx, last?_eq_lookup hn, lookup_map]
  rfl

theorem changeEvent?_catalog (d : Description) (type property : String) :
    d.catalog.changeEvent? type property =
      (d.control? type).bind fun x => x.changeEvent? property := by
  rw [catalog_eq, changeEvent?_ofLines, last?_membersOf]
  congr 1
  funext x
  rw [ControlPart.changeEvent?, ← List.filterMap_eq_map, List.filterMap_filterMap]
  congr 2
  funext m
  cases m <;> rfl

theorem isKnownEvent_catalog (d : Description) (event : String) :
    d.catalog.isKnownEvent event = true ↔ ∃ x ∈ d.controls, ∃ e ∈ x.events, e.name = event := by
  rw [catalog_eq, isKnownEvent_ofLines]
  constructor
  · rintro ⟨l, hl, entry, hentry⟩
    obtain ⟨x, hx, rfl⟩ := List.mem_map.mp hl
    obtain ⟨m, hm, he⟩ := List.mem_map.mp hentry
    cases m with
    | event e =>
      cases he
      exact ⟨x, hx, e, List.mem_filterMap.mpr ⟨.event e, hm, rfl⟩, rfl⟩
    | pair p => cases he
  · rintro ⟨x, hx, e, he, rfl⟩
    obtain ⟨m, hm, he⟩ := List.mem_filterMap.mp he
    cases m with
    | event e' =>
      cases he
      exact ⟨x.line, List.mem_map.mpr ⟨x, hx, rfl⟩, e.entry, List.mem_map.mpr ⟨_, hm, rfl⟩⟩
    | pair p => cases he

theorem controlNames_catalog (d : Description) :
    d.catalog.controlNames = d.controls.map (·.name) := by
  have hn : (d.controls.map ControlPart.line).map (·.name) = d.controls.map (·.name) := by
    rw [List.map_map]
    rfl
  rw [catalog_eq, controlNames_ofLines, hn, eraseDups_of_nodup d.controls_nodup]

lemma last?_propertiesOf (d : Description) (scope property : String) :
    last? property (propertiesOf scope (d.scopes.map Scope.line)) =
      (d.scopes.find? (·.name == scope)).bind fun s => s.property? property := by
  have hp : propertiesOf scope (d.scopes.map Scope.line) =
      (d.scopes.find? (·.name == scope)).toList.flatMap (·.line.properties) := by
    rw [propertiesOf, List.filter_map, List.flatMap_map, ← filter_name _ d.scopes_nodup]
    rfl
  rw [hp]
  cases d.scopes.find? (·.name == scope) with
  | none => rfl
  | some s =>
    have hn : ((s.properties.map fun p => (p.name, p.type)).map Prod.fst).Nodup := by
      rw [List.map_map]
      exact s.properties_nodup
    rw [Option.toList_some, List.flatMap_singleton, Option.bind_some, Scope.property?, ← lookup_map,
      ← last?_eq_lookup hn]
    rfl

theorem property?_catalog (d : Description) (property : String) :
    d.catalog.property? property = d.searched.findSome? (·.property? property) := by
  have hn : (d.scopes.map Scope.line).map (·.scope) = d.scopes.map (·.name) := by
    rw [List.map_map]
    rfl
  have hs : ∀ s ∈ d.scopes, s.property? property =
      last? property (propertiesOf s.name (d.scopes.map Scope.line)) := by
    intro s hs
    rw [last?_propertiesOf, find?_name _ d.scopes_nodup hs]
    rfl
  have ho := findSome?_keys Scope.name (f := fun s => last? property
    (propertiesOf s (d.scopes.map Scope.line))) (· != Catalog.commonScope) hs
  rw [catalog_eq, property?_ofLines, hn, eraseDups_of_nodup d.scopes_nodup, ← ho,
    Description.searched, List.findSome?_append, last?_propertiesOf, filter_name _ d.scopes_nodup]
  congr 1
  cases d.scopes.find? (·.name == Catalog.commonScope) with
  | none => rfl
  | some s => cases h : s.property? property <;> simp [h]

/-- A catalog that is read from the lines of a description says what the description says. -/
theorem schema_round_trip (d : Description) :
    d.catalog.controlNames = d.controls.map (·.name) ∧
    (∀ type, d.catalog.control? type = (d.control? type).map fun x =>
      { outputType := x.outputType
        isContainer := .container ∈ x.flags
        isGeneric := .generic ∈ x.flags
        hasButtonSlot := .buttonSlot ∈ x.flags
        isActionButton := .action ∈ x.flags }) ∧
    (∀ type event,
      (d.catalog.event? type event).map
          (fun x => (x.delegateType, x.argumentType, x.obsolete, x.replacement)) =
        ((d.control? type).bind (·.event? event)).map
          fun e => (e.delegate, argumentType e.delegate, e.obsolete, e.replacement)) ∧
    (∀ event, d.catalog.isKnownEvent event = true ↔
      ∃ x ∈ d.controls, ∃ e ∈ x.events, e.name = event) ∧
    (∀ type property, d.catalog.changeEvent? type property =
      (d.control? type).bind (·.changeEvent? property)) ∧
    (∀ property, d.catalog.property? property = d.searched.findSome? (·.property? property)) := by
  refine ⟨controlNames_catalog d, control?_catalog d, ?_, isKnownEvent_catalog d,
    changeEvent?_catalog d, property?_catalog d⟩
  intro type event
  rw [event?_catalog]
  cases d.control? type with
  | none => rfl
  | some x => cases h : x.event? event <;> simp [h, Event.entry, EventEntry.argumentType]

def panel : ControlPart where
  name := "Panel"
  outputType := "Ui.Panel<a=b>"
  flags := [.action, .container]
  members :=
    [.event { name := "Shut", delegate := "H<A=B>", obsolete := true, replacement := some "Go>On" },
      .pair { property := "Text", changeEvent := "A>B" },
      .event { name := "Open|", delegate := "", obsolete := false, replacement := none }]

example : panel.text =
    "Panel=Ui.Panel<a=b>:action:container|*~Shut>Go>On=H<A=B>,<>Text>A>B,*Open|=" := by decide

def panels : Description where
  controls := [panel]
  scopes :=
    [{ name := "Panel",
       properties := [{ name := "!", type := .int }, { name := "Key", type := .bool }] },
      { name := "Common", properties := [{ name := "Key", type := .qualified "A=B" }] }]

example : panels.scopes.map Scope.text = ["Panel|#!,!Key", "Common|%Key=A=B"] := by decide

end TuiMarkup.Proofs.SchemaText
