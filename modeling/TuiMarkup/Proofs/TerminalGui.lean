import Mathlib.Tactic.Lemma
import TuiMarkup.Catalog.TerminalGui
import TuiMarkup.Proofs.SchemaText

/-! Which properties of the controls of Terminal.Gui can be bound both ways. -/

namespace TuiMarkup.Proofs.TerminalGui

open Declarations SchemaText

variable {α : Type} {key type property line : String} {controls scopes : List String}
  {cs : List Char}

/-! ### Control lines -/

def declared (line : String) : List (String × String) :=
  (Schema.readControlLine? line).elim [] fun l =>
    ((l.members.filterMap pairOf?).map Prod.fst).map fun p => (l.name, p)

lemma mem_declared : (type, property) ∈ declared line ↔
    ∃ l, Schema.readControlLine? line = some l ∧ l.name = type ∧
      property ∈ (l.members.filterMap pairOf?).map Prod.fst := by
  unfold declared
  cases Schema.readControlLine? line with
  | none => simp
  | some l => simp [and_left_comm, eq_comm]

lemma control?_ofSchema {l : Schema.ControlLine} (hm : line ∈ controls)
    (hr : Schema.readControlLine? line = some l) (hl : l.name = type) :
    ((Catalog.ofSchema controls scopes).control? type).isSome = true := by
  change ((ofLines _ _).control? type).isSome = true
  rw [control?_ofLines]
  apply last?_isSome.mpr
  have hm : l ∈ controls.filterMap Schema.readControlLine? := List.mem_filterMap.mpr ⟨line, hm, hr⟩
  rw [List.map_map, ← hl]
  exact List.mem_map.mpr ⟨l, hm, rfl⟩

theorem changeEvent?_isSome :
    ((Catalog.ofSchema controls scopes).changeEvent? type property).isSome = true ↔
      (type, property) ∈ controls.flatMap declared := by
  change ((ofLines _ _).changeEvent? type property).isSome = true ↔ _
  rw [changeEvent?_ofLines, last?_membersOf_isSome]
  simp only [List.mem_flatMap, mem_declared]
  constructor
  · rintro ⟨l, hl, hp⟩
    obtain ⟨line, hline, hr⟩ := List.mem_filterMap.mp hl
    exact ⟨line, hline, l, hr, hp⟩
  · rintro ⟨line, hline, l, hr, hp⟩
    exact ⟨l, List.mem_filterMap.mpr ⟨line, hline, hr⟩, hp⟩

/-! ### Characters of lines

Lines are compared by their characters, so that nothing has to be encoded and decoded. -/

lemma cutFirst_ofList (sep : Char) (cs : List Char) : Text.cutFirst sep (String.ofList cs) =
    (Text.cutFirstChars sep cs).map fun p => (String.ofList p.1, String.ofList p.2) := by
  rw [Text.cutFirst, String.toList_ofList]
  rfl

lemma pieces_ofList (sep : Char) (cs : List Char) : Text.pieces sep (String.ofList cs) =
    (Text.piecesChars sep cs).map String.ofList := by
  rw [Text.pieces, String.toList_ofList]

lemma afterStart?_ofList (head cs : List Char) :
    Text.afterStart? (String.ofList head) (String.ofList cs) =
      (Text.afterStartChars? head cs).map String.ofList := by
  rw [Text.afterStart?, String.toList_ofList, String.toList_ofList]

def propertyChars? (cs : List Char) : Option (List Char) :=
  (Text.afterStartChars? ['<', '>'] cs).bind fun rest =>
    (Text.cutFirstChars '>' rest).map Prod.fst

lemma readEvent?_pairOf? (s : String) : (Schema.readEvent? s).bind pairOf? = none := by
  rw [Option.bind_eq_none_iff]
  intro m hm
  obtain ⟨p, -, hm⟩ := Option.bind_eq_some_iff.mp hm
  dsimp only at hm
  cases Text.cutFirst '>' p.1 with
  | none =>
    rw [Option.ite_none_left_eq_some] at hm
    cases hm.2
    rfl
  | some q =>
    rw [Option.ite_none_left_eq_some] at hm
    cases hm.2
    rfl

lemma readMember?_ofList (cs : List Char) :
    ((Schema.readMember? (String.ofList cs)).bind pairOf?).map Prod.fst =
      (propertyChars? cs).map String.ofList := by
  unfold Schema.readMember? propertyChars?
  rw [afterStart?_ofList ['<', '>'] cs]
  cases Text.afterStartChars? ['<', '>'] cs with
  | none =>
    simp only [Option.map_none, Option.bind_none]
    cases Text.afterStart? "*" (String.ofList cs) with
    | none => rfl
    | some rest => rw [Option.bind_some, readEvent?_pairOf?, Option.map_none]
  | some rest =>
    simp only [Option.map_some, Option.bind_some, cutFirst_ofList]
    cases Text.cutFirstChars '>' rest <;> rfl

def declaredChars (cs : List Char) : List (List Char × List Char) :=
  match Text.cutFirstChars '|' cs with
  | none => []
  | some (head, members) =>
    match Text.cutFirstChars '=' head with
    | none => []
    | some (name, _) =>
      ((Text.piecesChars ',' members).filterMap propertyChars?).map fun p => (name, p)

lemma declared_ofList (cs : List Char) : declared (String.ofList cs) =
    (declaredChars cs).map fun p => (String.ofList p.1, String.ofList p.2) := by
  unfold declared declaredChars Schema.readControlLine?
  rw [cutFirst_ofList]
  cases Text.cutFirstChars '|' cs with
  | none => rfl
  | some p =>
    obtain ⟨head, members⟩ := p
    simp only [Option.map_some, Option.bind_eq_bind, Option.bind_some, cutFirst_ofList]
    cases Text.cutFirstChars '=' head with
    | none => rfl
    | some p =>
      obtain ⟨name, type⟩ := p
      have hp : ((Text.piecesChars ',' members).map String.ofList).filterMap
          (fun m => ((Schema.readMember? m).bind pairOf?).map Prod.fst) =
            ((Text.piecesChars ',' members).filterMap propertyChars?).map String.ofList := by
        rw [List.filterMap_map, List.map_filterMap]
        congr 1
        funext m
        exact readMember?_ofList m
      simp only [Option.map_some, Option.bind_some, pieces_ofList]
      change List.map _ (List.map _ (List.filterMap pairOf? (List.filterMap _ _))) = _
      rw [List.filterMap_filterMap, List.map_filterMap, hp, List.map_map, List.map_map]
      rfl

/-! ### The catalog -/

def writable : List (String × String) :=
  [("TextField", "Text"), ("TextView", "Text"), ("CheckBox", "Checked"), ("ListView", "Value"),
    ("ListView", "Source")]

lemma terminalGui_declared : Catalog.terminalGuiControls.flatMap declared = writable := by
  rw [Catalog.terminalGuiControls]
  repeat rw [List.flatMap_cons, declared_ofList]
  decide +kernel

theorem changeEvent?_terminalGui :
    (Catalog.terminalGui.changeEvent? type property).isSome = true ↔
      (type, property) ∈ writable := by
  rw [Catalog.terminalGui, changeEvent?_isSome, terminalGui_declared]

lemma known_of_writable (h : (type, property) ∈ writable) :
    (Catalog.terminalGui.control? type).isSome = true := by
  rw [← terminalGui_declared] at h
  obtain ⟨line, hm, h⟩ := List.mem_flatMap.mp h
  obtain ⟨l, hr, hl, -⟩ := mem_declared.mp h
  exact control?_ofSchema hm hr hl

/-! ### Scope lines -/

def commonProperties (line : String) : List (String × PropertyType) :=
  (Schema.readScopeLine? line).elim [] fun l =>
    if Catalog.commonScope = l.scope then l.properties else []

lemma propertiesOf_common (scopes : List String) :
    propertiesOf Catalog.commonScope (scopes.filterMap Schema.readScopeLine?) =
      scopes.flatMap commonProperties := by
  induction scopes with
  | nil => rfl
  | cons line scopes ih =>
    rw [List.flatMap_cons, commonProperties]
    cases h : Schema.readScopeLine? line with
    | none => rw [List.filterMap_cons_none h, ih, Option.elim_none, List.nil_append]
    | some l => rw [List.filterMap_cons_some h, propertiesOf_cons, ih, Option.elim_some]

lemma property?_ofCommon {t : PropertyType}
    (h : last? property (scopes.flatMap commonProperties) = some t) :
    (Catalog.ofSchema controls scopes).property? property = some t := by
  have hs : ((Catalog.ofSchema controls scopes).scopes.get? Catalog.commonScope).bind
      (·.get? property) = some t := by
    change ((ofLines _ _).scopes.get? _).bind _ = _
    rw [scopes_ofLines, get?_extendScopes, propertiesOf_common, h]
    rfl
  rw [Catalog.property?, hs]
  rfl

lemma commonProperties_ofList (cs : List Char) : commonProperties (String.ofList cs) =
    (Text.cutFirstChars '|' cs).elim [] fun p =>
      if Catalog.commonScope = String.ofList p.1 then
        (((Text.piecesChars ',' p.2).map String.ofList).filter (· != "")).map Schema.readProperty
      else [] := by
  rw [commonProperties, Schema.readScopeLine?, cutFirst_ofList]
  cases Text.cutFirstChars '|' cs with
  | none => rfl
  | some p =>
    simp only [Option.map_some, Option.bind_eq_bind, Option.bind_some, pieces_ofList]
    rfl

lemma property?_text : Catalog.terminalGui.property? "Text" = some .string := by
  apply property?_ofCommon
  rw [Catalog.terminalGuiScopes]
  repeat rw [List.flatMap_cons, commonProperties_ofList]
  decide +kernel

end TuiMarkup.Proofs.TerminalGui
