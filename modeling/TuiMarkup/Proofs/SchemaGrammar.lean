import Mathlib.Tactic.Lemma
import TuiMarkup.Proofs.SchemaText

/-! What the lines of a schema declare, said apart from the way they are read. Every list of lines
declares one list of controls and one of scopes. -/

namespace TuiMarkup.Proofs.SchemaGrammar

open Splitting SchemaText

/-! ### Lists with parts that say nothing -/

/-- What `R` makes of the elements of a list, in order. Those it makes nothing of are passed over. -/
inductive Picks {α β : Type} (R : α → β → Prop) : List α → List β → Prop
  | nil : Picks R [] []
  | skip {a : α} {as : List α} {bs : List β} (h : ∀ b, ¬ R a b) (t : Picks R as bs) :
      Picks R (a :: as) bs
  | take {a : α} {b : β} {as : List α} {bs : List β} (h : R a b) (t : Picks R as bs) :
      Picks R (a :: as) (b :: bs)

section Picks

variable {α β : Type} {R : α → β → Prop} {f : α → Option β} {as : List α} {bs : List β}

lemma picks_filterMap (h : ∀ a b, f a = some b ↔ R a b) (as : List α) :
    Picks R as (as.filterMap f) := by
  induction as with
  | nil => exact .nil
  | cons a as ih =>
    cases ha : f a with
    | none =>
      rw [List.filterMap_cons_none ha]
      apply Picks.skip _ ih
      intro b hb
      rw [(h a b).mpr hb] at ha
      cases ha
    | some b =>
      rw [List.filterMap_cons_some ha]
      exact .take ((h a b).mp ha) ih

lemma picks_iff (h : ∀ a b, f a = some b ↔ R a b) : Picks R as bs ↔ bs = as.filterMap f := by
  constructor
  · intro hp
    induction hp with
    | nil => rfl
    | @skip a as bs hn _ ih =>
      have ha : f a = none := by
        apply Option.eq_none_iff_forall_ne_some.mpr
        intro b hb
        exact hn b ((h a b).mp hb)
      rw [List.filterMap_cons_none ha, ih]
    | @take a b as bs hb _ ih => rw [List.filterMap_cons_some ((h a b).mpr hb), ih]
  · rintro rfl
    exact picks_filterMap h as

lemma Picks.exists_of_mem (h : Picks R as bs) {b : β} (hb : b ∈ bs) : ∃ a ∈ as, R a b := by
  induction h with
  | nil => cases hb
  | skip _ _ ih =>
    obtain ⟨a, ha, hr⟩ := ih hb
    exact ⟨a, .tail _ ha, hr⟩
  | take hr _ ih =>
    rcases List.mem_cons.mp hb with rfl | hb
    · exact ⟨_, .head _, hr⟩
    · obtain ⟨a, ha, hr⟩ := ih hb
      exact ⟨a, .tail _ ha, hr⟩

end Picks

/-! ### Members -/

inductive NamesText : String → String → Option String → Prop
  | single {name : String} (hn : '>' ∉ name.toList) : NamesText name name none
  | replaced {name replacement : String} (hn : '>' ∉ name.toList) :
      NamesText (name ++ ">" ++ replacement) name (some replacement)

inductive EventText (obsolete : Bool) : String → Schema.Member → Prop
  | mk {names name delegate : String} {replacement : Option String}
      (hn : NamesText names name replacement) (he : name ≠ "") (hs : '=' ∉ names.toList) :
      EventText obsolete (names ++ "=" ++ delegate) (.event name ⟨delegate, obsolete, replacement⟩)

inductive MemberText : String → Schema.Member → Prop
  | twoWay {property event : String} (hp : '>' ∉ property.toList) :
      MemberText ("<>" ++ (property ++ ">" ++ event)) (.twoWay property event)
  | event {s : String} {m : Schema.Member} (h : EventText false s m)
      (hs : s.toList.head? ≠ some '~') : MemberText ("*" ++ s) m
  | obsolete {s : String} {m : Schema.Member} (h : EventText true s m) :
      MemberText ("*" ++ ("~" ++ s)) m

variable {s line name : String} {m : Schema.Member}

lemma MemberText.name_ne {entry : EventEntry} (h : MemberText s (.event name entry)) : name ≠ "" := by
  cases h with
  | event h hs =>
    cases h with
    | mk hn he hs => exact he
  | obsolete h =>
    cases h with
    | mk hn he hs => exact he

lemma exists_namesText (names : String) : ∃ name replacement, NamesText names name replacement := by
  by_cases hs : '>' ∈ names.toList
  · obtain ⟨name, replacement, rfl, hn⟩ := exists_first (by decide : ">".toList = ['>']) hs
    exact ⟨name, some replacement, .replaced hn⟩
  · exact ⟨names, none, .single hs⟩

lemma readDeclaration?_of_names {names delegate : String} {replacement : Option String}
    {obsolete : Bool} (hn : NamesText names name replacement) (hs : '=' ∉ names.toList) :
    readDeclaration? obsolete (names ++ "=" ++ delegate) =
      if name = "" then none else some (.event name ⟨delegate, obsolete, replacement⟩) := by
  rw [readDeclaration?, cutFirst_append (by decide) hs]
  cases hn with
  | single hn =>
    simp only [Option.bind_eq_bind, Option.bind_some, cutFirst_of_not_mem hn]
  | @replaced _ r hn =>
    have hc : Text.cutFirst '>' (name ++ ">" ++ r) = some (name, r) := cutFirst_append (by decide) hn r
    simp only [Option.bind_eq_bind, Option.bind_some, hc]

lemma readDeclaration?_iff {obsolete : Bool} :
    readDeclaration? obsolete s = some m ↔ EventText obsolete s m := by
  constructor
  · intro h
    have hr := h
    obtain ⟨⟨names, delegate⟩, hc, -⟩ := Option.bind_eq_some_iff.mp hr
    obtain ⟨rfl, hs⟩ := (cutFirst_eq_some (by decide : "=".toList = ['='])).mp hc
    obtain ⟨name, replacement, hn⟩ := exists_namesText names
    rw [readDeclaration?_of_names hn hs, Option.ite_none_left_eq_some] at h
    obtain ⟨he, h⟩ := h
    cases h
    exact .mk hn he hs
  · rintro ⟨hn, he, hs⟩
    rw [readDeclaration?_of_names hn hs]
    exact if_neg he

lemma readEvent?_iff : Schema.readEvent? s = some m ↔
    (s.toList.head? ≠ some '~' ∧ EventText false s m) ∨ ∃ q, s = "~" ++ q ∧ EventText true q m := by
  by_cases hs : s.toList.head? = some '~'
  · obtain ⟨cs, hc⟩ := List.head?_eq_some_iff.mp hs
    obtain rfl : s = "~" ++ String.ofList cs := by
      apply String.toList_inj.mp
      rw [hc, String.toList_append, String.toList_ofList]
      simp
    rw [readEvent?_marked, readDeclaration?_iff]
    constructor
    · intro h
      exact .inr ⟨_, rfl, h⟩
    · rintro (⟨hn, -⟩ | ⟨q, he, h⟩)
      · exact absurd hs hn
      · rw [← String.toList_inj, String.toList_append, String.toList_append] at he
        rwa [String.toList_inj.mp (List.append_cancel_left he)]
  · rw [readEvent?_unmarked hs, readDeclaration?_iff]
    constructor
    · intro h
      exact .inl ⟨hs, h⟩
    · rintro (⟨-, h⟩ | ⟨q, rfl, -⟩)
      · exact h
      · simp at hs

theorem readMember?_iff : Schema.readMember? s = some m ↔ MemberText s m := by
  constructor
  · intro h
    unfold Schema.readMember? at h
    split at h
    next rest hr =>
      obtain rfl := afterStart?_eq_some.mp hr
      obtain ⟨⟨property, event⟩, hc, rfl⟩ := Option.map_eq_some_iff.mp h
      obtain ⟨rfl, hp⟩ := (cutFirst_eq_some (by decide : ">".toList = ['>'])).mp hc
      exact .twoWay hp
    next =>
      obtain ⟨rest, hr, he⟩ := Option.bind_eq_some_iff.mp h
      obtain rfl := afterStart?_eq_some.mp hr
      rcases readEvent?_iff.mp he with ⟨hs, hm⟩ | ⟨q, rfl, hm⟩
      · exact .event hm hs
      · exact .obsolete hm
  · intro h
    have star : ∀ q, Schema.readMember? ("*" ++ q) = Schema.readEvent? q := by
      intro q
      have hn : Text.afterStart? "<>" ("*" ++ q) = none :=
        afterStart?_eq_none (c := '<') (by decide) (by simp)
      rw [Schema.readMember?, hn]
      dsimp only
      rw [afterStart?_append, Option.bind_some]
    cases h with
    | twoWay hp =>
      rw [Schema.readMember?, afterStart?_append]
      dsimp only
      rw [cutFirst_append (by decide) hp]
      rfl
    | event h hs =>
      rw [star]
      exact readEvent?_iff.mpr (.inl ⟨hs, h⟩)
    | obsolete h =>
      rw [star]
      exact readEvent?_iff.mpr (.inr ⟨_, rfl, h⟩)

/-! ### Control lines -/

inductive ControlText : String → Schema.ControlLine → Prop
  | mk {name type : String} {flags parts : List String} {members : List Schema.Member}
      (hn : '=' ∉ name.toList) (hf : ∀ s ∈ type :: flags, ':' ∉ s.toList)
      (hb : '|' ∉ (name ++ "=" ++ ":".intercalate (type :: flags)).toList)
      (hp : ∀ s ∈ parts, ',' ∉ s.toList) (hm : Picks MemberText parts members) :
      ControlText (name ++ "=" ++ ":".intercalate (type :: flags) ++ "|" ++ ",".intercalate parts)
        ⟨name, flagged type flags, members⟩

lemma filterMap_joined {α : Type} {f : String → Option α} (h : f "" = none) {parts : List String}
    (hp : ∀ s ∈ parts, ',' ∉ s.toList) :
    (Text.pieces ',' (",".intercalate parts)).filterMap f = parts.filterMap f := by
  rw [pieces_joined hp]
  split
  next he => rw [he, List.filterMap_cons_none h]
  next => rfl

theorem readControlLine?_iff {l : Schema.ControlLine} :
    Schema.readControlLine? line = some l ↔ ControlText line l := by
  constructor
  · intro h
    obtain ⟨⟨head, body⟩, hl, h⟩ := Option.bind_eq_some_iff.mp h
    obtain ⟨⟨name, typing⟩, hh, h⟩ := Option.bind_eq_some_iff.mp h
    cases h
    obtain ⟨rfl, hb⟩ := (cutFirst_eq_some (by decide : "|".toList = ['|'])).mp hl
    obtain ⟨rfl, hn⟩ := (cutFirst_eq_some (by decide : "=".toList = ['='])).mp hh
    obtain ⟨type, flags, ht⟩ := List.exists_cons_of_ne_nil (pieces_ne_nil ':' typing)
    have htyping : ":".intercalate (type :: flags) = typing := by
      rw [← ht]
      exact intercalate_pieces (by decide) typing
    have hf : ∀ s ∈ type :: flags, ':' ∉ s.toList := by
      intro s hs
      rw [← ht] at hs
      exact not_mem_of_mem_pieces hs
    have hm : Picks MemberText (Text.pieces ',' body) _ :=
      picks_filterMap (fun _ _ => readMember?_iff) _
    have hl := ControlText.mk hn hf (by rwa [htyping]) (fun _ => not_mem_of_mem_pieces) hm
    rw [intercalate_pieces (by decide), htyping] at hl
    rwa [← htyping, readControl_intercalate hf, htyping]
  · rintro ⟨hn, hf, hb, hp, hm⟩
    rw [Schema.readControlLine?, cutFirst_append (by decide) hb]
    simp only [Option.bind_eq_bind, Option.bind_some]
    rw [cutFirst_append (by decide) hn, Option.bind_some]
    dsimp only
    rw [readControl_intercalate hf, filterMap_joined (by decide) hp,
      (picks_iff fun _ _ => readMember?_iff).mp hm]
    rfl

/-! ### Scope lines -/

def marks : List (Char × PropertyType) :=
  [('!', .bool), ('#', .int), ('$', .float), ('@', .array), ('^', .layout), ('&', .command)]

inductive PropertyText : String → String × PropertyType → Prop
  | marked {c : Char} {name : String} {type : PropertyType} (h : (c, type) ∈ marks) :
      PropertyText (String.singleton c ++ name) (name, type)
  | qualified {name type : String} (hn : '=' ∉ name.toList) :
      PropertyText ("%" ++ (name ++ "=" ++ type)) (name, .qualified type)
  | unqualified {name : String} (hn : '=' ∉ name.toList) :
      PropertyText ("%" ++ name) (name, .string)
  | unmarked {c : Char} {rest : String} (hc : c ∉ sigils) :
      PropertyText (String.singleton c ++ rest) (String.singleton c ++ rest, .string)

inductive ScopeText : String → Schema.ScopeLine → Prop
  | mk {scope : String} {parts : List String} {properties : List (String × PropertyType)}
      (hs : '|' ∉ scope.toList) (hp : ∀ s ∈ parts, ',' ∉ s.toList)
      (hm : Picks PropertyText parts properties) :
      ScopeText (scope ++ "|" ++ ",".intercalate parts) ⟨scope, properties⟩

variable {p : String × PropertyType}

lemma exists_singleton (hs : s ≠ "") : ∃ c rest, s = String.singleton c ++ rest := by
  obtain ⟨c, cs, hc⟩ := List.exists_cons_of_ne_nil (mt String.toList_eq_nil_iff.mp hs)
  refine ⟨c, String.ofList cs, String.toList_inj.mp ?_⟩
  simp [hc, String.toList_append]

lemma exists_propertyText (hs : s ≠ "") : ∃ p, PropertyText s p := by
  obtain ⟨c, rest, rfl⟩ := exists_singleton hs
  by_cases hc : c ∈ sigils
  · have hm : ∀ c ∈ sigils, c = '%' ∨ ∃ e ∈ marks, e.1 = c := by simp [sigils, marks]
    rcases hm c hc with rfl | ⟨⟨c, type⟩, he, rfl⟩
    · by_cases hr : '=' ∈ rest.toList
      · obtain ⟨name, type, rfl, hn⟩ := exists_first (by decide : "=".toList = ['=']) hr
        exact ⟨_, .qualified hn⟩
      · exact ⟨_, .unqualified hr⟩
    · exact ⟨_, .marked he⟩
  · exact ⟨_, .unmarked hc⟩

lemma readProperty_percent (rest : String) : Schema.readProperty ("%" ++ rest) =
    match Text.cutFirst '=' rest with
    | some (name, type) => (name, .qualified type)
    | none => (rest, .string) := by
  have hl : ("%" ++ rest).toList = '%' :: rest.toList := by simp [String.toList_append]
  cases h : Text.cutFirst '=' rest <;> simp [Schema.readProperty, hl, h]

lemma PropertyText.read (h : PropertyText s p) : Schema.readProperty s = p := by
  cases h with
  | @marked c name type h =>
    simp only [marks, List.mem_cons, List.not_mem_nil, or_false, Prod.mk.injEq] at h
    rcases h with ⟨rfl, rfl⟩ | ⟨rfl, rfl⟩ | ⟨rfl, rfl⟩ | ⟨rfl, rfl⟩ | ⟨rfl, rfl⟩ | ⟨rfl, rfl⟩
    all_goals simp [Schema.readProperty, String.toList_append]
  | qualified hn => rw [readProperty_percent, cutFirst_append (by decide) hn]
  | unqualified hn => rw [readProperty_percent, cutFirst_of_not_mem hn]
  | @unmarked c rest hc =>
    simp only [sigils, List.mem_cons, List.not_mem_nil, or_false, not_or] at hc
    have hl : (String.singleton c ++ rest).toList = c :: rest.toList := by
      simp [String.toList_append]
    unfold Schema.readProperty
    split
    case h_8 => rfl
    all_goals
      rename_i h
      cases hl.symm.trans h
      simp at hc

lemma PropertyText.ne_empty (h : PropertyText s p) : s ≠ "" := by
  cases h <;> simp

def readPart? (s : String) : Option (String × PropertyType) :=
  if s = "" then none else some (Schema.readProperty s)

lemma readPart?_iff : readPart? s = some p ↔ PropertyText s p := by
  rw [readPart?, Option.ite_none_left_eq_some, Option.some_inj]
  constructor
  · rintro ⟨hs, rfl⟩
    obtain ⟨p, hp⟩ := exists_propertyText hs
    rwa [hp.read]
  · intro h
    exact ⟨h.ne_empty, h.read⟩

lemma filterMap_readPart? (parts : List String) :
    (parts.filter (· != "")).map Schema.readProperty = parts.filterMap readPart? := by
  rw [← List.filterMap_eq_map, List.filterMap_filter]
  congr 1
  funext s
  by_cases hs : s = "" <;> simp [readPart?, hs]

theorem readScopeLine?_iff {l : Schema.ScopeLine} :
    Schema.readScopeLine? line = some l ↔ ScopeText line l := by
  constructor
  · intro h
    obtain ⟨⟨scope, body⟩, hl, h⟩ := Option.bind_eq_some_iff.mp h
    cases h
    obtain ⟨rfl, hs⟩ := (cutFirst_eq_some (by decide : "|".toList = ['|'])).mp hl
    have hm : Picks PropertyText (Text.pieces ',' body) _ :=
      picks_filterMap (fun _ _ => readPart?_iff) _
    have hl := ScopeText.mk hs (fun _ => not_mem_of_mem_pieces) hm
    rwa [intercalate_pieces (by decide), ← filterMap_readPart?] at hl
  · rintro ⟨hs, hp, hm⟩
    rw [Schema.readScopeLine?, cutFirst_append (by decide) hs]
    simp only [Option.bind_eq_bind, Option.bind_some]
    rw [filterMap_readPart?, filterMap_joined rfl hp, (picks_iff fun _ _ => readPart?_iff).mp hm]
    rfl

/-! ### Schemas -/

def ControlLines : List String → List Schema.ControlLine → Prop :=
  Picks ControlText

def ScopeLines : List String → List Schema.ScopeLine → Prop :=
  Picks ScopeText

theorem controlLines_iff {lines : List String} {ls : List Schema.ControlLine} :
    ControlLines lines ls ↔ ls = lines.filterMap Schema.readControlLine? :=
  picks_iff fun _ _ => readControlLine?_iff

theorem scopeLines_iff {lines : List String} {ls : List Schema.ScopeLine} :
    ScopeLines lines ls ↔ ls = lines.filterMap Schema.readScopeLine? :=
  picks_iff fun _ _ => readScopeLine?_iff

lemma ControlLines.name_ne {lines : List String} {ls : List Schema.ControlLine}
    (h : ControlLines lines ls) {l : Schema.ControlLine} (hl : l ∈ ls) {entry : EventEntry}
    (hm : .event name entry ∈ l.members) : name ≠ "" := by
  obtain ⟨line, -, ⟨_, _, _, _, hp⟩⟩ := Picks.exists_of_mem h hl
  obtain ⟨s, -, hs⟩ := hp.exists_of_mem hm
  exact hs.name_ne

end TuiMarkup.Proofs.SchemaGrammar
