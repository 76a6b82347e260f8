import Mathlib.Data.List.Induction
import Mathlib.Tactic.Lemma
import TuiMarkup.Proofs.Trimming
import TuiMarkup.Proofs.Validity

/-! Which texts are bindings, and what they say. -/

namespace TuiMarkup.Proofs.BindingGrammar

open Splitting Trimming Binding

/-! ### Grammar -/

def IsStart (c : Char) : Prop :=
  'a' ≤ c ∧ c ≤ 'z' ∨ 'A' ≤ c ∧ c ≤ 'Z' ∨ c = '_'

def IsPart (c : Char) : Prop :=
  IsStart c ∨ '0' ≤ c ∧ c ≤ '9'

def IsIdentifier (s : String) : Prop :=
  ∃ c cs, s.toList = c :: cs ∧ IsStart c ∧ ∀ x ∈ cs, IsPart x

/-- One or more identifiers, which are written with dots between them. -/
structure MemberPath where
  segments : List String
  segments_ne : segments ≠ []
  identifiers : ∀ s ∈ segments, IsIdentifier s

namespace MemberPath

def text (p : MemberPath) : String :=
  ".".intercalate p.segments

def last (p : MemberPath) : String :=
  p.segments.getLast p.segments_ne

end MemberPath

def modeName : Mode → String
  | .oneWay => "OneWay"
  | .twoWay => "TwoWay"

def NamesMode (option : String) (mode : Mode) : Prop :=
  ∃ key value, option = key ++ "=" ++ value ∧ '=' ∉ key.toList ∧
    Text.sameLetters (Text.trim key) "mode" = true ∧
    Text.sameLetters (Text.trim value) (modeName mode) = true

inductive LastMode (options : List String) : Mode → Prop
  | default : (∀ o ∈ options, ∀ m, ¬ NamesMode o m) → LastMode options .oneWay
  | named {before after : List String} {option : String} {mode : Mode} :
      options = before ++ option :: after → NamesMode option mode →
      (∀ o ∈ after, ∀ m, ¬ NamesMode o m) → LastMode options mode

inductive SourceIn (p : MemberPath) : Option String → String → Prop
  | dotted {context : Option String} : 1 < p.segments.length → SourceIn p context p.text
  | absent : SourceIn p none p.text
  | empty : SourceIn p (some "") p.text
  | within {context : String} : p.segments.length = 1 → context ≠ "" →
      SourceIn p (some context) (context ++ "." ++ p.text)

structure Parts (value first : String) (options : List String) : Prop where
  text : Text.trim value = "\x7bBind " ++ ",".intercalate (first :: options) ++ "\x7d"
  lacks : ∀ s ∈ first :: options, ',' ∉ s.toList

/-- The texts for a path and a mode, with blanks wherever they do no harm. -/
inductive Renders (p : MemberPath) : Mode → String → Prop
  | bare {a b c d : String} : IsBlank a → IsBlank b → IsBlank c → IsBlank d →
      Renders p .oneWay (a ++ ("\x7bBind " ++ (b ++ p.text ++ c) ++ "\x7d") ++ d)
  | withMode {a b c d e f g h key name : String} {mode : Mode} :
      IsBlank a → IsBlank b → IsBlank c → IsBlank d → IsBlank e → IsBlank f → IsBlank g →
      IsBlank h → Text.sameLetters key "Mode" = true →
      Text.sameLetters name (modeName mode) = true →
      Renders p mode
        (a ++ ("\x7bBind " ++ (b ++ p.text ++ c ++ "," ++
          (d ++ key ++ e ++ "=" ++ (f ++ name ++ g))) ++ "\x7d") ++ h)

/-! ### Characters -/

variable {c : Char} {s t value first : String} {options : List String} {p : MemberPath}
  {mode : Mode} {context : Option String}

lemma isStart_iff : isIdentifierStart c = true ↔ IsStart c := by
  simp [isIdentifierStart, Markup.isLetter, IsStart, or_assoc]

lemma isIdentifier_iff : isIdentifier s.toList = true ↔ IsIdentifier s := by
  rw [IsIdentifier]
  cases s.toList with
  | nil => simp [isIdentifier]
  | cons c cs =>
    simp [isIdentifier, isStart_iff, IsPart, Text.isDecimalDigit]

lemma IsPart.bounds (h : IsPart c) : 0x30 ≤ c.toNat ∧ c.toNat ≤ 0x7A := by
  rcases h with (⟨hl, hu⟩ | ⟨hl, hu⟩ | rfl) | ⟨hl, hu⟩
  · exact ⟨le_trans (by decide) (Char.le_def.mp hl), Char.le_def.mp hu⟩
  · exact ⟨le_trans (by decide) (Char.le_def.mp hl), le_trans (Char.le_def.mp hu) (by decide)⟩
  · decide
  · exact ⟨Char.le_def.mp hl, le_trans (Char.le_def.mp hu) (by decide)⟩

lemma isBlank_bounds (h : Text.isBlank c = true) : c.toNat ≤ 0x20 ∨ 0x85 ≤ c.toNat := by
  simp only [Text.isBlank, Bool.or_eq_true, Bool.and_eq_true, decide_eq_true_eq, beq_iff_eq] at h
  omega

lemma toLower_of_isBlank (h : Text.isBlank c = true) : c.toLower = c := by
  have hb := isBlank_bounds h
  apply dif_neg
  rintro ⟨hl, hu⟩
  have hl' : 65 ≤ c.toNat := hl
  have hu' : c.toNat ≤ 90 := hu
  omega

lemma not_isPart_of_isBlank (h : Text.isBlank c = true) : ¬ IsPart c := by
  intro hp
  have hb := isBlank_bounds h
  have hc := hp.bounds
  omega

lemma not_mem_of_sameLetters (h : Text.sameLetters s t = true) (hc : c.toLower = c)
    (ht : c ∉ t.toList.map Char.toLower) : c ∉ s.toList := by
  intro hm
  rw [← beq_iff_eq.mp h] at ht
  exact ht (List.mem_map.mpr ⟨c, hm, hc⟩)

lemma trim_of_sameLetters (h : Text.sameLetters s t = true)
    (ht : (t.toList.map Char.toLower).any Text.isBlank = false) : Text.trim s = s := by
  apply trim_of_forall
  intro c hm
  by_contra hb
  rw [Bool.not_eq_false] at hb
  refine not_mem_of_sameLetters h (toLower_of_isBlank hb) ?_ hm
  intro hc
  exact List.any_eq_false.mp ht c hc hb

/-! ### Paths -/

lemma IsIdentifier.isPart (h : IsIdentifier s) : ∀ c ∈ s.toList, IsPart c := by
  obtain ⟨c, cs, hs, hc, hcs⟩ := h
  rw [hs]
  exact List.forall_mem_cons.mpr ⟨.inl hc, hcs⟩

lemma IsIdentifier.not_mem_dot (h : IsIdentifier s) : '.' ∉ s.toList := by
  intro hm
  have hb := (h.isPart '.' hm).bounds
  revert hb
  decide

namespace MemberPath

lemma not_mem_text (p : MemberPath) (hd : c ≠ '.') (hc : ¬ IsPart c) : c ∉ p.text.toList := by
  apply not_mem_intercalate
  · simpa using hd
  · exact fun s hs hm => hc ((p.identifiers s hs).isPart c hm)

lemma not_mem_comma (p : MemberPath) : ',' ∉ p.text.toList := by
  apply p.not_mem_text (by decide)
  intro hc
  have hb := hc.bounds
  revert hb
  decide

lemma trim_text (p : MemberPath) : Text.trim p.text = p.text := by
  apply trim_of_forall
  intro c hm
  by_contra hb
  rw [Bool.not_eq_false] at hb
  refine p.not_mem_text ?_ (not_isPart_of_isBlank hb) hm
  rintro rfl
  cases hb

lemma pieces_text (p : MemberPath) : Text.pieces '.' p.text = p.segments :=
  pieces_intercalate (by decide) (fun s hs => (p.identifiers s hs).not_mem_dot) p.segments_ne

lemma text_cases (p : MemberPath) :
    p.segments.length = 1 ∧ p.text = p.last ∨
      1 < p.segments.length ∧ ∃ front, p.text = front ++ "." ++ p.last := by
  obtain ⟨front, hf⟩ : ∃ front, p.segments = front ++ [p.last] :=
    ⟨_, (List.dropLast_append_getLast p.segments_ne).symm⟩
  by_cases hn : front = []
  · subst hn
    refine .inl ⟨by simp [hf], ?_⟩
    rw [text, hf, List.nil_append, String.intercalate_singleton]
  · refine .inr ⟨?_, ".".intercalate front, ?_⟩
    · have hl := List.length_pos_of_ne_nil hn
      rw [hf, List.length_append, List.length_singleton]
      omega
    · rw [text, hf, String.intercalate_append_of_ne_nil hn (by simp),
        String.intercalate_singleton]

lemma isIdentifier_last (p : MemberPath) : IsIdentifier p.last :=
  p.identifiers _ (List.getLast_mem p.segments_ne)

end MemberPath

lemma isPath_iff : isPath s = true ↔ ∃ p : MemberPath, s = p.text := by
  have ha : isPath s = true ↔ ∀ x ∈ Text.pieces '.' s, IsIdentifier x := by
    simp [isPath, Text.pieces, ← isIdentifier_iff]
  rw [ha]
  constructor
  · intro h
    exact ⟨⟨Text.pieces '.' s, pieces_ne_nil '.' s, h⟩, (intercalate_pieces (by decide) s).symm⟩
  · rintro ⟨p, rfl⟩
    rw [p.pieces_text]
    exact p.identifiers

/-! ### Sources -/

lemma hasChar_dot : Text.hasChar '.' p.text = true ↔ 1 < p.segments.length := by
  rw [Text.hasChar, List.contains_iff_mem]
  rcases p.text_cases with ⟨hl, ht⟩ | ⟨hl, front, ht⟩
  · rw [ht]
    exact iff_of_false p.isIdentifier_last.not_mem_dot (by omega)
  · rw [ht]
    exact iff_of_true (by simp) hl

lemma sourceIn_sourceOf (p : MemberPath) (context : Option String) :
    SourceIn p context (sourceOf p.text context) := by
  have hpos := List.length_pos_of_ne_nil p.segments_ne
  cases context with
  | none => exact .absent
  | some context =>
    by_cases he : context = ""
    · subst he
      exact .empty
    · cases hd : Text.hasChar '.' p.text with
      | true =>
        have hs : sourceOf p.text (some context) = p.text := by simp [sourceOf, hd]
        rw [hs]
        exact .dotted (hasChar_dot.mp hd)
      | false =>
        have hs : sourceOf p.text (some context) = context ++ "." ++ p.text := by
          simp [sourceOf, hd, he]
        have hl : ¬ 1 < p.segments.length := fun hl => by simp [hasChar_dot.mpr hl] at hd
        rw [hs]
        exact .within (by omega) he

lemma member_of_text {b : Binding} (h : b.source = p.text) : b.member = p.last := by
  rw [member, h]
  rcases p.text_cases with ⟨-, ht⟩ | ⟨-, front, ht⟩
  · rw [ht, cutLast_of_not_mem p.isIdentifier_last.not_mem_dot]
  · rw [ht, cutLast_append (by decide) front p.isIdentifier_last.not_mem_dot]

lemma member_eq_last {b : Binding} (h : SourceIn p context b.source) : b.member = p.last := by
  generalize hs : b.source = source at h
  cases h with
  | dotted => exact member_of_text hs
  | absent => exact member_of_text hs
  | empty => exact member_of_text hs
  | @within context hl _ =>
    rcases p.text_cases with ⟨-, ht⟩ | ⟨hl', -⟩
    · rw [member, hs, ht, cutLast_append (by decide) context p.isIdentifier_last.not_mem_dot]
    · omega

/-! ### Modes -/

lemma read?_iff : Mode.read? s = some mode ↔
    Text.sameLetters (Text.trim s) (modeName mode) = true := by
  rw [Mode.read?]
  split
  next h =>
    cases mode with
    | oneWay => simp [modeName, h]
    | twoWay =>
      refine iff_of_false (by simp) fun h' => ?_
      have he := (beq_iff_eq.mp h).symm.trans (beq_iff_eq.mp h')
      revert he
      decide
  next h => cases mode <;> simp [modeName, h]

lemma equals_toList : "=".toList = ['='] := by decide

lemma optionMode?_iff : optionMode? s = some mode ↔ NamesMode s mode := by
  rw [optionMode?, NamesMode]
  constructor
  · intro h
    split at h
    next key value hc =>
      obtain ⟨hs, hk⟩ := (cutFirst_eq_some equals_toList).mp hc
      split at h
      next hm => exact ⟨key, value, hs, hk, hm, read?_iff.mp h⟩
      · cases h
    · cases h
  · rintro ⟨key, value, rfl, hk, hm, hv⟩
    rw [cutFirst_append equals_toList hk]
    dsimp only
    rw [if_pos hm, read?_iff.mpr hv]

lemma optionMode?_trim (s : String) : optionMode? (Text.trim s) = optionMode? s := by
  obtain ⟨a, b, ha, hb, hs⟩ := exists_trim s
  generalize Text.trim s = t at hs ⊢
  subst hs
  by_cases hm : '=' ∈ t.toList
  · obtain ⟨key, value, rfl, hk⟩ := exists_first equals_toList hm
    have he : a ++ (key ++ "=" ++ value) ++ b = (a ++ key) ++ "=" ++ (value ++ b) := by
      simp only [String.append_assoc]
    have hk' : '=' ∉ (a ++ key).toList := not_mem_append (ha.not_mem rfl) hk
    rw [he, optionMode?, optionMode?, cutFirst_append equals_toList hk,
      cutFirst_append equals_toList hk']
    simp only [Mode.read?, trim_after ha, trim_before value hb]
  · have hm' : '=' ∉ (a ++ t ++ b).toList :=
      not_mem_append (not_mem_append (ha.not_mem rfl) hm) (hb.not_mem rfl)
    rw [optionMode?, optionMode?, cutFirst_of_not_mem hm, cutFirst_of_not_mem hm']

lemma modeOf_map_trim (options : List String) :
    modeOf (options.map Text.trim) = modeOf options := by
  rw [modeOf, List.foldl_map]
  simp only [optionMode?_trim]
  rfl

lemma modeOf_concat (options : List String) (s : String) :
    modeOf (options ++ [s]) = (optionMode? s).getD (modeOf options) := by
  rw [modeOf, List.foldl_append]
  rfl

lemma LastMode.concat (h : LastMode options mode) (hn : ∀ m, ¬ NamesMode s m) :
    LastMode (options ++ [s]) mode := by
  cases h with
  | default ho => exact .default (List.forall_mem_append.mpr ⟨ho, by simpa using hn⟩)
  | named he hm ha =>
    refine .named (by rw [he, List.append_assoc, List.cons_append]) hm ?_
    exact List.forall_mem_append.mpr ⟨ha, by simpa using hn⟩

lemma lastMode_modeOf (options : List String) : LastMode options (modeOf options) := by
  induction options using List.reverseRecOn with
  | nil => exact .default (List.forall_mem_nil _)
  | append_singleton options s ih =>
    rw [modeOf_concat]
    cases hs : optionMode? s with
    | some mode => exact .named rfl (optionMode?_iff.mp hs) (List.forall_mem_nil _)
    | none =>
      refine ih.concat fun m hm => ?_
      rw [optionMode?_iff.mpr hm] at hs
      cases hs

/-! ### Bindings -/

lemma exists_parts {b : Binding} (h : read? value context = some b) :
    ∃ first options, Parts value first options := by
  rw [read?, Option.bind_eq_bind, Option.bind_eq_some_iff] at h
  obtain ⟨inner, hi, -⟩ := h
  obtain ⟨rest, hr, he⟩ := Option.bind_eq_some_iff.mp hi
  rw [afterStart?_eq_some] at hr
  rw [beforeEnd?_eq_some] at he
  obtain ⟨first, options, hp⟩ := List.exists_cons_of_ne_nil (pieces_ne_nil ',' inner)
  refine ⟨first, options, ?_, ?_⟩
  · have hc : ",".intercalate (first :: options) = inner := by
      rw [← hp]
      exact intercalate_pieces (by decide) inner
    rw [hr, he, hc, String.append_assoc]
    rfl
  · intro s hs
    rw [← hp] at hs
    exact not_mem_of_mem_pieces hs

lemma Parts.afterStart? (h : Parts value first options) :
    Text.afterStart? bindingOpening (Text.trim value) =
      some (",".intercalate (first :: options) ++ "\x7d") := by
  rw [afterStart?_eq_some, h.text, String.append_assoc]
  rfl

lemma Parts.isBindingValue (h : Parts value first options) : isBindingValue value = true := by
  have he : Text.beforeEnd? bindingClosing (Text.trim value) =
      some ("\x7bBind " ++ ",".intercalate (first :: options)) :=
    beforeEnd?_eq_some.mpr h.text
  rw [TuiMarkup.isBindingValue, Text.startsWith, Text.endsWith, h.afterStart?, he]
  rfl

lemma read?_of_parts (h : Parts value first options) (context : Option String) :
    read? value context =
      if isPath (Text.trim first) then
        some ⟨Text.trim first, modeOf options, sourceOf (Text.trim first) context⟩
      else none := by
  have hi : (Text.afterStart? bindingOpening (Text.trim value)).bind
      (Text.beforeEnd? bindingClosing) = some (",".intercalate (first :: options)) := by
    rw [h.afterStart?, Option.bind_some, beforeEnd?_eq_some]
    rfl
  have hp := @map_trim_pieces ',' rfl (",".intercalate (first :: options))
  rw [pieces_intercalate (by decide) h.lacks (by simp)] at hp
  obtain ⟨f, os, hf, ht, ho⟩ := List.map_eq_cons_iff.mp hp
  rw [read?, hi, Option.bind_eq_bind, Option.bind_some, hf]
  dsimp only
  rw [ht, ← modeOf_map_trim os, ho, modeOf_map_trim]

/-! ### Renderings -/

lemma trim_braced (s : String) :
    Text.trim ("\x7bBind " ++ s ++ "\x7d") = "\x7bBind " ++ s ++ "\x7d" := by
  apply trim_eq_self
  · intro c hc
    have hb : c = '\x7b' := by simpa [eq_comm] using hc
    rw [hb]
    decide
  · intro c hc
    have hb : c = '\x7d' := by
      rw [String.toList_append, List.getLast?_append] at hc
      simpa [eq_comm] using hc
    rw [hb]
    decide

section Written

variable {b c d e f g key name : String}

lemma written_path (hb : IsBlank b) (hc : IsBlank c) :
    Text.trim (b ++ p.text ++ c) = p.text ∧ ',' ∉ (b ++ p.text ++ c).toList := by
  constructor
  · rw [trim_around hb p.text hc, p.trim_text]
  · exact not_mem_append (not_mem_append (hb.not_mem rfl) p.not_mem_comma) (hc.not_mem rfl)

lemma written_mode (hd : IsBlank d) (he : IsBlank e) (hf : IsBlank f) (hg : IsBlank g)
    (hk : Text.sameLetters key "Mode" = true)
    (hn : Text.sameLetters name (modeName mode) = true) :
    NamesMode (d ++ key ++ e ++ "=" ++ (f ++ name ++ g)) mode ∧
      ',' ∉ (d ++ key ++ e ++ "=" ++ (f ++ name ++ g)).toList := by
  have hl : ((modeName mode).toList.map Char.toLower).any Text.isBlank = false ∧
      ',' ∉ (modeName mode).toList.map Char.toLower := by
    cases mode <;> decide
  have heq : '=' ∉ key.toList := not_mem_of_sameLetters hk (by decide) (by decide)
  have hck : ',' ∉ key.toList := not_mem_of_sameLetters hk (by decide) (by decide)
  have hcn : ',' ∉ name.toList := not_mem_of_sameLetters hn (by decide) hl.2
  have htk : Text.trim (d ++ key ++ e) = key := by
    rw [trim_around hd key he, trim_of_sameLetters hk (by decide)]
  have htn : Text.trim (f ++ name ++ g) = name := by
    rw [trim_around hf name hg, trim_of_sameLetters hn hl.1]
  constructor
  · refine ⟨d ++ key ++ e, f ++ name ++ g, rfl, ?_, by rw [htk]; exact hk, by rw [htn]; exact hn⟩
    exact not_mem_append (not_mem_append (hd.not_mem rfl) heq) (he.not_mem rfl)
  · refine not_mem_append (not_mem_append (not_mem_append (not_mem_append (hd.not_mem rfl) hck)
      (he.not_mem rfl)) (by decide)) ?_
    exact not_mem_append (not_mem_append (hf.not_mem rfl) hcn) (hg.not_mem rfl)

end Written

lemma parts_of_renders (h : Renders p mode value) :
    ∃ first options, Parts value first options ∧ Text.trim first = p.text ∧
      modeOf options = mode := by
  cases h with
  | @bare a b c d ha hb hc hd =>
    obtain ⟨ht, hl⟩ := written_path (p := p) hb hc
    refine ⟨b ++ p.text ++ c, [], ⟨?_, ?_⟩, ht, rfl⟩
    · rw [trim_around ha _ hd, trim_braced, String.intercalate_singleton]
    · simpa using hl
  | @withMode a b c d e f g h key name mode ha hb hc hd he hf hg hh hk hn =>
    obtain ⟨ht, hl⟩ := written_path (p := p) hb hc
    obtain ⟨hm, ho⟩ := written_mode hd he hf hg hk hn
    refine ⟨b ++ p.text ++ c, [d ++ key ++ e ++ "=" ++ (f ++ name ++ g)], ⟨?_, ?_⟩, ht, ?_⟩
    · rw [trim_around ha _ hh, trim_braced, String.intercalate_cons_cons,
        String.intercalate_singleton]
    · exact List.forall_mem_cons.mpr ⟨hl, by simpa using ho⟩
    · have hs : modeOf [d ++ key ++ e ++ "=" ++ (f ++ name ++ g)] = _ := modeOf_concat [] _
      rw [hs, optionMode?_iff.mpr hm, Option.getD_some]

/-- A text is a binding exactly if it has the braces and a path of identifiers before its first
comma. The last of its options that names a mode gives the mode, and only the source of the binding
depends on the context. -/
theorem binding_grammar (value : String) (context : Option String) :
    ((∃ b, read? value context = some b) ↔
      ∃ first options, Parts value first options ∧ ∃ p : MemberPath, Text.trim first = p.text) ∧
    (∀ b, read? value context = some b →
      isBindingValue value = true ∧
      ∃ first options, ∃ p : MemberPath, Parts value first options ∧ Text.trim first = p.text ∧
        b.path = p.text ∧ LastMode options b.mode ∧ SourceIn p context b.source ∧
        b.member = p.last ∧ IsIdentifier b.member) ∧
    (∀ context', (read? value context').map (fun b => (b.path, b.mode)) =
      (read? value context).map fun b => (b.path, b.mode)) ∧
    ∀ p mode, Renders p mode value →
      ∃ b, read? value context = some b ∧ b.path = p.text ∧ b.mode = mode := by
  have hsome : ∀ {first options} {p : MemberPath}, Parts value first options →
      Text.trim first = p.text →
      read? value context = some ⟨p.text, modeOf options, sourceOf p.text context⟩ := by
    intro first options p h ht
    rw [read?_of_parts h, ht, if_pos (isPath_iff.mpr ⟨p, rfl⟩)]
  have hparts : ∀ {b}, read? value context = some b →
      ∃ first options, ∃ p : MemberPath, Parts value first options ∧ Text.trim first = p.text := by
    intro b hb
    obtain ⟨first, options, h⟩ := exists_parts hb
    rw [read?_of_parts h] at hb
    split at hb
    next hp =>
      obtain ⟨p, ht⟩ := isPath_iff.mp hp
      exact ⟨first, options, p, h, ht⟩
    · cases hb
  refine ⟨⟨?_, ?_⟩, ?_, ?_, ?_⟩
  · rintro ⟨b, hb⟩
    obtain ⟨first, options, p, h, ht⟩ := hparts hb
    exact ⟨first, options, h, p, ht⟩
  · rintro ⟨first, options, h, p, ht⟩
    exact ⟨_, hsome h ht⟩
  · intro b hb
    obtain ⟨first, options, p, h, ht⟩ := hparts hb
    rw [hsome h ht] at hb
    cases hb
    have hs := sourceIn_sourceOf p context
    refine ⟨h.isBindingValue, first, options, p, h, ht, rfl, lastMode_modeOf options, hs,
      member_eq_last hs, ?_⟩
    rw [member_eq_last hs]
    exact p.isIdentifier_last
  · intro context'
    rw [Validity.read?_context value context, Validity.read?_context value context',
      Option.map_map, Option.map_map]
    rfl
  · intro p mode h
    obtain ⟨first, options, hp, ht, hm⟩ := parts_of_renders h
    exact ⟨_, hsome hp ht, rfl, hm⟩

-- An option that names no mode is passed over, and the context stands before a single identifier.
example : read? "\x7bBind A ,mode = twoway,Mode=Any\x7d" (some "M") = some ⟨"A", .twoWay, "M.A"⟩ := by
  decide +kernel

end TuiMarkup.Proofs.BindingGrammar
