import Mathlib.Data.List.TakeWhile
import Mathlib.Tactic.Lemma
import TuiMarkup.Proofs.Building
import TuiMarkup.Proofs.Splitting

/-! Where a line feed of a document can get to. No name has one, and a fault shows one only if it is
the character that was not expected. Values can have some, those that are written as references. -/

namespace TuiMarkup.Proofs.LineFeeds

open Markup Building DocumentOrder Splitting

variable {catalog : Catalog} {a b s : String} {cs : List Char} {f : Failure} {mode : Mode}

def Unbroken (s : String) : Prop :=
  '\n' ∉ s.toList

instance (s : String) : Decidable (Unbroken s) :=
  inferInstanceAs (Decidable ('\n' ∉ s.toList))

lemma unbroken_append : Unbroken (a ++ b) ↔ Unbroken a ∧ Unbroken b := by
  rw [Unbroken, String.toList_append, List.mem_append, not_or]
  rfl

lemma unbroken_ofList : Unbroken (String.ofList cs) ↔ '\n' ∉ cs := by
  rw [Unbroken, String.toList_ofList]

lemma unbroken_given (h : cs.all (· != '\n') = true) : Unbroken (String.ofList cs) := by
  rw [unbroken_ofList]
  intro hm
  exact absurd rfl (bne_iff_ne.mp (List.all_eq_true.mp h '\n' hm))

lemma unbroken_around {cs ds : List Char} (hc : cs.all (· != '\n') = true) (h : Unbroken s)
    (hd : ds.all (· != '\n') = true) : Unbroken (String.ofList cs ++ s ++ String.ofList ds) :=
  unbroken_append.mpr ⟨unbroken_append.mpr ⟨unbroken_given hc, h⟩, unbroken_given hd⟩

lemma not_mem_of_class {p : Char → Bool} (hp : p '\n' = false) (h : ∀ c ∈ cs, p c = true) :
    '\n' ∉ cs := by
  intro hm
  rw [h '\n' hm] at hp
  cases hp

lemma not_mem_takeWhile {p : Char → Bool} (hp : p '\n' = false) (cs : List Char) :
    '\n' ∉ cs.takeWhile p :=
  not_mem_of_class hp fun _ hc => List.mem_takeWhile_imp hc

lemma unbroken_localName (h : Unbroken s) : Unbroken (localName s) := by
  rw [localName]
  split
  next rest hc =>
    have hm : ":".toList = [':'] := by decide
    obtain ⟨rfl, -⟩ := (cutFirst_eq_some hm).mp hc
    exact (unbroken_append.mp h).2
  · exact h

/-! ### Steps -/

def Shown (c : Cause) : Prop :=
  Unbroken c.message ∨ c = .unexpectedChar '\n'

def CleanMode : Mode → Prop
  | .equals name | .value name => Unbroken name
  | .content | .tag _ => True

def CleanContent (V : String → Prop) : Content → Prop
  | .tagStart name | .attributeName name | .tagClose name => Unbroken name
  | .attributeValue value => V value
  | _ => True

def CleanPiece : Piece → Prop
  | .token content _ => CleanContent (fun _ => True) content
  | .gap _ => True

def CleanStep : Step → Prop
  | .read piece next _ => CleanPiece piece ∧ CleanMode next
  | .fail _ failure => Shown failure.cause

lemma shown_unexpected (cs : List Char) : Shown (unexpected cs).cause := by
  cases cs with
  | nil => exact .inl (unbroken_given rfl)
  | cons c cs =>
    by_cases hc : c = '\n'
    · exact .inr (congrArg Cause.unexpectedChar hc)
    · have hu : Unbroken c.toString := by
        simpa [Unbroken, eq_comm] using hc
      exact .inl (unbroken_around rfl hu rfl)

lemma named_clean {head : List Char} {k : List Char → List Char → Step}
    (h : ∀ name rest, Unbroken (String.ofList name) → CleanStep (k name rest)) :
    CleanStep (named head cs k) := by
  unfold named
  split
  · split
    · exact h _ _ (unbroken_ofList.mpr (not_mem_takeWhile rfl _))
    · exact shown_unexpected _
  · exact shown_unexpected _

lemma closeReference_shown {value : Option Char} {text : List Char} {cause : String → Cause}
    (h : closeReference value text cause cs = .error f) (ht : '\n' ∉ text)
    (hc : ∀ s, Unbroken s → Unbroken (cause s).message) : Unbroken f.cause.message := by
  unfold closeReference at h
  split at h
  · split at h
    · cases h
    · cases h
      apply hc
      rw [unbroken_ofList]
      simpa using ht
  · cases h
    exact hc _ (unbroken_ofList.mpr ht)

lemma reference_shown (h : reference cs = .error f) : Unbroken f.cause.message := by
  unfold reference numericReference at h
  split at h
  · refine closeReference_shown h ?_ fun s hs => unbroken_around rfl hs rfl
    simpa using not_mem_takeWhile rfl _
  · refine closeReference_shown h ?_ fun s hs => unbroken_around rfl hs rfl
    simpa using not_mem_takeWhile rfl _
  · refine closeReference_shown h ?_ fun s hs => unbroken_around rfl hs rfl
    simpa using not_mem_takeWhile rfl _

lemma run_shown {halts : Char → Bool} {spell : Char → Char}
    (h : (run halts spell cs).failure = some f) : Unbroken f.cause.message := by
  fun_induction run halts spell cs with
  | case1 => cases h
  | case2 => cases h
  | case3 cs r hr _ ih => exact ih h
  | case4 cs f' hr =>
    cases h
    exact reference_shown hr
  | case5 c cs _ _ ih => exact ih h

lemma delimited_clean {opening mark : String} {content : String → Content}
    (h : ∀ body, CleanContent (fun _ => True) (content body)) :
    CleanStep (delimited opening mark content cs) := by
  unfold delimited
  split
  · exact ⟨h _, trivial⟩
  · exact .inl (unbroken_given rfl)

lemma contentStep_clean (cs : List Char) : CleanStep (contentStep cs) := by
  unfold contentStep
  split
  · exact delimited_clean fun _ => trivial
  · exact delimited_clean fun _ => trivial
  · unfold doctypeStep
    split
    · exact ⟨trivial, trivial⟩
    · exact .inl (unbroken_given rfl)
  · apply named_clean
    intro name rest _
    split
    · exact ⟨trivial, trivial⟩
    · exact .inl (unbroken_given rfl)
  · apply named_clean
    intro name rest hn
    dsimp only
    split
    · exact ⟨hn, trivial⟩
    · exact shown_unexpected _
  · apply named_clean
    intro name rest hn
    exact ⟨hn, trivial⟩
  · unfold textStep
    dsimp only
    split
    next hf => exact .inl (run_shown hf)
    · exact ⟨trivial, trivial⟩

lemma tagStep_clean (spaced : Bool) (cs : List Char) : CleanStep (tagStep spaced cs) := by
  unfold tagStep
  split
  · exact shown_unexpected _
  · exact ⟨trivial, trivial⟩
  · exact shown_unexpected _
  · exact ⟨trivial, trivial⟩
  · split
    · exact ⟨trivial, trivial⟩
    · split
      · apply named_clean
        intro name rest hn
        exact ⟨hn, hn⟩
      · exact .inl (unbroken_given rfl)

lemma equalsStep_clean (h : Unbroken s) (cs : List Char) : CleanStep (equalsStep s cs) := by
  unfold equalsStep
  split
  · exact ⟨trivial, h⟩
  · split
    · exact ⟨trivial, h⟩
    · exact .inl (unbroken_around rfl h rfl)
  · exact .inl (unbroken_around rfl h rfl)

lemma quotedStep_clean (quote : Char) (cs : List Char) : CleanStep (quotedStep quote cs) := by
  unfold quotedStep
  dsimp only
  split
  next hf => exact .inl (run_shown hf)
  · split
    · split
      · exact ⟨trivial, trivial⟩
      · exact .inl (unbroken_given rfl)
    · exact shown_unexpected _

lemma valueStep_clean (h : Unbroken s) (cs : List Char) : CleanStep (valueStep s cs) := by
  unfold valueStep
  split
  · split
    · exact ⟨trivial, h⟩
    · split
      · exact quotedStep_clean _ _
      · exact .inl (unbroken_around rfl h rfl)
  · exact .inl (unbroken_around rfl h rfl)

theorem step_clean (h : CleanMode mode) (cs : List Char) : CleanStep (step mode cs) := by
  cases mode with
  | content => exact contentStep_clean cs
  | tag spaced => exact tagStep_clean spaced cs
  | equals name => exact equalsStep_clean h cs
  | value name => exact valueStep_clean h cs

/-! ### Tokens -/

theorem scan_clean (mode : Mode) (cs : List Char) (h : CleanMode mode) :
    (∀ p ∈ (scan mode cs).pieces, CleanPiece p) ∧
      ∀ f, (scan mode cs).failure = some f → Shown f.cause := by
  fun_induction scan mode cs with
  | case1 mode cs _ =>
    constructor
    · intro p hp
      cases hp
    · intro f hf
      cases hf
  | case2 mode cs _ piece next rest hs ih =>
    have hc := step_clean h cs
    rw [hs] at hc
    obtain ⟨hp, hf⟩ := ih hc.2
    exact ⟨List.forall_mem_cons.mpr ⟨hc.1, hp⟩, hf⟩
  | case3 mode cs _ text failure hs =>
    have hc := step_clean h cs
    rw [hs] at hc
    refine ⟨List.forall_mem_singleton.mpr trivial, fun f hf => ?_⟩
    cases hf
    exact hc

lemma content_of_mem_locate {ps : List Piece} {l : Location} {t : Token}
    (h : t ∈ (Piece.locate l ps).1) : ∃ text, .token t.content text ∈ ps := by
  induction ps generalizing l with
  | nil => cases h
  | cons p ps ih =>
    cases p with
    | gap text =>
      obtain ⟨text', ht⟩ := ih h
      exact ⟨text', .tail _ ht⟩
    | token content text =>
      rcases List.mem_cons.mp h with rfl | h
      · exact ⟨text, .head _⟩
      · obtain ⟨text', ht⟩ := ih h
        exact ⟨text', .tail _ ht⟩

def valuesOf (source : String) : List String :=
  (tokenize source).tokens.filterMap fun t =>
    match t.content with
    | .attributeValue value => some value
    | _ => none

lemma clean_of_mem_tokens {source : String} {t : Token} (h : t ∈ (tokenize source).tokens) :
    CleanContent (· ∈ valuesOf source) t.content := by
  have hs := (scan_clean .content (Text.unifyBreakChars source.toList) trivial).1
  have hc : CleanContent (fun _ => True) t.content := by
    rw [tokenize, Scan.tokens] at h
    dsimp only at h
    have hl : t.content = .eof ∨ t ∈ (Piece.locate {}
        (scan .content (Text.unifyBreakChars source.toList)).pieces).1 := by
      split at h
      all_goals
        rcases List.mem_append.mp h with h | h
        · exact .inr h
        · exact .inl (congrArg Token.content (List.mem_singleton.mp h))
    rcases hl with hl | hl
    · rw [hl]
      trivial
    · obtain ⟨text, ht⟩ := content_of_mem_locate hl
      exact hs _ ht
  cases ht : t.content with
  | attributeValue value => exact List.mem_filterMap.mpr ⟨t, h, by rw [ht]⟩
  | _ =>
    rw [ht] at hc
    exact hc

lemma shown_of_fault {source : String} {f : Fault} (h : (tokenize source).fault = some f) :
    Shown f.cause := by
  have hs := (scan_clean .content (Text.unifyBreakChars source.toList) trivial).2
  rw [tokenize, Scan.tokens] at h
  dsimp only at h
  split at h
  · cases h
  next failure hf =>
    cases h
    exact hs failure hf

/-! ### Trees -/

section Trees

variable {V : String → Prop} {b b' : Builder} {t : Token} {ts : List Token}

structure CleanStart (V : String → Prop) (start : StartTag) : Prop where
  name : Unbroken start.name
  attributes : ∀ a ∈ start.attributes, Unbroken a.key ∧ V a.value

structure CleanTag (V : String → Prop) (t : Tag) : Prop where
  type : Unbroken t.type
  attributes : ∀ a ∈ t.attributes, Unbroken a.key ∧ V a.value

def CleanPlace (V : String → Prop) : Place → Prop
  | .content => True
  | .tag start => CleanStart V start
  | .attribute start name _ => CleanStart V start ∧ Unbroken name

structure Carried (V : String → Prop) (b : Builder) : Prop where
  numbered : Numbered b
  place : CleanPlace V b.place
  names : ∀ o ∈ b.opened, Unbroken o.name
  tags : ∀ t ∈ begun b, CleanTag V t

lemma carried_empty (V : String → Prop) : Carried V {} where
  numbered := numbered_empty
  place := trivial
  names o ho := by cases ho
  tags t ht := by cases ht

lemma cleanTag_makeTag {start : StartTag} (h : CleanStart V start) (index : ℕ) (stop : Location) :
    CleanTag V (heading (Builder.makeTag catalog index start stop)) where
  type := unbroken_localName h.name
  attributes a ha := by
    obtain ⟨r, hr, rfl⟩ := List.mem_map.mp ha
    exact h.attributes r (List.mem_mergeSort.mp hr)

lemma names_add {e : Element} (h : ∀ o ∈ b.opened, Unbroken o.name) :
    ∀ o ∈ (b.add e).opened, Unbroken o.name := by
  rw [Builder.add]
  split
  · exact h
  next o os ho =>
    rw [ho] at h
    obtain ⟨hh, hos⟩ := List.forall_mem_cons.mp h
    exact List.forall_mem_cons.mpr ⟨hh, hos⟩

lemma Carried.next_place (h : Carried V b) (hm : Moves catalog b t b')
    (ht : CleanContent V t.content) : CleanPlace V b'.place := by
  have hp := h.place
  cases hm with
  | skip => exact hp
  | start _ hc _ =>
    rw [hc] at ht
    exact ⟨ht, fun a ha => by cases ha⟩
  | close hp' _ _ =>
    rw [add_place, hp']
    trivial
  | name hp' hc =>
    rw [hp'] at hp
    rw [hc] at ht
    exact ⟨hp, ht⟩
  | value hp' hc _ =>
    rw [hp'] at hp
    rw [hc] at ht
    obtain ⟨hs, hn⟩ := hp
    refine ⟨hs.name, fun a ha => ?_⟩
    rcases List.mem_append.mp ha with ha | ha
    · exact hs.attributes a ha
    · cases List.mem_singleton.mp ha
      exact ⟨hn, ht⟩
  | enter => trivial
  | void =>
    rw [add_place]
    trivial

lemma Carried.next_names (h : Carried V b) (hm : Moves catalog b t b') :
    ∀ o ∈ b'.opened, Unbroken o.name := by
  have hn := h.names
  cases hm with
  | skip | start | name | value => exact hn
  | close _ ho _ =>
    rw [ho] at hn
    exact names_add (List.forall_mem_cons.mp hn).2
  | enter hp _ =>
    have hs := h.place
    rw [hp] at hs
    exact List.forall_mem_cons.mpr ⟨hs.name, hn⟩
  | void => exact names_add hn

theorem Carried.next (h : Carried V b) (hm : Moves catalog b t b')
    (ht : CleanContent V t.content) : Carried V b' where
  numbered := hm.numbered h.numbered
  place := h.next_place hm ht
  names := h.next_names hm
  tags := by
    rcases hm.begun_eq h.numbered with ⟨hb, -⟩ | ⟨start, hp, -, hb⟩
    · rw [hb]
      exact h.tags
    -- the one tag that is begun is made from the start that was carried
    · rw [hb]
      intro x hx
      rcases List.mem_append.mp hx with hx | hx
      · exact h.tags x hx
      · rw [List.mem_singleton.mp hx]
        have hs := h.place
        rw [hp] at hs
        exact cleanTag_makeTag hs b.count t.span.stop

/-! ### Faults of the builder -/

lemma unbroken_contentToken {f : Fault} (h : Carried V b) (ht : CleanContent V t.content)
    (he : b.contentToken t = .error f) : Unbroken f.message := by
  rw [Builder.contentToken] at he
  split at he
  next name hc =>
    rw [hc] at ht
    split at he
    · cases he
      exact unbroken_around rfl ht rfl
    · cases he
  next name hc =>
    rw [hc] at ht
    split at he
    · cases he
      exact unbroken_around rfl ht rfl
    next o os ho =>
      split at he
      · cases he
      · cases he
        have hn := h.names o (ho ▸ .head _)
        exact unbroken_append.mpr ⟨unbroken_append.mpr ⟨unbroken_around rfl ht rfl, hn⟩,
          unbroken_given rfl⟩
  · split at he
    · cases he
      exact unbroken_given rfl
    · cases he
  · split at he
    · cases he
      exact unbroken_given rfl
    · cases he
  · cases he
  · cases he
  · cases he
    exact unbroken_given rfl
  · split at he
    next o os ho =>
      cases he
      exact unbroken_around rfl (h.names o (ho ▸ .head _)) rfl
    · split at he
      · cases he
        exact unbroken_given rfl
      · cases he
  all_goals
    cases he
    exact unbroken_given rfl

lemma unbroken_next {f : Fault} (h : Carried V b) (ht : CleanContent V t.content)
    (he : b.next catalog t = .error f) : Unbroken f.message := by
  have hp := h.place
  rw [Builder.next] at he
  split at he
  · exact unbroken_contentToken h ht he
  next start _ =>
    rw [Builder.tagToken] at he
    split at he
    all_goals cases he
    exact unbroken_given rfl
  next start name span hpl =>
    rw [hpl] at hp
    rw [Builder.attributeToken] at he
    split at he
    · split at he
      · cases he
        exact unbroken_around rfl hp.2 rfl
      · cases he
    · cases he
      exact unbroken_around rfl hp.2 rfl

lemma unbroken_endFault {f : Fault} (h : Carried V b) (he : b.endFault? = some f) :
    Unbroken f.message := by
  have hp := h.place
  rw [Builder.endFault?] at he
  split at he
  · cases he
  · cases he
    exact unbroken_given rfl
  next start name span hpl =>
    rw [hpl] at hp
    cases he
    exact unbroken_around rfl hp.2 rfl

theorem build_clean (catalog : Catalog) (h : Carried V b)
    (ht : ∀ t ∈ ts, CleanContent V t.content) :
    (∀ f, (Tree.build catalog b ts).fault = some f → Unbroken f.message) ∧
      ∃ b', Carried V b' ∧ (Tree.build catalog b ts).root = b'.root := by
  induction ts generalizing b with
  | nil => exact ⟨fun f hf => unbroken_endFault h hf, b, h, rfl⟩
  | cons t ts ih =>
    obtain ⟨hh, hts⟩ := List.forall_mem_cons.mp ht
    rw [Tree.build]
    split
    next b' hn => exact ih (h.next (moves_of_next hn) hh) hts
    next fault hn =>
      refine ⟨fun f hf => ?_, b, h, rfl⟩
      cases hf
      exact unbroken_next h hh hn

lemma Carried.root {e : Element} (h : Carried V b) (hr : b.root = some e) :
    ∀ x ∈ preorder e, CleanTag V x.tag := by
  intro x hx
  have hm : heading x.tag ∈ begun b := by
    rw [begun, hr]
    apply List.mem_append_left
    exact List.mem_map.mpr ⟨x, mem_preorderAll.mpr ⟨e, .head _, hx⟩, rfl⟩
  obtain ⟨htype, hattr⟩ := h.tags _ hm
  exact ⟨htype, hattr⟩

end Trees

/-! ### Documents -/

section Documents

variable {source path : String} {d : Document}

theorem fault_unbroken {f : Fault} (h : (Tree.read catalog source).fault = some f) :
    Unbroken f.message ∨ (f.cause = .unexpectedChar '\n' ∧ (tokenize source).fault = some f) := by
  rw [Tree.read] at h
  split at h
  next fault hf =>
    cases h
    exact (shown_of_fault hf).imp_right fun hc => ⟨hc, hf⟩
  · left
    exact (build_clean catalog (carried_empty _) fun t ht => clean_of_mem_tokens ht).1 f h

theorem tag_clean (h : Document.read catalog source path = .ok d) :
    ∀ t ∈ d.tags, CleanTag (· ∈ valuesOf source) t := by
  obtain ⟨hr, hf⟩ := read_root h
  rw [Tree.read] at hr
  split at hr
  · cases hr
  · obtain ⟨-, b, hb, hroot⟩ := build_clean catalog (carried_empty (· ∈ valuesOf source))
      fun t ht => clean_of_mem_tokens ht
    intro t ht
    obtain ⟨x, hx, rfl⟩ := List.mem_map.mp ht
    rw [elements_eq_preorder] at hx
    exact hb.root (hroot ▸ hr) x hx

end Documents

end TuiMarkup.Proofs.LineFeeds
