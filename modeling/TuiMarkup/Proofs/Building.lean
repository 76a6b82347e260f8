import Mathlib.Data.List.Basic
import Mathlib.Tactic.Lemma
import TuiMarkup.Markup.Document
import TuiMarkup.Proofs.DocumentOrder

/-! Moves of the tree builder, and the numbering of the elements they keep. -/

namespace TuiMarkup.Proofs.Building

open TuiMarkup.Markup DocumentOrder

variable {catalog : Catalog} {b b' : Builder} {t : Token}

inductive Skips (b : Builder) : Content → Prop
  | text {value : String} : (b.opened = [] → value.toList.all isSpace) → Skips b (.text value)
  | cdata {value : String} : (b.opened = [] → value.toList.all isSpace) → Skips b (.cdata value)
  | comment {value : String} : Skips b (.comment value)
  | instruction {target : String} : Skips b (.instruction target)
  | eof : b.opened = [] → b.root ≠ none → Skips b .eof

def closed (o : OpenElement) (stop : Location) : Element :=
  ⟨{ o.tag with span := ⟨o.tag.span.start, stop⟩ }, o.children.reverse⟩

inductive Moves (catalog : Catalog) : Builder → Token → Builder → Prop
  | skip {b : Builder} {t : Token} : b.place = .content → Skips b t.content → Moves catalog b t b
  | start {b : Builder} {t : Token} {name : String} : b.place = .content →
      t.content = .tagStart name → (b.opened = [] → b.root = none) →
      Moves catalog b t { b with place := .tag { name, span := t.span } }
  | close {b : Builder} {t : Token} {o : OpenElement} {os : List OpenElement} :
      b.place = .content → b.opened = o :: os → t.content = .tagClose o.name →
      Moves catalog b t ({ b with opened := os }.add (closed o t.span.stop))
  | name {b : Builder} {t : Token} {start : StartTag} {name : String} : b.place = .tag start →
      t.content = .attributeName name →
      Moves catalog b t { b with place := .attribute start name t.span }
  | value {b : Builder} {t : Token} {start : StartTag} {name value : String} {span : Span} :
      b.place = .attribute start name span → t.content = .attributeValue value →
      name ∉ start.attributes.map (·.key) →
      Moves catalog b t { b with
        place := .tag { start with
          attributes := start.attributes ++ [⟨name, value, ⟨span.start, t.span.stop⟩⟩] } }
  | enter {b : Builder} {t : Token} {start : StartTag} : b.place = .tag start →
      t.content = .tagEnd →
      Moves catalog b t { b with
        place := .content
        count := b.count + 1
        opened := ⟨start.name, Builder.makeTag catalog b.count start t.span.stop, []⟩ :: b.opened }
  | void {b : Builder} {t : Token} {start : StartTag} : b.place = .tag start →
      t.content = .tagEndVoid →
      Moves catalog b t ({ b with place := .content, count := b.count + 1 }.add
        ⟨Builder.makeTag catalog b.count start t.span.stop, []⟩)

lemma content_moves (hp : b.place = .content) (h : b.contentToken t = .ok b') :
    Moves catalog b t b' := by
  rw [Builder.contentToken] at h
  split at h
  next name hc =>
    split at h
    · cases h
    next hr =>
      cases h
      apply Moves.start hp hc
      intro ho
      simpa [ho] using hr
  next name hc =>
    split at h
    · cases h
    next o os ho =>
      split at h
      next hn =>
        cases h
        exact .close hp ho (hn ▸ hc)
      · cases h
  next value hc =>
    split at h
    · cases h
    next ht =>
      cases h
      refine .skip hp (hc ▸ .text fun ho => ?_)
      simpa [ho] using ht
  next value hc =>
    split at h
    · cases h
    next ht =>
      cases h
      refine .skip hp (hc ▸ .cdata fun ho => ?_)
      simpa [ho] using ht
  next value hc =>
    cases h
    exact .skip hp (hc ▸ .comment)
  next target hc =>
    cases h
    exact .skip hp (hc ▸ .instruction)
  · cases h
  next hc =>
    split at h
    · cases h
    next ho =>
      split at h
      · cases h
      next hr =>
        cases h
        refine .skip hp (hc ▸ .eof ho ?_)
        simpa using hr
  all_goals cases h

lemma tag_moves {start : StartTag} (hp : b.place = .tag start)
    (h : b.tagToken catalog start t = .ok b') : Moves catalog b t b' := by
  rw [Builder.tagToken] at h
  split at h
  next name hc =>
    cases h
    exact .name hp hc
  next hc =>
    cases h
    exact .enter hp hc
  next hc =>
    cases h
    exact .void hp hc
  · cases h

lemma attribute_moves {start : StartTag} {name : String} {span : Span}
    (hp : b.place = .attribute start name span) (h : b.attributeToken start name span t = .ok b') :
    Moves catalog b t b' := by
  rw [Builder.attributeToken] at h
  split at h
  next value hc =>
    split at h
    · cases h
    next hn =>
      cases h
      apply Moves.value hp hc
      intro hm
      apply hn
      obtain ⟨a, ha, hk⟩ := List.mem_map.mp hm
      exact List.any_eq_true.mpr ⟨a, ha, beq_iff_eq.mpr hk⟩
  · cases h

theorem moves_of_next (h : b.next catalog t = .ok b') : Moves catalog b t b' := by
  rw [Builder.next] at h
  split at h
  next hp => exact content_moves hp h
  next start hp => exact tag_moves hp h
  next start name span hp => exact attribute_moves hp h

lemma add_place (b : Builder) (e : Element) : (b.add e).place = b.place := by
  rw [Builder.add]
  split <;> rfl

lemma add_count (b : Builder) (e : Element) : (b.add e).count = b.count := by
  rw [Builder.add]
  split <;> rfl

lemma Moves.of_eof (hm : Moves catalog b t b') (ht : t.content = .eof) :
    b' = b ∧ b.place = .content ∧ b.opened = [] ∧ b.root ≠ none := by
  cases hm with
  | skip hp hs =>
    rw [ht] at hs
    cases hs with
    | eof ho hr => exact ⟨rfl, hp, ho, hr⟩
  | start _ hc _ | close _ _ hc | name _ hc | value _ hc _ | enter _ hc | void _ hc =>
    rw [ht] at hc
    cases hc

theorem build_invariant {I : Builder → Prop}
    (step : ∀ {b t b'}, Moves catalog b t b' → I b → I b') (ts : List Token) (hb : I b) :
    ∃ b', I b' ∧ (Tree.build catalog b ts).root = b'.root := by
  induction ts generalizing b with
  | nil => exact ⟨b, hb, rfl⟩
  | cons t ts ih =>
    rw [Tree.build]
    split
    next b' h => exact ih (step (moves_of_next h) hb)
    · exact ⟨b, hb, rfl⟩

/-! ### Document order -/

def heading (t : Tag) : Tag :=
  { t with span := ⟨t.span.start, t.span.start⟩ }

def headings (es : List Element) : List Tag :=
  (preorderAll es).map fun e => heading e.tag

def begun (b : Builder) : List Tag :=
  headings b.root.toList ++ b.opened.reverse.flatMap fun o =>
    heading o.tag :: headings o.children.reverse

lemma headings_append (es fs : List Element) :
    headings (es ++ fs) = headings es ++ headings fs := by
  simp [headings, preorderAll_append]

lemma headings_singleton (e : Element) :
    headings [e] = heading e.tag :: headings e.children := by
  simp [headings, preorderAll, preorder_eq]

lemma begun_add (e : Element) (hr : b.root = none) : begun (b.add e) = begun b ++ headings [e] := by
  rw [Builder.add]
  split
  next ho => simp [begun, ho, hr, headings, preorderAll]
  next o os ho => simp [begun, ho, hr, headings_append]

/-- Nothing is open beside a complete root, and the elements have been numbered as they began. -/
structure Numbered (b : Builder) : Prop where
  single : b.root ≠ none → b.opened = [] ∧ b.place = .content
  indices : (begun b).map (·.index) = List.range b.count

lemma Numbered.root_eq_none (h : Numbered b) (hp : b.place ≠ .content ∨ b.opened ≠ []) :
    b.root = none := by
  by_contra hr
  have hs := h.single hr
  simp [hs] at hp

lemma Moves.begun_eq (hm : Moves catalog b t b') (h : Numbered b) :
    (begun b' = begun b ∧ b'.count = b.count) ∨
      ∃ start, b.place = .tag start ∧ b'.count = b.count + 1 ∧
        begun b' = begun b ++ [heading (Builder.makeTag catalog b.count start t.span.stop)] := by
  cases hm with
  | skip | start | name | value => exact .inl ⟨rfl, rfl⟩
  | close hp ho _ =>
    have hr := h.root_eq_none (.inr (by simp [ho]))
    refine .inl ⟨?_, ?_⟩
    · rw [begun_add, headings_singleton]
      · simp [begun, hr, ho, closed, heading]
      · exact hr
    · rw [Builder.add]
      split <;> rfl
  | enter hp _ =>
    have hr := h.root_eq_none (.inl (by simp [hp]))
    refine .inr ⟨_, hp, rfl, ?_⟩
    simp [begun, hr, headings, preorderAll]
  | void hp _ =>
    have hr := h.root_eq_none (.inl (by simp [hp]))
    refine .inr ⟨_, hp, ?_, ?_⟩
    · rw [Builder.add]
      split <;> rfl
    · rw [begun_add, headings_singleton]
      · simp [begun, headings, preorderAll]
      · exact hr

lemma add_single {e : Element} (h : (b.add e).root ≠ none) (hp : b.place = .content)
    (hr : b.root = none) : (b.add e).opened = [] ∧ (b.add e).place = .content := by
  rw [Builder.add] at *
  split at h <;> simp_all

lemma Moves.single (hm : Moves catalog b t b') (h : Numbered b) (hr : b'.root ≠ none) :
    b'.opened = [] ∧ b'.place = .content := by
  cases hm with
  | skip => exact h.single hr
  | start _ _ ho =>
    have hs := h.single hr
    exact absurd (ho hs.1) hr
  | close hp ho _ =>
    exact add_single hr hp (h.root_eq_none (.inr (by simp [ho])))
  | name hp _ | value hp _ _ | enter hp _ =>
    have hs := h.single hr
    simp [hp] at hs
  | void hp _ => exact add_single hr rfl (h.root_eq_none (.inl (by simp [hp])))

theorem Moves.numbered (hm : Moves catalog b t b') (h : Numbered b) : Numbered b' := by
  refine ⟨hm.single h, ?_⟩
  rcases hm.begun_eq h with ⟨hb, hc⟩ | ⟨start, -, hc, hb⟩
  · rw [hb, hc]
    exact h.indices
  · rw [hb, hc, List.map_append, h.indices, List.range_succ]
    rfl

theorem numbered_empty : Numbered {} :=
  ⟨fun h => absurd rfl h, rfl⟩

lemma Numbered.root_indices {e : Element} (h : Numbered b) (hr : b.root = some e) :
    (preorder e).map (·.tag.index) = List.range b.count := by
  have hs := h.single (by simp [hr])
  have hi := h.indices
  simpa [begun, hr, hs, headings, heading, preorderAll, Function.comp_def] using hi

theorem read_indices {source : String} {e : Element}
    (h : (Tree.read catalog source).root = some e) :
    (preorder e).map (·.tag.index) = List.range (preorder e).length := by
  rw [Tree.read] at h
  split at h
  · cases h
  · obtain ⟨b, hb, hr⟩ := build_invariant Moves.numbered (tokenize source).tokens numbered_empty
    have hi := hb.root_indices (hr ▸ h)
    have hl := congrArg List.length hi
    rw [List.length_map, List.length_range] at hl
    rw [hi, hl]

lemma read_root {source path : String} {d : Document}
    (h : Document.read catalog source path = .ok d) :
    (Tree.read catalog source).root = some d.root ∧ (Tree.read catalog source).fault = none := by
  rw [Document.read] at h
  split at h
  · cases h
  · dsimp only at h
    split at h
    · cases h
    next hf =>
      split at h
      next root hr =>
        rw [Document.ofRoot] at h
        split at h
        · cases h
        · cases h
          exact ⟨hr, hf⟩
      · cases h

theorem document_indices {source path : String} {d : Document}
    (h : Document.read catalog source path = .ok d) :
    d.tags.map (·.index) = List.range d.tags.length := by
  have hi := read_indices (read_root h).1
  simpa [Document.tags, elements_eq_preorder, Function.comp_def] using hi

end TuiMarkup.Proofs.Building
