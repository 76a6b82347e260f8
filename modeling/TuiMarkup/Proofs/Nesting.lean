import Mathlib.Data.List.Basic
import Mathlib.Tactic.Lemma
import TuiMarkup.Markup.Tree

/-! Tokens that are nested in one another. A list of tokens is nested in one way at most, and a
nesting has one tree. -/

namespace TuiMarkup.Proofs.Nesting

open Markup

structure Pair where
  key : String
  value : String
  keySpan : Span
  valueSpan : Span

structure Head where
  name : String
  span : Span
  pairs : List Pair

inductive Aside where
  | text (value : String)
  | cdata (value : String)
  | comment (value : String)
  | instruction (target : String)
  | doctype

inductive Item where
  | aside (a : Aside) (span : Span)
  | void (head : Head) (stop : Span)
  | full (head : Head) (stop : Span) (content : List Item) (close : Span)

variable {catalog : Catalog} {h h' : Head} {a : Aside} {x y : Token} {ts us : List Token}
  {n : Item} {ns ms : List Item} {i : ℕ} {es es' : List Element}

/-! ### Tokens -/

def Aside.content : Aside → Content
  | text value => .text value
  | cdata value => .cdata value
  | comment value => .comment value
  | instruction target => .instruction target
  | doctype => .doctype

def Pair.tokens (p : Pair) : List Token :=
  [⟨.attributeName p.key, p.keySpan⟩, ⟨.attributeValue p.value, p.valueSpan⟩]

def Head.tokens (h : Head) : List Token :=
  ⟨.tagStart h.name, h.span⟩ :: h.pairs.flatMap Pair.tokens

mutual

def Item.tokens : Item → List Token
  | .aside a span => [⟨a.content, span⟩]
  | .void head stop => head.tokens ++ [⟨.tagEndVoid, stop⟩]
  | .full head stop content close =>
    head.tokens ++ ⟨.tagEnd, stop⟩ :: (tokensAll content ++ [⟨.tagClose head.name, close⟩])

def tokensAll : List Item → List Token
  | [] => []
  | n :: ns => n.tokens ++ tokensAll ns

end

mutual

def Item.heads : Item → List Head
  | .aside _ _ => []
  | .void head _ => [head]
  | .full head _ content _ => head :: headsAll content

def headsAll : List Item → List Head
  | [] => []
  | n :: ns => n.heads ++ headsAll ns

end

def Head.Distinct (h : Head) : Prop :=
  (h.pairs.map (·.key)).Nodup

def Item.isElement : Item → Bool
  | aside _ _ => false
  | void _ _ | full _ _ _ _ => true

def Aside.Blank : Aside → Prop
  | text value | cdata value => value.toList.all isSpace = true
  | comment _ | instruction _ | doctype => True

def Nests (ts : List Token) (ns : List Item) : Prop :=
  ∃ span, ts = tokensAll ns ++ [⟨.eof, span⟩]

structure WellFormed (ts : List Token) (ns : List Item) : Prop where
  nested : Nests ts ns
  supported : ∀ t ∈ ts, t.content ≠ .doctype
  single : (ns.filter Item.isElement).length = 1
  distinct : ∀ h ∈ headsAll ns, h.Distinct
  blank : ∀ a span, .aside a span ∈ ns → a.Blank

theorem forest_induction {P : List Item → Prop} (nil : P [])
    (aside : ∀ a span ns, P ns → P (.aside a span :: ns))
    (void : ∀ head stop ns, P ns → P (.void head stop :: ns))
    (full : ∀ head stop content close ns, P content → P ns →
      P (.full head stop content close :: ns)) (ns : List Item) : P ns :=
  @Item.rec_1 (fun n => ∀ ns, P ns → P (n :: ns)) P aside void
    (fun head stop content close hc ns => full head stop content close ns hc) nil
    (fun _ ns hn hns => hn ns hns) ns

lemma tokensAll_append (ns ms : List Item) :
    tokensAll (ns ++ ms) = tokensAll ns ++ tokensAll ms := by
  induction ns with
  | nil => rfl
  | cons n ns ih => rw [List.cons_append, tokensAll, tokensAll, ih, List.append_assoc]

lemma tokensAll_concat (ns : List Item) (n : Item) :
    tokensAll (ns ++ [n]) = tokensAll ns ++ n.tokens := by
  rw [tokensAll_append, tokensAll, tokensAll, List.append_nil]

/-! ### One nesting -/

inductive Halts : List Token → Prop
  | close {name : String} {span : Span} {ts : List Token} : Halts (⟨.tagClose name, span⟩ :: ts)
  | eof {span : Span} {ts : List Token} : Halts (⟨.eof, span⟩ :: ts)

lemma not_halts (n : Item) (ts : List Token) : ¬ Halts (n.tokens ++ ts) := by
  intro hh
  cases n with
  | aside a span =>
    rw [Item.tokens] at hh
    cases a <;> cases hh
  | void head stop | full head stop content close =>
    rw [Item.tokens, Head.tokens] at hh
    cases hh

lemma content_injective {a b : Aside} (hc : a.content = b.content) : a = b := by
  cases a <;> cases b <;> simp_all [Aside.content]

lemma content_ne_tagStart (a : Aside) (name : String) : a.content ≠ .tagStart name := by
  cases a <;> nofun

lemma pairs_cancel {ps qs : List Pair} (hx : ∀ name, x.content ≠ .attributeName name)
    (hy : ∀ name, y.content ≠ .attributeName name)
    (h : ps.flatMap Pair.tokens ++ x :: ts = qs.flatMap Pair.tokens ++ y :: us) :
    ps = qs ∧ x = y ∧ ts = us := by
  induction ps generalizing qs with
  | nil =>
    cases qs with
    | nil => simpa using h
    | cons q qs =>
      simp only [List.flatMap_nil, List.flatMap_cons, Pair.tokens, List.nil_append,
        List.cons_append, List.cons.injEq] at h
      exact absurd (congrArg Token.content h.1) (hx q.key)
  | cons p ps ih =>
    cases qs with
    | nil =>
      simp only [List.flatMap_nil, List.flatMap_cons, Pair.tokens, List.nil_append,
        List.cons_append, List.cons.injEq] at h
      exact absurd (congrArg Token.content h.1.symm) (hy p.key)
    | cons q qs =>
      obtain ⟨k, v, ks, vs⟩ := p
      obtain ⟨k', v', ks', vs'⟩ := q
      simp only [List.flatMap_cons, Pair.tokens, List.cons_append, List.nil_append,
        List.cons.injEq, Token.mk.injEq, Content.attributeName.injEq,
        Content.attributeValue.injEq] at h
      obtain ⟨⟨rfl, rfl⟩, ⟨rfl, rfl⟩, h⟩ := h
      obtain ⟨rfl, hr⟩ := ih h
      exact ⟨rfl, hr⟩

lemma head_cancel (hx : ∀ name, x.content ≠ .attributeName name)
    (hy : ∀ name, y.content ≠ .attributeName name)
    (he : h.tokens ++ x :: ts = h'.tokens ++ y :: us) : h = h' ∧ x = y ∧ ts = us := by
  obtain ⟨name, span, ps⟩ := h
  obtain ⟨name', span', qs⟩ := h'
  simp only [Head.tokens, List.cons_append, List.cons.injEq, Token.mk.injEq,
    Content.tagStart.injEq] at he
  obtain ⟨⟨rfl, rfl⟩, he⟩ := he
  obtain ⟨rfl, hr⟩ := pairs_cancel hx hy he
  exact ⟨rfl, hr⟩

lemma exists_cons (hu : Halts us) (he : n.tokens ++ ts = tokensAll ms ++ us) :
    ∃ m ms', ms = m :: ms' ∧ n.tokens ++ ts = m.tokens ++ (tokensAll ms' ++ us) := by
  cases ms with
  | nil =>
    rw [tokensAll, List.nil_append] at he
    exact absurd (he ▸ hu) (not_halts n ts)
  | cons m ms => exact ⟨m, ms, rfl, by rw [he, tokensAll, List.append_assoc]⟩

lemma aside_cancel {span : Span} (he : (Item.aside a span).tokens ++ ts = n.tokens ++ us) :
    n = .aside a span ∧ ts = us := by
  rw [Item.tokens, List.singleton_append] at he
  cases n with
  | aside b span' =>
    rw [Item.tokens, List.singleton_append, List.cons.injEq, Token.mk.injEq] at he
    obtain ⟨⟨hc, rfl⟩, rfl⟩ := he
    exact ⟨by rw [content_injective hc], rfl⟩
  | void head stop | full head stop content close =>
    have hc := congrArg Token.content (List.cons.inj he).1
    exact absurd hc (content_ne_tagStart a head.name)

lemma void_cancel {stop : Span} (he : (Item.void h stop).tokens ++ ts = n.tokens ++ us) :
    n = .void h stop ∧ ts = us := by
  cases n with
  | aside a span => cases (aside_cancel he.symm).1
  | void head stop' =>
    rw [Item.tokens, Item.tokens, List.append_assoc, List.append_assoc] at he
    obtain ⟨rfl, hx, rfl⟩ := head_cancel (by nofun) (by nofun) he
    cases hx
    exact ⟨rfl, rfl⟩
  | full head stop' content close =>
    rw [Item.tokens, Item.tokens, List.append_assoc, List.append_assoc] at he
    obtain ⟨-, hx, -⟩ := head_cancel (by nofun) (by nofun) he
    cases hx

lemma full_cancel {stop close : Span}
    (he : (Item.full h stop ns close).tokens ++ ts = n.tokens ++ us) :
    ∃ ms close', n = .full h stop ms close' ∧
      tokensAll ns ++ ⟨.tagClose h.name, close⟩ :: ts =
        tokensAll ms ++ ⟨.tagClose h.name, close'⟩ :: us := by
  cases n with
  | aside a span => cases (aside_cancel he.symm).1
  | void head stop' => cases (void_cancel he.symm).1
  | full head stop' content close' =>
    rw [Item.tokens, Item.tokens, List.append_assoc, List.append_assoc] at he
    obtain ⟨rfl, hx, hr⟩ := head_cancel (by nofun) (by nofun) he
    cases hx
    exact ⟨content, close', rfl, by simpa using hr⟩

/-- The items can be read off their tokens, whatever follows. -/
theorem tokensAll_cancel (ht : Halts ts) (hu : Halts us)
    (he : tokensAll ns ++ ts = tokensAll ms ++ us) : ns = ms ∧ ts = us := by
  induction ns using forest_induction generalizing ms ts us with
  | nil =>
    cases ms with
    | nil => exact ⟨rfl, he⟩
    | cons m ms =>
      rw [tokensAll, tokensAll, List.nil_append, List.append_assoc] at he
      exact absurd (he ▸ ht) (not_halts m _)
  | aside a span ns ih =>
    rw [tokensAll, List.append_assoc] at he
    obtain ⟨m, ms', rfl, hm⟩ := exists_cons hu he
    obtain ⟨rfl, hr⟩ := aside_cancel hm
    obtain ⟨rfl, hts⟩ := ih ht hu hr
    exact ⟨rfl, hts⟩
  | void head stop ns ih =>
    rw [tokensAll, List.append_assoc] at he
    obtain ⟨m, ms', rfl, hm⟩ := exists_cons hu he
    obtain ⟨rfl, hr⟩ := void_cancel hm
    obtain ⟨rfl, hts⟩ := ih ht hu hr
    exact ⟨rfl, hts⟩
  | full head stop content close ns ihc ih =>
    rw [tokensAll, List.append_assoc] at he
    obtain ⟨m, ms', rfl, hm⟩ := exists_cons hu he
    obtain ⟨content', close', rfl, hc⟩ := full_cancel hm
    -- The content ends at a closing tag on both sides; what follows is left to `ih`.
    obtain ⟨rfl, hr⟩ := ihc .close .close hc
    rw [List.cons.injEq, Token.mk.injEq] at hr
    obtain ⟨⟨-, rfl⟩, hr⟩ := hr
    obtain ⟨rfl, hts⟩ := ih ht hu hr
    exact ⟨rfl, hts⟩

theorem nests_unique (hn : Nests ts ns) (hm : Nests ts ms) : ns = ms := by
  obtain ⟨span, rfl⟩ := hn
  obtain ⟨span', he⟩ := hm
  exact (tokensAll_cancel .eof .eof he).1

/-! ### One tree -/

def Pair.attribute (catalog : Catalog) (p : Pair) : Attribute where
  key := p.key
  value := p.value
  kind := .of catalog p.key p.value
  span := ⟨p.keySpan.start, p.valueSpan.stop⟩

structure TagFor (catalog : Catalog) (index : ℕ) (h : Head) (stop : Location) (t : Tag) :
    Prop where
  index : t.index = index
  type : t.type = localName h.name
  attributes : t.attributes.Perm (h.pairs.map (Pair.attribute catalog))
  sorted : (t.attributes.map (·.key)).Pairwise (· < ·)
  line : t.line = h.span.start.line + 1
  column : t.column = h.span.start.column + 2
  span : t.span = ⟨h.span.start, stop⟩

inductive Forms (catalog : Catalog) : ℕ → List Item → List Element → Prop
  | nil {i : ℕ} : Forms catalog i [] []
  | aside {i : ℕ} {a : Aside} {span : Span} {ns : List Item} {es : List Element} :
      Forms catalog i ns es → Forms catalog i (.aside a span :: ns) es
  | void {i : ℕ} {head : Head} {stop : Span} {tag : Tag} {ns : List Item} {es : List Element} :
      TagFor catalog i head stop.stop tag → Forms catalog (i + 1) ns es →
      Forms catalog i (.void head stop :: ns) (⟨tag, []⟩ :: es)
  | full {i : ℕ} {head : Head} {stop close : Span} {tag : Tag} {content ns : List Item}
      {children es : List Element} : TagFor catalog i head close.stop tag →
      Forms catalog (i + 1) content children →
      Forms catalog (i + 1 + Element.sizeAll children) ns es →
      Forms catalog i (.full head stop content close :: ns) (⟨tag, children⟩ :: es)

lemma TagFor.unique {index : ℕ} {stop : Location} {t t' : Tag} (ht : TagFor catalog index h stop t)
    (ht' : TagFor catalog index h stop t') : t = t' := by
  have hs : ∀ {t}, TagFor catalog index h stop t →
      t.attributes.Pairwise fun x y => x.key < y.key := fun ht => List.pairwise_map.mp ht.sorted
  have ha : t.attributes = t'.attributes :=
    (ht.attributes.trans ht'.attributes.symm).eq_of_pairwise
      (fun x y _ _ hx hy => absurd hy (String.lt_asymm hx)) (hs ht) (hs ht')
  cases t
  cases t'
  rw [Tag.mk.injEq]
  exact ⟨ht.index.trans ht'.index.symm, ht.type.trans ht'.type.symm, ha,
    ht.line.trans ht'.line.symm, ht.column.trans ht'.column.symm, ht.span.trans ht'.span.symm⟩

lemma TagFor.extend {index : ℕ} {stop stop' : Location} {tag : Tag}
    (ht : TagFor catalog index h stop tag) :
    TagFor catalog index h stop' { tag with span := ⟨tag.span.start, stop'⟩ } :=
  { ht with span := by rw [ht.span] }

theorem Forms.unique (hf : Forms catalog i ns es) (hf' : Forms catalog i ns es') : es = es' := by
  induction hf generalizing es' with
  | nil =>
    cases hf'
    rfl
  | aside _ ih =>
    cases hf' with
    | aside hf' => exact ih hf'
  | void ht _ ih =>
    cases hf' with
    | void ht' hf' => rw [ht.unique ht', ih hf']
  | full ht _ _ ihc ih =>
    cases hf' with
    | full ht' hc' hf' =>
      obtain rfl := ihc hc'
      rw [ht.unique ht', ih hf']

lemma Forms.append (hf : Forms catalog i ns es)
    (hf' : Forms catalog (i + Element.sizeAll es) ms es') :
    Forms catalog i (ns ++ ms) (es ++ es') := by
  induction hf with
  | nil => exact hf'
  | aside _ ih => exact .aside (ih hf')
  | @void i head stop tag ns es ht _ ih =>
    apply Forms.void ht (ih _)
    rw [Element.sizeAll, Element.size, Element.sizeAll] at hf'
    convert hf' using 1
    omega
  | @full i head stop close tag content ns children es ht hc _ _ ih =>
    apply Forms.full ht hc (ih _)
    rw [Element.sizeAll, Element.size] at hf'
    convert hf' using 1
    omega

lemma TagFor.distinct {index : ℕ} {stop : Location} {t : Tag} (ht : TagFor catalog index h stop t) :
    h.Distinct := by
  have hs : (t.attributes.map (·.key)).Nodup := ht.sorted.imp (fun hlt => String.ne_of_lt hlt)
  have hp := ht.attributes.map (·.key)
  rw [hp.nodup_iff] at hs
  simpa [Pair.attribute, Function.comp_def, Head.Distinct] using hs

lemma Forms.distinct (hf : Forms catalog i ns es) : ∀ h ∈ headsAll ns, h.Distinct := by
  induction hf with
  | nil => nofun
  | aside _ ih => exact ih
  | void ht _ ih =>
    intro h hh
    rcases List.mem_cons.mp hh with rfl | hh
    · exact ht.distinct
    · exact ih h hh
  | full ht _ _ ihc ih =>
    intro h hh
    rw [headsAll, Item.heads] at hh
    rcases List.mem_append.mp hh with hh | hh
    · rcases List.mem_cons.mp hh with rfl | hh
      · exact ht.distinct
      · exact ihc h hh
    · exact ih h hh

lemma Forms.length (hf : Forms catalog i ns es) :
    (ns.filter Item.isElement).length = es.length := by
  induction hf with
  | nil => rfl
  | aside _ ih => exact ih
  | void _ _ ih | full _ _ _ _ ih =>
    rw [List.filter_cons_of_pos rfl, List.length_cons, ih, List.length_cons]

end TuiMarkup.Proofs.Nesting
