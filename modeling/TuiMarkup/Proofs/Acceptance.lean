import Mathlib.Data.List.Nodup
import Mathlib.Tactic.Lemma
import TuiMarkup.Proofs.Building
import TuiMarkup.Proofs.Nesting
import TuiMarkup.Proofs.RoundTrip
import TuiMarkup.Proofs.TokenPlaces

/-! The builder takes well-formed lists of tokens and no others. What it has taken is nested, up to
the elements that are still open; what is nested it takes to the end. -/

namespace TuiMarkup.Proofs.Acceptance

open Markup Building Nesting

variable {catalog : Catalog} {b b' : Builder} {t : Token} {ts done : List Token} {e : Element}
  {n : ℕ} {item : Item} {ns : List Item} {h : Head} {os : List OpenElement}

/-! ### Start tags -/

def raw (p : Pair) : RawAttribute :=
  ⟨p.key, p.value, p.keySpan.start, p.valueSpan.stop⟩

def startTag (h : Head) : StartTag :=
  ⟨h.name, h.span, h.pairs.map raw⟩

lemma tagFor_makeTag (hd : h.Distinct) (index : ℕ) (stop : Location) :
    TagFor catalog index h stop (Builder.makeTag catalog index (startTag h) stop) := by
  have hk : (((startTag h).attributes.map fun a => (a.key, a.value)).map Prod.fst).Nodup := by
    simpa [startTag, raw, Function.comp_def, Head.Distinct] using hd
  have ht : RoundTrip.TagOf catalog h.name _ _ := RoundTrip.tagOf_makeTag rfl hk index stop
  refine ⟨rfl, rfl, ?_, ht.sorted, rfl, rfl, rfl⟩
  have hp := (List.mergeSort_perm (h.pairs.map raw) fun a b => decide (a.key ≤ b.key)).map
    fun a => (⟨a.key, a.value, .of catalog a.key a.value, a.span⟩ : Attribute)
  rwa [List.map_map] at hp

/-! ### Nested tokens -/

inductive Held : Place → List Token → Prop
  | content : Held .content []
  | tag {h : Head} : h.Distinct → Held (.tag (startTag h)) h.tokens
  | keyed {h : Head} {name : String} {span : Span} : h.Distinct →
      Held (.attribute (startTag h) name span) (h.tokens ++ [⟨.attributeName name, span⟩])

inductive Opened (catalog : Catalog) :
    List Token → ℕ → Option Element → List OpenElement → Prop
  | outer {ns : List Item} {root : Option Element} : Forms catalog 0 ns root.toList →
      (∀ a span, .aside a span ∈ ns → a.Blank) →
      Opened catalog (tokensAll ns) (Element.sizeAll root.toList) root []
  | inner {done : List Token} {n : ℕ} {os : List OpenElement} {h : Head} {stop : Span} {tag : Tag}
      {ns : List Item} {children : List Element} : Opened catalog done n none os →
      TagFor catalog n h stop.stop tag → Forms catalog (n + 1) ns children.reverse →
      Opened catalog (done ++ (h.tokens ++ ⟨.tagEnd, stop⟩ :: tokensAll ns))
        (n + 1 + Element.sizeAll children.reverse) none (⟨h.name, tag, children⟩ :: os)

lemma Opened.aside {a : Aside} {root : Option Element} (ho : Opened catalog done n root os)
    (hb : os = [] → a.Blank) (span : Span) :
    Opened catalog (done ++ [⟨a.content, span⟩]) n root os := by
  have hx : ∀ i, Forms catalog i [.aside a span] [] := fun i => .aside .nil
  cases ho with
  | @outer ns root hf hs =>
    have hf' := hf.append (hx _)
    rw [List.append_nil] at hf'
    have ht : tokensAll (ns ++ [.aside a span]) = tokensAll ns ++ [⟨a.content, span⟩] := by
      rw [tokensAll_concat, Item.tokens]
    rw [← ht]
    apply Opened.outer hf'
    intro a' span' hm
    rcases List.mem_append.mp hm with hm | hm
    · exact hs a' span' hm
    · cases List.mem_singleton.mp hm
      exact hb rfl
  | inner ho ht hf =>
    have hf' := hf.append (hx _)
    rw [List.append_nil] at hf'
    have hi := Opened.inner ho ht hf'
    rw [tokensAll_concat, Item.tokens] at hi
    simpa using hi

lemma Opened.add (ho : Opened catalog done n none b.opened) (hr : b.root = none)
    (hf : Forms catalog n [item] [e]) :
    Opened catalog (done ++ item.tokens) (n + e.size) (b.add e).root (b.add e).opened := by
  rw [Builder.add]
  generalize b.opened = os at ho ⊢
  cases ho with
  | @outer ns root hf' hs =>
    have hf'' : Forms catalog 0 (ns ++ [item]) (some e).toList := hf'.append hf
    have hi := Opened.outer hf'' ?_
    · simpa [tokensAll_concat, Element.sizeAll] using hi
    · intro a span hm
      rcases List.mem_append.mp hm with hm | hm
      · exact hs a span hm
      · -- An item that makes an element is no aside.
        cases List.mem_singleton.mp hm
        cases hf with
        | aside hf => cases hf
  | inner ho ht hf' =>
    have hf'' := hf'.append hf
    rw [← List.reverse_cons] at hf''
    have hi := Opened.inner ho ht hf''
    simpa [tokensAll_concat, hr, Element.sizeAll, Element.sizeAll_append, Nat.add_assoc] using hi

lemma Opened.close {o : OpenElement} (ho : Opened catalog done b.count none (o :: os))
    (hr : b.root = none) (span : Span) :
    Opened catalog (done ++ [⟨.tagClose o.name, span⟩]) b.count
      ({ b with opened := os }.add (closed o span.stop)).root
      ({ b with opened := os }.add (closed o span.stop)).opened := by
  generalize hn : b.count = count at ho
  cases ho with
  | @inner done n os h stop tag ns children ho ht hf =>
    have hg : Forms catalog n [.full h stop ns span] [closed ⟨h.name, tag, children⟩ span.stop] :=
      .full ht.extend hf .nil
    have ha := Opened.add (b := { b with opened := os }) ho hr hg
    have hc : n + (closed ⟨h.name, tag, children⟩ span.stop).size =
        n + 1 + Element.sizeAll children.reverse := by
      simp only [closed, Element.size]
      omega
    rw [hc] at ha
    simpa [Item.tokens, hn] using ha

lemma Opened.enter (ho : Opened catalog done n none os) (hd : h.Distinct) (span : Span) :
    Opened catalog (done ++ (h.tokens ++ [⟨.tagEnd, span⟩])) (n + 1) none
      (⟨h.name, Builder.makeTag catalog n (startTag h) span.stop, []⟩ :: os) := by
  have hf : Forms catalog (n + 1) [] ([] : List Element).reverse := .nil
  exact .inner ho (tagFor_makeTag hd n span.stop) hf

/-! ### Moves -/

structure Tracked (catalog : Catalog) (ts : List Token) (b : Builder) : Prop where
  numbered : Numbered b
  supported : ∀ t ∈ ts, t.content ≠ .doctype
  split : ∃ done held, ts = done ++ held ∧ Opened catalog done b.count b.root b.opened ∧
    Held b.place held

lemma exists_aside {c : Content} (hs : Skips b c) (hc : c ≠ .eof) :
    ∃ a : Aside, a.content = c ∧ (b.opened = [] → a.Blank) := by
  cases hs with
  | @text value hb => exact ⟨.text value, rfl, hb⟩
  | @cdata value hb => exact ⟨.cdata value, rfl, hb⟩
  | @comment value => exact ⟨.comment value, rfl, fun _ => trivial⟩
  | @instruction target => exact ⟨.instruction target, rfl, fun _ => trivial⟩
  | eof => exact absurd rfl hc

lemma moves_supported (hm : Moves catalog b t b') : t.content ≠ .doctype := by
  cases hm with
  | skip _ hs =>
    intro hc
    rw [hc] at hs
    cases hs
  | start _ hc _ | close _ _ hc | name _ hc | value _ hc _ | enter _ hc | void _ hc => simp [hc]

lemma Held.content_nil {held : List Token} (hh : Held .content held) : held = [] := by
  cases hh
  rfl

lemma Held.value {start : StartTag} {name value : String} {nameSpan : Span} {held : List Token}
    (hh : Held (.attribute start name nameSpan) held)
    (hn : name ∉ start.attributes.map (·.key)) (span : Span) :
    Held (.tag { start with
        attributes := start.attributes ++ [⟨name, value, ⟨nameSpan.start, span.stop⟩⟩] })
      (held ++ [⟨.attributeValue value, span⟩]) := by
  cases hh with
  | @keyed h _ _ hd =>
    let head : Head := { h with pairs := h.pairs ++ [⟨name, value, nameSpan, span⟩] }
    have hk : head.Distinct := by
      have hn' : name ∉ h.pairs.map (·.key) := by
        simpa [startTag, raw, Function.comp_def] using hn
      rw [Head.Distinct, List.map_append]
      exact List.nodup_append.mpr ⟨hd, List.nodup_singleton _, by simpa using hn'⟩
    have hh : Held (.tag (startTag head)) head.tokens := .tag hk
    simpa [head, startTag, raw, Head.tokens, Pair.tokens] using hh

lemma moves_split (hm : Moves catalog b t b') (ht : t.content ≠ .eof) (hb : Numbered b)
    {held : List Token} (ho : Opened catalog done b.count b.root b.opened)
    (hh : Held b.place held) :
    ∃ done' held', done ++ held ++ [t] = done' ++ held' ∧
      Opened catalog done' b'.count b'.root b'.opened ∧ Held b'.place held' := by
  obtain ⟨c, span⟩ := t
  cases hm with
  | skip hp hs =>
    rw [hp] at hh
    obtain rfl := hh.content_nil
    obtain ⟨a, rfl, ha⟩ := exists_aside hs ht
    exact ⟨_, [], by simp, ho.aside ha span, hp ▸ .content⟩
  | @start name hp hc hr =>
    -- From here to its end the start tag is held; nothing is added to the items yet.
    cases hc
    rw [hp] at hh
    obtain rfl := hh.content_nil
    let head : Head := ⟨name, span, []⟩
    have hd : Held (.tag (startTag head)) head.tokens := .tag List.nodup_nil
    exact ⟨done, head.tokens, by simp [head, Head.tokens], ho, hd⟩
  | @close o os hp hs hc =>
    cases hc
    rw [hp] at hh
    obtain rfl := hh.content_nil
    have hr := hb.root_eq_none (.inr (by simp [hs]))
    rw [hs, hr] at ho
    refine ⟨done ++ [⟨.tagClose o.name, span⟩], [], by simp, ?_, ?_⟩
    · rw [add_count]
      exact ho.close hr span
    · rw [add_place, hp]
      exact .content
  | name hp hc =>
    cases hc
    rw [hp] at hh
    cases hh with
    | tag hd => exact ⟨done, _, List.append_assoc .., ho, .keyed hd⟩
  | value hp hc hn =>
    cases hc
    rw [hp] at hh
    exact ⟨done, _, List.append_assoc .., ho, hh.value hn span⟩
  | enter hp hc =>
    cases hc
    have hr := hb.root_eq_none (.inl (by simp [hp]))
    rw [hp] at hh
    cases hh with
    | tag hd =>
      rw [hr] at ho
      have hi := ho.enter hd span
      rw [← hr] at hi
      exact ⟨_, [], by simp, hi, .content⟩
  | void hp hc =>
    cases hc
    have hr := hb.root_eq_none (.inl (by simp [hp]))
    rw [hp] at hh
    cases hh with
    | @tag h hd =>
      rw [hr] at ho
      have hg : Forms catalog b.count [.void h span] [⟨_, []⟩] :=
        .void (tagFor_makeTag hd _ _) .nil
      have ha := Opened.add (b := { b with place := .content, count := b.count + 1 }) ho hr hg
      refine ⟨_, [], ?_, by rwa [add_count], ?_⟩
      · simp [Item.tokens]
      · rw [add_place]
        exact .content

theorem Tracked.moves (hb : Tracked catalog ts b) (hm : Moves catalog b t b')
    (ht : t.content ≠ .eof) : Tracked catalog (ts ++ [t]) b' := by
  obtain ⟨hn, hs, done, held, rfl, ho, hh⟩ := hb
  refine ⟨hm.numbered hn, ?_, moves_split hm ht hn ho hh⟩
  intro u hu
  rcases List.mem_append.mp hu with hu | hu
  · exact hs u hu
  · cases List.mem_singleton.mp hu
    exact moves_supported hm

theorem tracked_empty (catalog : Catalog) : Tracked catalog [] {} := by
  refine ⟨numbered_empty, by nofun, [], [], rfl, ?_, .content⟩
  have hf : Forms catalog 0 [] (none : Option Element).toList := .nil
  exact .outer hf (by nofun)

theorem build_tracked {eof : Token} (hb : Tracked catalog done b)
    (hn : ∀ t ∈ ts, t.content ≠ .eof) (he : eof.content = .eof) :
    ∃ taken rest b', ts = taken ++ rest ∧ Tracked catalog (done ++ taken) b' ∧
      (Tree.build catalog b (ts ++ [eof])).root = b'.root ∧
      ((Tree.build catalog b (ts ++ [eof])).fault = none → rest = [] ∧ b'.root ≠ none) := by
  induction ts generalizing b done with
  | nil =>
    refine ⟨[], [], b, rfl, by rwa [List.append_nil], ?_⟩
    rw [List.nil_append, Tree.build]
    split
    next b' hb' =>
      obtain ⟨rfl, -, -, hr⟩ := (moves_of_next hb').of_eof he
      exact ⟨rfl, fun _ => ⟨rfl, hr⟩⟩
    · exact ⟨rfl, by rintro ⟨⟩⟩
  | cons t ts ih =>
    rw [List.cons_append, Tree.build]
    split
    next b' hb' =>
      have ht := hb.moves (moves_of_next hb') (hn t List.mem_cons_self)
      obtain ⟨taken, rest, b'', rfl, hb'', hr⟩ := ih ht fun u hu => hn u (List.mem_cons_of_mem _ hu)
      exact ⟨t :: taken, rest, b'', rfl, by simpa using hb'', hr⟩
    · exact ⟨[], t :: ts, b, rfl, by rwa [List.append_nil], rfl, by rintro ⟨⟩⟩

lemma Tracked.nested (hb : Tracked catalog ts b) (hr : b.root = some e) :
    ∃ ns, ts = tokensAll ns ∧ Forms catalog 0 ns [e] ∧ ∀ a span, .aside a span ∈ ns → a.Blank := by
  obtain ⟨hn, -, done, held, rfl, ho, hh⟩ := hb
  obtain ⟨hopen, hp⟩ := hn.single (by simp [hr])
  rw [hp] at hh
  rw [hh.content_nil, List.append_nil]
  rw [hopen, hr] at ho
  generalize b.count = count at ho
  cases ho with
  | @outer ns _ hf hs => exact ⟨ns, rfl, hf, hs⟩

/-- A root stands for the tokens up to the fault, if there is one. -/
theorem nested_of_build {eof : Token} (hn : ∀ t ∈ ts, t.content ≠ .eof) (he : eof.content = .eof)
    (hr : (Tree.build catalog {} (ts ++ [eof])).root = some e) :
    ∃ ns rest, ts = tokensAll ns ++ rest ∧ Forms catalog 0 ns [e] := by
  obtain ⟨taken, rest, b, rfl, hb, hroot, -⟩ := build_tracked (tracked_empty catalog) hn he
  obtain ⟨ns, rfl, hf, -⟩ := hb.nested (hroot ▸ hr)
  exact ⟨ns, rest, rfl, hf⟩

theorem wellFormed_of_build {eof : Token} (hn : ∀ t ∈ ts, t.content ≠ .eof)
    (he : eof.content = .eof) (hf : (Tree.build catalog {} (ts ++ [eof])).fault = none) :
    ∃ ns e, WellFormed (ts ++ [eof]) ns ∧ (Tree.build catalog {} (ts ++ [eof])).root = some e ∧
      Forms catalog 0 ns [e] := by
  obtain ⟨taken, rest, b, rfl, hb, hr, hend⟩ := build_tracked (tracked_empty catalog) hn he
  obtain ⟨rfl, hroot⟩ := hend hf
  obtain ⟨e, hroot⟩ := Option.ne_none_iff_exists'.mp hroot
  obtain ⟨ns, rfl, hforms, hblank⟩ := hb.nested hroot
  obtain ⟨c, span⟩ := eof
  obtain rfl : c = .eof := he
  rw [hr, hroot, List.append_nil]
  refine ⟨ns, e, ⟨⟨span, rfl⟩, ?_, hforms.length, hforms.distinct, hblank⟩, rfl, hforms⟩
  intro t ht
  rcases List.mem_append.mp ht with ht | ht
  · exact hb.supported t ht
  · cases List.mem_singleton.mp ht
    nofun

/-! ### Runs -/

inductive Runs (catalog : Catalog) : Builder → List Token → Builder → Prop
  | nil {b : Builder} : Runs catalog b [] b
  | cons {b b' b'' : Builder} {t : Token} {ts : List Token} : Moves catalog b t b' →
      Runs catalog b' ts b'' → Runs catalog b (t :: ts) b''

lemma Runs.append {us : List Token} {b'' : Builder} (h : Runs catalog b ts b')
    (h' : Runs catalog b' us b'') : Runs catalog b (ts ++ us) b'' := by
  induction h with
  | nil => exact h'
  | cons hm _ ih => exact .cons hm (ih h')

lemma Runs.single (h : Moves catalog b t b') : Runs catalog b [t] b' :=
  .cons h .nil

lemma next_of_moves (hm : Moves catalog b t b') : b.next catalog t = .ok b' := by
  cases hm with
  | skip hp hs =>
    rw [Builder.next, hp]
    dsimp only
    rw [Builder.contentToken]
    generalize t.content = c at hs
    cases hs with
    | text hb | cdata hb =>
      dsimp only
      rw [if_neg]
      simpa using hb
    | comment | instruction => rfl
    | eof ho hr => simp [ho, hr]
  | start hp hc hr =>
    rw [Builder.next, hp]
    dsimp only
    rw [Builder.contentToken, hc]
    dsimp only
    rw [if_neg]
    simpa using hr
  | close hp ho hc => simp [Builder.next, hp, Builder.contentToken, hc, ho, closed]
  | name hp hc | enter hp hc | void hp hc => simp [Builder.next, hp, Builder.tagToken, hc]
  | value hp hc hn =>
    rw [Builder.next, hp]
    dsimp only
    rw [Builder.attributeToken, hc]
    dsimp only
    rw [if_neg]
    simpa using hn

lemma Runs.build (h : Runs catalog b ts b') (us : List Token) :
    Tree.build catalog b (ts ++ us) = Tree.build catalog b' us := by
  induction h with
  | nil => rfl
  | cons hm _ ih =>
    rw [List.cons_append, Tree.build, next_of_moves hm]
    exact ih

variable {opened : List OpenElement} {root : Option Element} {count : ℕ} {stop close : Span}

lemma runs_pairs {ps : List Pair} {s : StartTag}
    (hd : (s.attributes.map (·.key) ++ ps.map (·.key)).Nodup) :
    Runs catalog ⟨.tag s, opened, root, count⟩ (ps.flatMap Pair.tokens)
      ⟨.tag { s with attributes := s.attributes ++ ps.map raw }, opened, root, count⟩ := by
  induction ps generalizing s with
  | nil =>
    rw [List.map_nil, List.append_nil]
    exact .nil
  | cons p ps ih =>
    have hk : p.key ∉ s.attributes.map (·.key) := by
      have hd' := List.disjoint_of_nodup_append hd
      exact fun hm => hd' hm (by simp)
    have hr := ih (s := { s with attributes := s.attributes ++ [raw p] }) (by simpa [raw] using hd)
    rw [List.append_assoc] at hr
    exact .cons (.name rfl rfl) (.cons (.value rfl rfl hk) hr)

lemma runs_head (hd : h.Distinct) (ho : opened = [] → root = none) :
    Runs catalog ⟨.content, opened, root, count⟩ h.tokens
      ⟨.tag (startTag h), opened, root, count⟩ :=
  .cons (.start rfl rfl ho) (runs_pairs (by simpa [Head.Distinct] using hd))

structure Regular (ns : List Item) : Prop where
  supported : ∀ t ∈ tokensAll ns, t.content ≠ .doctype
  distinct : ∀ h ∈ headsAll ns, h.Distinct

lemma Regular.of_cons (hr : Regular (item :: ns)) : Regular [item] ∧ Regular ns := by
  have hd := hr.distinct
  have hs := hr.supported
  simp only [headsAll, tokensAll, List.forall_mem_append] at hd hs
  refine ⟨⟨?_, ?_⟩, hs.2, hd.2⟩
  · simpa [tokensAll] using hs.1
  · simpa [headsAll] using hd.1

lemma Regular.of_aside {a : Aside} {span : Span} (hr : Regular [.aside a span]) :
    a.content ≠ .doctype :=
  hr.supported ⟨a.content, span⟩ List.mem_cons_self

lemma Regular.of_void {stop : Span} (hr : Regular [.void h stop]) : h.Distinct :=
  hr.distinct h List.mem_cons_self

lemma Regular.of_full {stop close : Span} (hr : Regular [.full h stop ns close]) :
    h.Distinct ∧ Regular ns := by
  have hd := hr.distinct
  have hs := hr.supported
  simp only [headsAll, tokensAll, Item.heads, Item.tokens, List.forall_mem_append,
    List.forall_mem_cons] at hd hs
  exact ⟨hd.1.1, hs.1.2.2.1, hd.1.2⟩

def Adds (catalog : Catalog) (item : Item) : Prop :=
  ∀ opened root count, (opened = [] → root = none) →
    ∃ e count', Runs catalog ⟨.content, opened, root, count⟩ item.tokens
      (Builder.add ⟨.content, opened, root, count'⟩ e)

def Fills (catalog : Catalog) (ns : List Item) : Prop :=
  ∀ o os root count, ∃ es count', Runs catalog ⟨.content, o :: os, root, count⟩ (tokensAll ns)
    ⟨.content, { o with children := es ++ o.children } :: os, root, count'⟩

lemma adds_void {stop : Span} (hr : Regular [.void h stop]) : Adds catalog (.void h stop) := by
  intro opened root count ho
  rw [Item.tokens]
  exact ⟨_, count + 1, (runs_head hr.of_void ho).append (.single (.void rfl rfl))⟩

lemma adds_full {stop close : Span} (hr : Regular [.full h stop ns close])
    (hf : Regular ns → Fills catalog ns) : Adds catalog (.full h stop ns close) := by
  obtain ⟨hd, hns⟩ := hr.of_full
  intro opened root count ho
  let o : OpenElement := ⟨h.name, Builder.makeTag catalog count (startTag h) stop.stop, []⟩
  obtain ⟨es, count', hc⟩ := hf hns o opened root (count + 1)
  have he : Runs catalog ⟨.tag (startTag h), opened, root, count⟩ (⟨.tagEnd, stop⟩ :: tokensAll ns)
      _ := .cons (.enter rfl rfl) hc
  rw [Item.tokens, ← List.cons_append]
  exact ⟨_, count', (runs_head hd ho).append (he.append (.single (.close rfl rfl rfl)))⟩

lemma fills_cons (hn : Adds catalog item) (hf : Fills catalog ns) : Fills catalog (item :: ns) := by
  intro o os root count
  obtain ⟨e, n, hr⟩ := hn (o :: os) root count (by nofun)
  obtain ⟨es, n', hr'⟩ := hf { o with children := e :: o.children } os root n
  refine ⟨es ++ [e], n', ?_⟩
  rw [tokensAll, List.append_assoc]
  exact hr.append hr'

lemma skips_aside {a : Aside} (ha : a.content ≠ .doctype) (hb : b.opened = [] → a.Blank) :
    Skips b a.content := by
  cases a with
  | text value => exact .text hb
  | cdata value => exact .cdata hb
  | comment value => exact .comment
  | instruction target => exact .instruction
  | doctype => exact absurd rfl ha

theorem fills_of_regular (hr : Regular ns) : Fills catalog ns := by
  induction ns using forest_induction with
  | nil => exact fun o os root count => ⟨[], count, .nil⟩
  | aside a span ns ih =>
    obtain ⟨ha, hns⟩ := hr.of_cons
    intro o os root count
    obtain ⟨es, n, hf⟩ := ih hns o os root count
    exact ⟨es, n, .cons (.skip rfl (skips_aside ha.of_aside (by nofun))) hf⟩
  | void head stop ns ih =>
    obtain ⟨hv, hns⟩ := hr.of_cons
    exact fills_cons (adds_void hv) (ih hns)
  | full head stop content close ns ihc ih =>
    obtain ⟨hf, hns⟩ := hr.of_cons
    exact fills_cons (adds_full hf ihc) (ih hns)

lemma adds_of_isElement (catalog : Catalog) (hr : Regular [item]) (hn : item.isElement = true) :
    Adds catalog item := by
  cases item with
  | aside => cases hn
  | void head stop => exact adds_void hr
  | full head stop content close => exact adds_full hr fills_of_regular

theorem runs_outside (catalog : Catalog) (root : Option Element) (count : ℕ) (hr : Regular ns)
    (hb : ∀ a span, .aside a span ∈ ns → a.Blank)
    (hn : root.toList.length + (ns.filter Item.isElement).length = 1) :
    ∃ e count', Runs catalog ⟨.content, [], root, count⟩ (tokensAll ns)
      ⟨.content, [], some e, count'⟩ := by
  induction ns generalizing root count with
  | nil =>
    cases root with
    | none => cases hn
    | some e => exact ⟨e, count, .nil⟩
  | cons item ns ih =>
    obtain ⟨hitem, hns⟩ := hr.of_cons
    have hb' := fun a span hm => hb a span (List.mem_cons_of_mem _ hm)
    cases he : item.isElement with
    | true =>
      rw [List.filter_cons_of_pos he, List.length_cons] at hn
      -- With a root already there, the element would be the second.
      obtain rfl : root = none := by
        cases root with
        | none => rfl
        | some e => simp at hn
      obtain ⟨e, n, hadd⟩ := adds_of_isElement catalog hitem he [] none count fun _ => rfl
      obtain ⟨e', n', hrest⟩ := ih (some e) n hns hb' (by simpa using hn)
      rw [tokensAll]
      exact ⟨e', n', hadd.append hrest⟩
    | false =>
      rw [List.filter_cons_of_neg (by simp [he])] at hn
      obtain ⟨e', n', hrest⟩ := ih root count hns hb' hn
      cases item with
      | aside a span =>
        have ha : a.Blank := hb a span List.mem_cons_self
        exact ⟨e', n', .cons (.skip rfl (skips_aside hitem.of_aside fun _ => ha)) hrest⟩
      | void | full => cases he

theorem build_of_wellFormed (hw : WellFormed ts ns) : (Tree.build catalog {} ts).fault = none := by
  obtain ⟨⟨span, rfl⟩, hs, hn, hd, hb⟩ := hw
  have hr : Regular ns := ⟨fun t ht => hs t (List.mem_append_left _ ht), hd⟩
  obtain ⟨e, n, hrun⟩ := runs_outside catalog none 0 hr hb (by simpa using hn)
  have he : Moves catalog ⟨.content, [], some e, n⟩ ⟨.eof, span⟩ ⟨.content, [], some e, n⟩ :=
    .skip rfl (.eof rfl (by nofun))
  rw [hrun.build, Tree.build, next_of_moves he]
  rfl

/-! ### Texts -/

/-- A text that falls into tokens is accepted if the tokens are well-formed, and only then. The tree
is that of their nesting, which is the only one they have. -/
theorem read_accepts_iff (catalog : Catalog) {source : String}
    (ht : (tokenize source).fault = none) :
    ((Tree.read catalog source).fault = none ↔ ∃ ns, WellFormed (tokenize source).tokens ns) ∧
    (∀ ns, WellFormed (tokenize source).tokens ns →
      ∃ e, (Tree.read catalog source).root = some e ∧ Forms catalog 0 ns [e] ∧
        ∀ e', Forms catalog 0 ns [e'] → e' = e) ∧
    (∀ ns ms, Nests (tokenize source).tokens ns → Nests (tokenize source).tokens ms → ns = ms) ∧
    ((¬ ∃ ns, WellFormed (tokenize source).tokens ns) →
      ∃ f, (Tree.read catalog source).fault = some f) := by
  obtain ⟨ts, a, stop, hts, hl, -, -⟩ := TokenPlaces.laid_of_no_fault ht
  have hn : ∀ t ∈ ts, t.content ≠ .eof := fun t hm => (hl.mem hm).1
  have hread : Tree.read catalog source = Tree.build catalog {} (ts ++ [⟨.eof, stop, stop⟩]) := by
    simp only [Tree.read, ht, hts]
  have hiff : (Tree.read catalog source).fault = none ↔
      ∃ ns, WellFormed (tokenize source).tokens ns := by
    rw [hread, hts]
    constructor
    · intro hf
      obtain ⟨ns, e, hw, -, -⟩ := wellFormed_of_build hn rfl hf
      exact ⟨ns, hw⟩
    · rintro ⟨ns, hw⟩
      exact build_of_wellFormed hw
  refine ⟨hiff, ?_, fun ns ms => nests_unique, ?_⟩
  · intro ns hw
    have hf := hiff.mpr ⟨ns, hw⟩
    rw [hts] at hw
    rw [hread] at hf ⊢
    obtain ⟨ms, e, hw', hr, hforms⟩ := wellFormed_of_build hn rfl hf
    obtain rfl := nests_unique hw'.nested hw.nested
    refine ⟨e, hr, hforms, ?_⟩
    intro e' hforms'
    exact (List.singleton_inj.mp (hforms.unique hforms')).symm
  · intro hw
    exact Option.ne_none_iff_exists'.mp (mt hiff.mp hw)

theorem read_accepts_iff_crossed :
    let nested := "<!-- -->\n<p:A k='1'><B/>t<B></B></p:A>"
    let crossed := "<A><B></A></B>"
    (tokenize nested).fault = none ∧ (tokenize crossed).fault = none ∧
      (∃ ns e, WellFormed (tokenize nested).tokens ns ∧ (Tree.read {} nested).root = some e ∧
        Forms {} 0 ns [e]) ∧
      ¬ ∃ ns, WellFormed (tokenize crossed).tokens ns := by
  intro nested crossed
  have hn : (tokenize nested).fault = none := by decide +kernel
  have hc : (tokenize crossed).fault = none := by decide +kernel
  have hr : (Tree.read {} nested).fault = none := by decide +kernel
  have hf : (Tree.read {} crossed).fault ≠ none := by decide +kernel
  obtain ⟨hi, ht, -, -⟩ := read_accepts_iff {} hn
  obtain ⟨ns, hw⟩ := hi.mp hr
  obtain ⟨e, he, hforms, -⟩ := ht ns hw
  exact ⟨hn, hc, ⟨ns, e, hw, he, hforms⟩, mt (read_accepts_iff {} hc).1.mpr hf⟩

end TuiMarkup.Proofs.Acceptance
