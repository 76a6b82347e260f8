import Mathlib.Tactic.Lemma
import TuiMarkup.Proofs.Acceptance
import TuiMarkup.Proofs.Building
import TuiMarkup.Proofs.TokenPlaces

/-! Where the elements of a tree stand. The tokens of an element lie between those of its parent,
and behind those of the elements before it; its place follows from theirs. -/

namespace TuiMarkup.Proofs.TreePlaces

open Markup DocumentOrder Nesting TokenPlaces

variable {catalog : Catalog} {t u : Token} {ts us : List Token} {s s' : Span} {h : Head}
  {ns : List Item} {es : List Element} {i : ℕ} {tag : Tag}

/-! ### Spans made of tokens -/

/-- The span starts with one of the tokens and stops with one. -/
structure Covered (ts : List Token) (s : Span) : Prop where
  start : ∃ t ∈ ts, s.start = t.span.start
  stop : ∃ t ∈ ts, s.stop = t.span.stop

lemma Covered.of_mem (ht : t ∈ ts) : Covered ts t.span :=
  ⟨⟨t, ht, rfl⟩, ⟨t, ht, rfl⟩⟩

lemma Covered.mono (hs : Covered ts s) (hsub : ts ⊆ us) : Covered us s := by
  obtain ⟨⟨t, ht, hstart⟩, ⟨u, hu, hstop⟩⟩ := hs
  exact ⟨⟨t, hsub ht, hstart⟩, ⟨u, hsub hu, hstop⟩⟩

lemma Covered.apart (hs : Covered ts s) (hs' : Covered us s') (ho : InOrder (ts ++ us)) :
    NotAfter s.stop s'.start := by
  obtain ⟨t, ht, hstop⟩ := hs.stop
  obtain ⟨u, hu, hstart⟩ := hs'.start
  rw [hstop, hstart]
  exact ho.notAfter ht hu

lemma Covered.starts (hs : Covered ts s) (hs' : Covered us s') (ho : InOrder (ts ++ us)) :
    Before s.start s'.start := by
  obtain ⟨t, ht, hstart⟩ := hs.start
  obtain ⟨u, hu, hstart'⟩ := hs'.start
  rw [hstart, hstart']
  exact (ho.solid t (List.mem_append_left us ht)).trans_notAfter (ho.notAfter ht hu)

lemma Covered.stops (hs : Covered ts s) (hs' : Covered us s') (ho : InOrder (ts ++ us)) :
    Before s.stop s'.stop := by
  obtain ⟨t, ht, hstop⟩ := hs.stop
  obtain ⟨u, hu, hstop'⟩ := hs'.stop
  rw [hstop, hstop']
  exact (ho.notAfter ht hu).trans_before (ho.solid u (List.mem_append_right ts hu))

/-! ### Tags -/

structure TagPlaced (catalog : Catalog) (ts : List Token) (t : Tag) : Prop where
  line : t.line = t.span.start.line + 1
  column : t.column = t.span.start.column + 2
  head : ∃ h stop c, (c = .tagEnd ∨ c = .tagEndVoid) ∧ Head.tokens h ++ [⟨c, stop⟩] <:+: ts ∧
    t.span.start = h.span.start ∧
    ∀ a ∈ t.attributes, NotAfter h.span.stop a.span.start ∧ Before a.span.start a.span.stop ∧
      NotAfter a.span.stop stop.start
  apart : t.attributes.Pairwise fun a b =>
    NotAfter a.span.stop b.span.start ∨ NotAfter b.span.stop a.span.start
  keys : (t.attributes.map (·.key)).Pairwise (· < ·)
  kinds : ∀ a ∈ t.attributes, a.kind = .of catalog a.key a.value

lemma covered_pair {p : Pair} {ps : List Pair} (hp : p ∈ ps) :
    Covered (ps.flatMap Pair.tokens) (p.attribute catalog).span := by
  have hs : Covered p.tokens (p.attribute catalog).span :=
    ⟨⟨_, List.mem_cons_self, rfl⟩, ⟨_, List.mem_cons_of_mem _ List.mem_cons_self, rfl⟩⟩
  exact hs.mono fun t ht => List.mem_flatMap.mpr ⟨p, hp, ht⟩

lemma pair_solid {p : Pair} {ps : List Pair} (ho : InOrder (ps.flatMap Pair.tokens)) (hp : p ∈ ps) :
    Before (p.attribute catalog).span.start (p.attribute catalog).span.stop := by
  obtain ⟨xs, ys, rfl⟩ := List.append_of_mem hp
  rw [List.flatMap_append, List.flatMap_cons] at ho
  have hi : InOrder ([⟨.attributeName p.key, p.keySpan⟩] ++
      [⟨.attributeValue p.value, p.valueSpan⟩]) := ho.of_append.2.of_append.1
  exact hi.start_before List.mem_cons_self List.mem_cons_self

lemma pairs_apart {ps : List Pair} (ho : InOrder (ps.flatMap Pair.tokens)) :
    (ps.map (Pair.attribute catalog)).Pairwise fun a b => NotAfter a.span.stop b.span.start := by
  induction ps with
  | nil => exact .nil
  | cons p ps ih =>
    rw [List.flatMap_cons] at ho
    refine .cons ?_ (ih ho.of_append.2)
    intro a ha
    obtain ⟨q, hq, rfl⟩ := List.mem_map.mp ha
    have hp : Covered ([p].flatMap Pair.tokens) (p.attribute catalog).span :=
      covered_pair List.mem_cons_self
    rw [List.flatMap_singleton] at hp
    exact hp.apart (covered_pair hq) ho

lemma head_places {stop : Span} {c : Content} (ho : InOrder (h.tokens ++ [⟨c, stop⟩]))
    (hs : Covered (h.pairs.flatMap Pair.tokens) s) :
    NotAfter h.span.stop s.start ∧ NotAfter s.stop stop.start := by
  have hn : Covered [⟨.tagStart h.name, h.span⟩] h.span := .of_mem List.mem_cons_self
  have he : Covered [⟨c, stop⟩] stop := .of_mem List.mem_cons_self
  exact ⟨hn.apart hs ho.of_append.1, (hs.mono (List.subset_cons_self ..)).apart he ho⟩

lemma tagPlaced {stop : Location} {last : Span} {c : Content} (ht : TagFor catalog i h stop tag)
    (hc : c = .tagEnd ∨ c = .tagEndVoid) (ho : InOrder (h.tokens ++ [⟨c, last⟩]))
    (hi : h.tokens ++ [⟨c, last⟩] <:+: ts) : TagPlaced catalog ts tag := by
  have hm : ∀ a ∈ tag.attributes, ∃ p ∈ h.pairs, Pair.attribute catalog p = a :=
    fun a ha => List.mem_map.mp (ht.attributes.mem_iff.mp ha)
  have hp : InOrder (h.pairs.flatMap Pair.tokens) := by
    have ht' : InOrder ([⟨.tagStart h.name, h.span⟩] ++ h.pairs.flatMap Pair.tokens) :=
      ho.of_append.1
    exact ht'.of_append.2
  have hstart : tag.span.start = h.span.start := by rw [ht.span]
  refine ⟨by rw [ht.line, hstart], by rw [ht.column, hstart], ?_, ?_, ht.sorted, ?_⟩
  · refine ⟨h, last, c, hc, hi, hstart, ?_⟩
    intro a ha
    obtain ⟨p, hmem, rfl⟩ := hm a ha
    obtain ⟨hstart, hstop⟩ := head_places ho (covered_pair hmem)
    exact ⟨hstart, pair_solid hp hmem, hstop⟩
  · -- Sorting by key loses the order of the text, and keeps what is symmetric.
    apply (ht.attributes.pairwise_iff Or.symm).mpr
    exact (pairs_apart hp).imp Or.inl
  · intro a ha
    obtain ⟨p, -, rfl⟩ := hm a ha
    rfl

/-! ### Elements -/

structure Placed (catalog : Catalog) (ts : List Token) (e : Element) : Prop extends
    TagPlaced catalog ts e.tag where
  solid : Before e.tag.span.start e.tag.span.stop
  inside : ∀ c ∈ e.children, Before e.tag.span.start c.tag.span.start ∧
    Before c.tag.span.stop e.tag.span.stop
  siblings : e.children.Pairwise fun c d => NotAfter c.tag.span.stop d.tag.span.start

lemma TagPlaced.mono (h : TagPlaced catalog ts tag) (hi : ts <:+: us) :
    TagPlaced catalog us tag := by
  obtain ⟨head, stop, c, hc, hh, hs⟩ := h.head
  exact { h with head := ⟨head, stop, c, hc, hh.trans hi, hs⟩ }

lemma Placed.mono {e : Element} (h : Placed catalog ts e) (hi : ts <:+: us) : Placed catalog us e :=
  { h with toTagPlaced := h.toTagPlaced.mono hi }

lemma covered_void {stop : Span} (ht : TagFor catalog i h stop.stop tag) :
    Covered (Item.void h stop).tokens tag.span := by
  rw [ht.span, Item.tokens]
  exact ⟨⟨_, List.mem_cons_self, rfl⟩, ⟨⟨.tagEndVoid, stop⟩, by simp, rfl⟩⟩

section Full

variable {children : List Element} {stop close : Span}

lemma covered_full (stop : Span) (ht : TagFor catalog i h close.stop tag)
    (hc : ∀ e ∈ preorderAll children, Covered (tokensAll ns) e.tag.span) :
    ∀ e ∈ preorder ⟨tag, children⟩, Covered (Item.full h stop ns close).tokens e.tag.span := by
  intro e he
  rcases List.mem_cons.mp he with rfl | he
  · rw [ht.span, Item.tokens]
    exact ⟨⟨_, List.mem_cons_self, rfl⟩, ⟨⟨.tagClose h.name, close⟩, by simp, rfl⟩⟩
  · apply (hc e he).mono
    intro t hmem
    simp [Item.tokens, hmem]

lemma full_starts (ht : TagFor catalog i h close.stop tag)
    (ho : InOrder (Item.full h stop ns close).tokens) (hs : Covered (tokensAll ns) s) :
    Before tag.span.start s.start := by
  have hh : Covered h.tokens h.span := .of_mem List.mem_cons_self
  have hsub : (h.tokens ++ tokensAll ns).Sublist (Item.full h stop ns close).tokens := by
    simp [Item.tokens]
  have hb : Before h.span.start s.start := hh.starts hs (ho.sublist hsub)
  rwa [ht.span]

lemma full_stops (ht : TagFor catalog i h close.stop tag)
    (ho : InOrder (Item.full h stop ns close).tokens) (hs : Covered (tokensAll ns) s) :
    Before s.stop tag.span.stop := by
  have hc : Covered [⟨.tagClose h.name, close⟩] close := .of_mem List.mem_cons_self
  have hsub : (tokensAll ns ++ [(⟨.tagClose h.name, close⟩ : Token)]).Sublist
      (Item.full h stop ns close).tokens := by
    simp [Item.tokens]
  have hb : Before s.stop close.stop := hs.stops hc (ho.sublist hsub)
  rwa [ht.span]

lemma full_solid (ht : TagFor catalog i h close.stop tag)
    (ho : InOrder (Item.full h stop ns close).tokens) : Before tag.span.start tag.span.stop := by
  have hb : Before h.span.start close.stop := by
    rw [Item.tokens] at ho
    exact ho.start_before (u := ⟨.tagClose h.name, close⟩) List.mem_cons_self (by simp)
  rwa [ht.span]

lemma content_within (h : Head) (stop close : Span) (ns : List Item) :
    tokensAll ns <:+: (Item.full h stop ns close).tokens := by
  rw [Item.tokens]
  exact ⟨h.tokens ++ [⟨.tagEnd, stop⟩], [⟨.tagClose h.name, close⟩], by simp⟩

end Full

theorem covered_of_forms (hf : Forms catalog i ns es) :
    ∀ e ∈ preorderAll es, Covered (tokensAll ns) e.tag.span := by
  induction hf with
  | nil => nofun
  | aside _ ih =>
    intro e he
    rw [tokensAll]
    exact (ih e he).mono (List.subset_append_right ..)
  | void ht _ ih =>
    intro e he
    rw [tokensAll]
    rcases List.mem_cons.mp he with rfl | he
    · exact (covered_void ht).mono (List.subset_append_left ..)
    · exact (ih e he).mono (List.subset_append_right ..)
  | full ht _ _ ihc ih =>
    intro e he
    rw [tokensAll]
    rcases List.mem_append.mp he with he | he
    · exact (covered_full _ ht ihc e he).mono (List.subset_append_left ..)
    · exact (ih e he).mono (List.subset_append_right ..)

lemma covered_of_mem {e : Element} (hf : Forms catalog i ns es) (he : e ∈ es) :
    Covered (tokensAll ns) e.tag.span :=
  covered_of_forms hf e (mem_preorderAll.mpr ⟨e, he, mem_preorder_self e⟩)

theorem starts_of_forms (hf : Forms catalog i ns es) (ho : InOrder (tokensAll ns)) :
    (preorderAll es).Pairwise fun x y => Before x.tag.span.start y.tag.span.start := by
  induction hf with
  | nil => exact .nil
  | aside _ ih => exact ih ho.of_append.2
  | void ht hf ih =>
    refine .cons ?_ (ih ho.of_append.2)
    intro y hy
    exact (covered_void ht).starts (covered_of_forms hf y hy) ho
  | @full i head stop close tag content ns children es ht hc hf ihc ih =>
    have hn : InOrder (Item.full head stop content close).tokens := ho.of_append.1
    have hcont := hn.sublist (content_within head stop close content).sublist
    refine List.pairwise_append.mpr ⟨.cons ?_ (ihc hcont), ih ho.of_append.2, ?_⟩
    · intro y hy
      exact full_starts ht hn (covered_of_forms hc y hy)
    · intro x hx y hy
      have hx' := covered_full stop ht (covered_of_forms hc) x hx
      exact hx'.starts (covered_of_forms hf y hy) ho

theorem siblings_of_forms (hf : Forms catalog i ns es) (ho : InOrder (tokensAll ns)) :
    es.Pairwise fun x y => NotAfter x.tag.span.stop y.tag.span.start := by
  induction hf with
  | nil => exact .nil
  | aside _ ih => exact ih ho.of_append.2
  | void ht hf ih =>
    refine .cons ?_ (ih ho.of_append.2)
    intro y hy
    exact (covered_void ht).apart (covered_of_mem hf hy) ho
  | @full i head stop close tag content ns children es ht hc hf _ ih =>
    refine .cons ?_ (ih ho.of_append.2)
    intro y hy
    have hx := covered_full stop ht (covered_of_forms hc) _ (mem_preorder_self _)
    exact hx.apart (covered_of_mem hf hy) ho

lemma placed_void {stop : Span} (ht : TagFor catalog i h stop.stop tag)
    (ho : InOrder (Item.void h stop).tokens) :
    Placed catalog (Item.void h stop).tokens ⟨tag, []⟩ := by
  rw [Item.tokens] at ho ⊢
  have hb : Before h.span.start stop.stop := ho.start_before List.mem_cons_self List.mem_cons_self
  have hs : Before tag.span.start tag.span.stop := by rwa [ht.span]
  exact ⟨tagPlaced ht (.inr rfl) ho List.infix_rfl, hs, by simp, .nil⟩

lemma placed_full {children : List Element} {stop close : Span}
    (ht : TagFor catalog i h close.stop tag) (hf : Forms catalog (i + 1) ns children)
    (ho : InOrder (Item.full h stop ns close).tokens) :
    Placed catalog (Item.full h stop ns close).tokens ⟨tag, children⟩ := by
  have hp : h.tokens ++ [⟨.tagEnd, stop⟩] <+: (Item.full h stop ns close).tokens :=
    ⟨tokensAll ns ++ [⟨.tagClose h.name, close⟩], by simp [Item.tokens]⟩
  have hc := ho.sublist (content_within h stop close ns).sublist
  refine ⟨tagPlaced ht (.inl rfl) (ho.sublist hp.sublist) hp.isInfix, full_solid ht ho, ?_,
    siblings_of_forms hf hc⟩
  intro c hmem
  have hcov := covered_of_mem hf hmem
  exact ⟨full_starts ht ho hcov, full_stops ht ho hcov⟩

theorem placed_of_forms (hf : Forms catalog i ns es) (ho : InOrder (tokensAll ns)) :
    ∀ e ∈ preorderAll es, Placed catalog (tokensAll ns) e := by
  induction hf with
  | nil => rintro e ⟨⟩
  | aside _ ih =>
    intro e he
    rw [tokensAll]
    exact (ih ho.of_append.2 e he).mono (List.suffix_append ..).isInfix
  | void ht _ ih =>
    intro e he
    rw [tokensAll] at ho ⊢
    rcases List.mem_cons.mp he with rfl | he
    · exact (placed_void ht ho.of_append.1).mono (List.prefix_append ..).isInfix
    · exact (ih ho.of_append.2 e he).mono (List.suffix_append ..).isInfix
  | @full i head stop close tag content ns children es ht hc _ ihc ih =>
    intro e he
    rw [tokensAll] at ho ⊢
    have hn : InOrder (Item.full head stop content close).tokens := ho.of_append.1
    have hcont := hn.sublist (content_within head stop close content).sublist
    rcases List.mem_append.mp he with he | he
    · apply Placed.mono ?_ (List.prefix_append ..).isInfix
      rcases List.mem_cons.mp he with rfl | he
      · exact placed_full ht hc hn
      · exact (ihc hcont e he).mono (content_within head stop close content)
    · exact (ih ho.of_append.2 e he).mono (List.suffix_append ..).isInfix

/-! ### Texts -/

lemma forms_of_root {source : String} {e : Element}
    (hr : (Tree.read catalog source).root = some e) :
    ∃ ns rest, (tokenize source).tokens = tokensAll ns ++ rest ∧ InOrder (tokensAll ns) ∧
      Forms catalog 0 ns [e] := by
  cases hf : (tokenize source).fault with
  | some f => simp [Tree.read, hf] at hr
  | none =>
    obtain ⟨ts, a, stop, hts, hl, -, -⟩ := laid_of_no_fault hf
    simp only [Tree.read, hf, hts] at hr
    obtain ⟨ns, rest, rfl, hforms⟩ :=
      Acceptance.nested_of_build (fun t ht => (hl.mem ht).1) rfl hr
    exact ⟨ns, rest ++ [⟨.eof, stop, stop⟩], by simp [hts], hl.inOrder.of_append.1, hforms⟩

/-- The elements of a tree are listed in the order in which they are numbered and in which they
start, by offset as by line and column. Each encloses its children, which follow one another, and
its start tag encloses its attributes, which are sorted by their keys. -/
theorem descendants_placed (catalog : Catalog) {source : String} {e : Element}
    (hr : (Tree.read catalog source).root = some e) :
    e.descendants = preorder e ∧
    e.descendants.map (·.tag.index) = List.range e.descendants.length ∧
    (e.descendants.Pairwise fun x y => x.tag.span.start.offset < y.tag.span.start.offset) ∧
    (e.descendants.Pairwise fun x y =>
      x.tag.line < y.tag.line ∨ x.tag.line = y.tag.line ∧ x.tag.column < y.tag.column) ∧
    ∀ x ∈ e.descendants, Placed catalog (tokenize source).tokens x := by
  have hd : e.descendants = preorder e := by
    rw [Element.descendants, walk_eq_preorderAll, preorderAll, preorderAll, List.append_nil]
  obtain ⟨ns, rest, htokens, ho, hf⟩ := forms_of_root hr
  have hs := starts_of_forms hf ho
  have hp := placed_of_forms hf ho
  rw [preorderAll, preorderAll, List.append_nil] at hs hp
  rw [hd]
  refine ⟨rfl, Building.read_indices hr, hs.imp And.left, ?_, ?_⟩
  · refine hs.imp_of_mem ?_
    intro x y hx hy hxy
    have hb := hxy.2
    rw [(hp x hx).line, (hp x hx).column, (hp y hy).line, (hp y hy).column]
    omega
  · intro x hx
    rw [htokens]
    exact (hp x hx).mono (List.prefix_append ..).isInfix

theorem descendants_placed_second_root :
    let source := "<A>\n<B z='1' k='2'/><C></C></A><D/>"
    (Tree.read {} source).fault.map (·.cause) = some (.secondRoot "D") ∧
      ∃ e, (Tree.read {} source).root = some e ∧
        e.descendants.map (·.tag.index) = List.range e.descendants.length ∧
        ∀ x ∈ e.descendants, Placed {} (tokenize source).tokens x := by
  intro source
  have hf : (Tree.read {} source).fault.map (·.cause) = some (.secondRoot "D") := by decide +kernel
  have hr : (Tree.read {} source).root.isSome = true := by decide +kernel
  obtain ⟨e, he⟩ := Option.isSome_iff_exists.mp hr
  obtain ⟨-, hi, -, -, hp⟩ := descendants_placed {} he
  exact ⟨hf, e, he, hi, hp⟩

end TuiMarkup.Proofs.TreePlaces
