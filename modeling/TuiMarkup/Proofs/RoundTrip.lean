import TuiMarkup.Catalog.TerminalGui
import TuiMarkup.Proofs.Reading
import TuiMarkup.Proofs.Spelling

/-! Every rendering of an element tree is read back as that tree. -/

namespace TuiMarkup.Proofs.RoundTrip

open Markup Reading Rendering Spelling

structure TagOf (catalog : Catalog) (name : String) (attributes : List (String × String))
    (t : Tag) : Prop where
  type : t.type = localName name
  attributes : (t.attributes.map fun a => (a.key, a.value)).Perm attributes
  sorted : (t.attributes.map (·.key)).Pairwise (· < ·)
  kinds : ∀ a ∈ t.attributes, a.kind = .of catalog a.key a.value

/-- The element has the shape of the outline, with its attributes in the order of their keys. -/
inductive Depicts (catalog : Catalog) : Outline → Element → Prop
  | intro {n : Outline} {e : Element} : TagOf catalog n.name n.attributes e.tag →
      List.Forall₂ (Depicts catalog) n.children e.children → Depicts catalog n e

variable {catalog : Catalog} {b : Builder} {l : Location} {rest : List Char}

/-! ### Comments, instructions and text -/

lemma not_prefix_append {mark m cs rest : List Char} {e : Char} (hm : mark = m ++ [e]) (he : e ∉ m)
    (hn : cs ≠ []) (h : ¬ mark <:+: cs) : ¬ mark <+: cs ++ (mark ++ rest) := by
  intro hp
  by_cases hl : mark.length ≤ cs.length
  · exact h (List.prefix_of_prefix_length_le hp (List.prefix_append _ _) hl).isInfix
  · obtain ⟨t, ht⟩ := List.prefix_of_prefix_length_le (List.prefix_append cs _) hp (by omega)
    have hlen := congrArg List.length ht
    have hcs := List.length_pos_iff.mpr hn
    have hmark := congrArg List.length hm
    simp only [List.length_append, List.length_singleton] at hlen hmark
    -- The rest of the mark would lie at the front of the mark that follows, before its last
    -- character.
    have htm : t <+: m := by
      rw [← ht, List.prefix_append_right_inj] at hp
      have h₁ : t <+: m ++ ([e] ++ rest) := by simpa [hm, ht] using hp
      exact List.prefix_of_prefix_length_le h₁ (List.prefix_append _ _) (by omega)
    have het : e ∈ t := by
      have hlast := congrArg List.getLast? (ht.trans hm)
      cases t with
      | nil => simp at hlen; omega
      | cons d t =>
        have hd : (d :: t).getLast? = some e := by simpa using hlast
        exact List.mem_of_getLast? hd
    exact he (htm.subset het)

lemma upTo_append {mark m body : List Char} {e : Char} (hm : mark = m ++ [e]) (he : e ∉ m)
    (h : ¬ mark <:+: body) (rest : List Char) :
    upTo mark (body ++ (mark ++ rest)) = some (body, rest) := by
  induction body with
  | nil =>
    have hs : Text.afterStartChars? mark (mark ++ rest) = some rest :=
      Text.afterStartChars?_eq_some.mpr rfl
    cases hc : mark with
    | nil => simp [hc] at hm
    | cons c cs =>
      rw [hc] at hs
      rw [List.nil_append, List.cons_append, upTo]
      simp only [List.cons_append] at hs
      rw [hs]
  | cons c body ih =>
    have hs : Text.afterStartChars? mark (c :: (body ++ (mark ++ rest))) = none := by
      by_contra hh
      obtain ⟨r, hr⟩ := Option.ne_none_iff_exists'.mp hh
      have hp : mark <+: c :: body ++ (mark ++ rest) :=
        ⟨r, (Text.afterStartChars?_eq_some.mp hr).symm⟩
      exact not_prefix_append hm he (by simp) h hp
    have hb : ¬ mark <:+: body := fun hh => h (hh.trans (List.infix_cons List.infix_rfl))
    rw [List.cons_append, upTo, hs, ih hb]
    rfl

lemma named_eq {name : List Char} {c : Char} (hn : IsName name) (hc : isNamePart c = false)
    (cs head : List Char) (k : List Char → List Char → Step) :
    named head (name ++ c :: cs) k = k name (c :: cs) := by
  obtain ⟨ht, hd⟩ := takeWhile_append_stop hn.isNamePart hc cs
  obtain ⟨d, ds, rfl, hs, _⟩ := hn
  rw [List.cons_append] at ht hd ⊢
  rw [named, if_pos hs, ht, hd]

lemma IsName.extend {name cs : List Char} (h : IsName name) (hc : ∀ c ∈ cs, isNamePart c = true) :
    IsName (name ++ cs) := by
  obtain ⟨d, ds, rfl, hd, hp⟩ := h
  refine ⟨d, ds ++ cs, rfl, hd, ?_⟩
  intro e he
  rcases List.mem_append.mp he with he | he
  · exact hp e he
  · exact hc e he

lemma split_instruction (body rest : List Char) : ∃ p q c cs, body = p ++ q ∧
    (∀ d ∈ p, isNamePart d = true) ∧ q ++ ('?' :: '>' :: rest) = c :: cs ∧
      isNamePart c = false := by
  induction body with
  | nil => exact ⟨[], [], '?', '>' :: rest, rfl, by simp, rfl, by decide⟩
  | cons d body ih =>
    by_cases hd : isNamePart d = true
    · obtain ⟨p, q, c, cs, rfl, hp, hq, hc⟩ := ih
      refine ⟨d :: p, q, c, cs, rfl, ?_, hq, hc⟩
      intro e he
      rcases List.mem_cons.mp he with rfl | he
      · exact hd
      · exact hp e he
    · exact ⟨[], d :: body, d, body ++ '?' :: '>' :: rest, rfl, by simp, rfl, by simpa using hd⟩

lemma delimited_eq (head mark : String) (content : String → Content) {m body : List Char} {e : Char}
    (hm : mark.toList = m ++ [e]) (he : e ∉ m) (h : ¬ mark.toList <:+: body) (rest : List Char) :
    delimited head mark content (body ++ mark.toList ++ rest) =
      .read (.token (content (String.ofList body)) (head.toList ++ body ++ mark.toList)) .content
        rest := by
  rw [delimited, List.append_assoc, upTo_append hm he h]

lemma step_comment {body : List Char} (h : ¬ ['-', '-', '>'] <:+: body) (rest : List Char) :
    ∃ text, step .content ('<' :: '!' :: '-' :: '-' :: (body ++ ['-', '-', '>']) ++ rest) =
      .read (.token (.comment (String.ofList body)) text) .content rest :=
  ⟨_, delimited_eq "<!--" "-->" .comment (m := ['-', '-']) rfl (by decide) h rest⟩

lemma step_cdata {body : List Char} (h : ¬ [']', ']', '>'] <:+: body) (rest : List Char) :
    ∃ text, step .content ('<' :: '!' :: '[' :: 'C' :: 'D' :: 'A' :: 'T' :: 'A' :: '[' ::
      (body ++ [']', ']', '>']) ++ rest) =
      .read (.token (.cdata (String.ofList body)) text) .content rest :=
  ⟨_, delimited_eq "<![CDATA[" "]]>" .cdata (m := [']', ']']) rfl (by decide) h rest⟩

lemma step_instruction {target body : List Char} (ht : IsName target) (h : ¬ ['?', '>'] <:+: body)
    (rest : List Char) :
    ∃ name text, step .content ('<' :: '?' :: (target ++ (body ++ ['?', '>'])) ++ rest) =
      .read (.token (.instruction name) text) .content rest := by
  obtain ⟨p, q, c, cs, rfl, hp, hq, hc⟩ := split_instruction body rest
  have hi : ¬ ['?', '>'] <:+: q := fun hh => h (hh.trans (List.suffix_append p q).isInfix)
  have hu : upTo ['?', '>'] (c :: cs) = some (q, rest) := by
    rw [← hq]
    exact upTo_append (m := ['?']) rfl (by decide) hi rest
  have hs : target ++ (p ++ q ++ ['?', '>']) ++ rest = (target ++ p) ++ c :: cs := by
    simp [← hq]
  have hn := named_eq (IsName.extend ht hp) hc cs ['<', '?']
  refine ⟨String.ofList (target ++ p), '<' :: '?' :: (target ++ p) ++ q ++ ['?', '>'], ?_⟩
  change instructionStep (target ++ (p ++ q ++ ['?', '>']) ++ rest) = _
  rw [instructionStep, hs, hn, hu]

lemma contentStep_text {c : Char} {cs : List Char} (h : c ≠ '<') :
    contentStep (c :: cs) = textStep (c :: cs) := by
  rw [contentStep]
  all_goals
    intros
    simp_all

lemma resume_pass {cs text : List Char} {content : Content}
    (hs : step .content (cs ++ rest) = .read (.token content text) .content rest) (hn : cs ≠ [])
    (hb : ∀ span, b.next catalog ⟨content, span⟩ = .ok b) :
    resume catalog b l .content (cs ++ rest) = resume catalog b (l.after cs) .content rest := by
  have hm : Mode.content = .content → cs ++ rest ≠ [] := fun _ => by simp [hn]
  have ht := step_splits hm
  rw [hs] at ht
  obtain rfl : text = cs := List.append_cancel_right ht.1
  exact resume_token hm hs (hb _)

lemma resume_aside {cs : List Char} (h : Aside cs) (hp : b.place = .content) :
    resume catalog b l .content (cs ++ rest) = resume catalog b (l.after cs) .content rest := by
  cases h with
  | comment hb =>
    obtain ⟨text, hs⟩ := step_comment hb rest
    exact resume_pass hs (by simp) (fun span => by simp [Builder.next, hp, Builder.contentToken])
  | instruction ht hb =>
    obtain ⟨name, text, hs⟩ := step_instruction ht hb rest
    exact resume_pass hs (by simp) (fun span => by simp [Builder.next, hp, Builder.contentToken])

lemma resume_insert {cs : List Char} (h : Insert cs) (hp : b.place = .content)
    (ho : b.opened ≠ []) :
    resume catalog b l .content (cs ++ rest) = resume catalog b (l.after cs) .content rest := by
  cases h with
  | aside h => exact resume_aside h hp
  | cdata hb =>
    obtain ⟨text, hs⟩ := step_cdata hb rest
    exact resume_pass hs (by simp)
      (fun span => by simp [Builder.next, hp, Builder.contentToken, ho])

lemma resume_text {cs : List Char} (h : IsPlain cs) (hr : rest = [] ∨ ∃ tail, rest = '<' :: tail)
    (hp : b.place = .content) (ho : b.opened = [] → IsSpace cs) :
    resume catalog b l .content (cs ++ rest) = resume catalog b (l.after cs) .content rest := by
  cases cs with
  | nil => rfl
  | cons c cs =>
    have hs : step .content (c :: cs ++ rest) =
        .read (.token (.text (String.ofList (c :: cs))) (c :: cs)) .content rest := by
      rw [step, List.cons_append, contentStep_text (h c (by simp)).1, ← List.cons_append, textStep,
        run_plain h hr]
    apply resume_pass hs (by simp)
    intro span
    have hb : (b.opened.isEmpty && !(c :: cs).all isSpace) = false := by
      cases hb : b.opened with
      | nil => simpa [IsSpace] using ho hb
      | cons o os => rfl
    simp only [Builder.next, hp, Builder.contentToken, String.toList_ofList, hb]
    rfl

/-! ### Start tags -/

lemma isSpace_eq_false {p : Char → Bool} {c : Char} (hc : p c = true)
    (h : [' ', '\t', '\n', '\r'].any p = false) : isSpace c = false := by
  by_contra hs
  have hm : c ∈ [' ', '\t', '\n', '\r'] := by
    simp only [isSpace, Bool.not_eq_false, Bool.or_eq_true, beq_iff_eq, or_assoc] at hs
    simpa using hs
  exact List.any_eq_false.mp h c hm hc

lemma resume_space {mode next : Mode} {space : List Char} {c : Char}
    (hs : ∀ d ds, isSpace d = true → step mode (d :: ds) = spaceStep next (d :: ds))
    (hn : space ≠ []) (h : IsSpace space) (hc : isSpace c = false) :
    resume catalog b l mode (space ++ c :: rest) =
      resume catalog b (l.after space) next (c :: rest) := by
  obtain ⟨ht, hd⟩ := takeWhile_append_stop h hc rest
  apply resume_gap (fun _ => by simp)
  cases space with
  | nil => exact absurd rfl hn
  | cons d ds =>
    rw [List.cons_append] at ht hd ⊢
    rw [hs d _ (h d (by simp)), spaceStep, ht, hd]

lemma resume_space_or_nil {mode : Mode} {space : List Char} {c : Char}
    (hs : ∀ d ds, isSpace d = true → step mode (d :: ds) = spaceStep mode (d :: ds))
    (h : IsSpace space) (hc : isSpace c = false) :
    resume catalog b l mode (space ++ c :: rest) =
      resume catalog b (l.after space) mode (c :: rest) := by
  by_cases hn : space = []
  · rw [hn]
    rfl
  · exact resume_space hs hn h hc

lemma step_tag_space (spaced : Bool) (d : Char) (ds : List Char) (h : isSpace d = true) :
    step (.tag spaced) (d :: ds) = spaceStep (.tag true) (d :: ds) := by
  have hs : d ≠ '/' := ne_of_class h (by decide)
  have hg : d ≠ '>' := ne_of_class h (by decide)
  rw [step, tagStep, if_pos h]
  all_goals simp_all

lemma step_equals_space (name : String) (d : Char) (ds : List Char) (h : isSpace d = true) :
    step (.equals name) (d :: ds) = spaceStep (.equals name) (d :: ds) := by
  have he : d ≠ '=' := ne_of_class h (by decide)
  rw [step, equalsStep, if_pos h]
  all_goals simp_all

lemma step_value_space (name : String) (d : Char) (ds : List Char) (h : isSpace d = true) :
    step (.value name) (d :: ds) = spaceStep (.value name) (d :: ds) := by
  simp [step, valueStep, h]

lemma step_attributeName {key : String} {c : Char} (hk : IsName key.toList)
    (hc : isNamePart c = false) (cs : List Char) :
    step (.tag true) (key.toList ++ c :: cs) =
      .read (.token (.attributeName key) key.toList) (.equals key) (c :: cs) := by
  have hn := named_eq hk hc cs []
  obtain ⟨d, ds, he, hd, _⟩ := hk
  have hs : d ≠ '/' := ne_of_class hd (by decide)
  have hg : d ≠ '>' := ne_of_class hd (by decide)
  have hb : isSpace d = false := isSpace_eq_false hd (by decide)
  rw [step, he, List.cons_append, tagStep, if_neg (by simp [hb]), if_pos rfl, ← List.cons_append,
    ← he, hn, String.ofList_toList]
  all_goals simp_all

lemma step_attributeValue {key value : String} {quote : Char} {parts : List (List Char)}
    (hq : isQuote quote = true) (h : List.Forall₂ (Spells quote) value.toList parts)
    (rest : List Char) :
    step (.value key) (quote :: (parts.flatten ++ quote :: rest)) =
      .read (.token (.attributeValue value) (quote :: parts.flatten ++ [quote])) (.tag false)
        rest := by
  have hs : isSpace quote = false := isSpace_eq_false hq (by decide)
  have hr := run_value hq h rest
  rw [step, valueStep, if_neg (by simp [hs]), if_pos hq, quotedStep, hr]
  simp

variable {opened : List OpenElement} {root : Option Element} {count : ℕ}

lemma exists_stop {p : Char → Bool} {space : List Char} {c : Char} (h : IsSpace space)
    (hs : ∀ d, isSpace d = true → p d = false) (hc : p c = false) (cs : List Char) :
    ∃ d ds, space ++ c :: cs = d :: ds ∧ p d = false := by
  cases space with
  | nil => exact ⟨c, cs, rfl, hc⟩
  | cons d ds => exact ⟨d, ds ++ c :: cs, rfl, hs d (h d (by simp))⟩

lemma isNamePart_of_isSpace (d : Char) (h : isSpace d = true) : isNamePart d = false := by
  simp only [isSpace, Bool.or_eq_true, beq_iff_eq] at h
  rcases h with ((rfl | rfl) | rfl) | rfl <;> decide

lemma after_append (l : Location) (xs ys : List Char) :
    l.after (xs ++ ys) = (l.after xs).after ys :=
  List.foldl_append

lemma resume_attribute {start : StartTag} {key value : String} {text : List Char}
    (h : AttributeText (key, value) text) (hf : ∀ a ∈ start.attributes, a.key ≠ key) :
    resume catalog ⟨.tag start, opened, root, count⟩ l (.tag true) (text ++ rest) =
      resume catalog
        ⟨.tag { start with attributes := start.attributes ++ [⟨key, value, l, l.after text⟩] },
          opened, root, count⟩
        (l.after text) (.tag false) rest := by
  obtain @⟨_, _, before, after, quote, parts, hk, hb, ha, hq, hv⟩ := h
  have hn : (start.attributes.any (·.key == key)) = false := by
    simpa using hf
  have hs : isSpace quote = false := isSpace_eq_false hq (by decide)
  obtain ⟨c, cs, hc, hp⟩ := exists_stop hb isNamePart_of_isSpace
    (by decide : isNamePart '=' = false) (after ++ quote :: (parts.flatten ++ quote :: rest))
  have ht : key.toList ++ (before ++ '=' :: (after ++ quote :: (parts.flatten ++ [quote]))) ++
      rest = key.toList ++ c :: cs := by
    simp [← hc]
  have hl : l.after
      (key.toList ++ (before ++ '=' :: (after ++ quote :: (parts.flatten ++ [quote])))) =
      ((((l.after key.toList).after before).after ['=']).after after).after
        (quote :: parts.flatten ++ [quote]) := by
    simp only [← after_append]
    simp
  have hv' : ∀ stop, Builder.next catalog
      ⟨.attribute start key ⟨l, l.after key.toList⟩, opened, root, count⟩
      ⟨.attributeValue value, stop⟩ = .ok ⟨.tag { start with
        attributes := start.attributes ++ [⟨key, value, l, stop.stop⟩] }, opened, root, count⟩ := by
    intro stop
    simp [Builder.next, Builder.attributeToken, hn]
  rw [ht, resume_token (by simp) (step_attributeName hk hp cs) rfl, ← hc,
    resume_space_or_nil (step_equals_space key) hb (by decide), resume_gap (by simp) rfl,
    resume_space_or_nil (step_value_space key) ha hs,
    resume_token (by simp) (step_attributeValue hq hv rest) (hv' _), hl]

lemma starts_of_attributeText {a : String × String} {text : List Char} (h : AttributeText a text) :
    ∃ c cs, text = c :: cs ∧ isSpace c = false := by
  obtain ⟨⟨c, ds, hk, hc, _⟩, _, _, _, _⟩ := h
  rw [hk]
  exact ⟨c, _, rfl, isSpace_eq_false hc (by decide)⟩

lemma resume_attributes (catalog : Catalog) (opened : List OpenElement) (root : Option Element)
    (count : ℕ) (rest : List Char) {as : List (String × String)} {text : List Char}
    (h : AttributesText as text) (l : Location) (start : StartTag)
    (hd : ((start.attributes.map (·.key)) ++ as.map Prod.fst).Nodup) (spaced : Bool) :
    ∃ raws spaced', raws.map (fun a => (a.key, a.value)) = as ∧
      resume catalog ⟨.tag start, opened, root, count⟩ l (.tag spaced) (text ++ rest) =
        resume catalog
          ⟨.tag { start with attributes := start.attributes ++ raws }, opened, root, count⟩
          (l.after text) (.tag spaced') rest := by
  induction h generalizing start l spaced with
  | nil => exact ⟨[], spaced, rfl, by simp [Location.after]⟩
  | @cons a as space text tail hn hs ha _ ih =>
    obtain ⟨key, value⟩ := a
    have hf : ∀ a ∈ start.attributes, a.key ≠ key := by
      intro a ha he
      simp only [List.map_cons, List.nodup_append] at hd
      exact hd.2.2 a.key (List.mem_map_of_mem ha) key (by simp) he
    obtain ⟨c, cs, rfl, hc⟩ := starts_of_attributeText ha
    let raw : RawAttribute := ⟨key, value, l.after space, (l.after space).after (c :: cs)⟩
    obtain ⟨raws, spaced', hr, he⟩ := ih ((l.after space).after (c :: cs))
      { start with attributes := start.attributes ++ [raw] } (by simpa [raw] using hd) false
    refine ⟨raw :: raws, spaced', by simp [hr, raw], ?_⟩
    rw [List.append_assoc, List.append_assoc, List.cons_append,
      resume_space (step_tag_space spaced) hn hs hc, ← List.cons_append, resume_attribute ha hf, he,
      after_append, after_append]
    simp [raw]

lemma tagOf_makeTag {start : StartTag} {as : List (String × String)}
    (h : start.attributes.map (fun a => (a.key, a.value)) = as) (hd : (as.map Prod.fst).Nodup)
    (index : ℕ) (stop : Location) :
    TagOf catalog start.name as (Builder.makeTag catalog index start stop) := by
  let le : RawAttribute → RawAttribute → Bool := fun a b => decide (a.key ≤ b.key)
  have hp : (start.attributes.mergeSort le).Perm start.attributes := List.mergeSort_perm _ _
  have hs : (start.attributes.mergeSort le).Pairwise (fun a b => a.key ≤ b.key) := by
    have ht : ∀ a b c, le a b = true → le b c = true → le a c = true := by
      simpa [le] using fun a b c => String.le_trans
    have hl : ∀ a b, (le a b || le b a) = true := by
      simpa [le] using fun a b : RawAttribute => String.le_total a.key b.key
    simpa [le] using List.pairwise_mergeSort ht hl start.attributes
  have hk : ((start.attributes.mergeSort le).map (·.key)).Nodup := by
    rw [(hp.map _).nodup_iff]
    simpa [← h, Function.comp_def] using hd
  refine ⟨rfl, ?_, ?_, ?_⟩
  · simpa [Builder.makeTag, Function.comp_def, ← h] using hp.map fun a => (a.key, a.value)
  · have hn := (List.pairwise_map.mp hk).and hs
    simp only [Builder.makeTag, List.map_map, Function.comp_def]
    apply List.pairwise_map.mpr
    apply hn.imp
    intro a b hab
    exact String.not_le.mp fun hh => hab.1 (String.le_antisymm hab.2 hh)
  · intro a ha
    obtain ⟨r, _, rfl⟩ := List.mem_map.mp ha
    rfl

lemma contentStep_open {c : Char} {cs : List Char} (h : isNameStart c = true) :
    contentStep ('<' :: c :: cs) = openStep (c :: cs) := by
  have hb : c ≠ '!' := ne_of_class h (by decide)
  have hq : c ≠ '?' := ne_of_class h (by decide)
  have hs : c ≠ '/' := ne_of_class h (by decide)
  rw [contentStep]
  all_goals simp_all

lemma resume_tag_space (catalog : Catalog) (b : Builder) (l : Location) (rest : List Char)
    {space : List Char} {c : Char} (h : IsSpace space) (hc : isSpace c = false) (spaced : Bool) :
    ∃ spaced', resume catalog b l (.tag spaced) (space ++ c :: rest) =
      resume catalog b (l.after space) (.tag spaced') (c :: rest) := by
  by_cases hn : space = []
  · exact ⟨spaced, by rw [hn]; rfl⟩
  · exact ⟨true, resume_space (step_tag_space spaced) hn h hc⟩

lemma stop_after_name {as : List (String × String)} {text space : List Char} {c : Char}
    (ht : AttributesText as text) (hw : IsSpace space) (hc : isNamePart c = false)
    (rest : List Char) :
    ∃ d ds, text ++ (space ++ c :: rest) = d :: ds ∧ isNamePart d = false := by
  cases ht with
  | nil => exact exists_stop hw isNamePart_of_isSpace hc rest
  | @cons _ _ first _ _ hn hs _ _ =>
    cases first with
    | nil => exact absurd rfl hn
    | cons d ds => exact ⟨d, _, rfl, isNamePart_of_isSpace d (hs d (by simp))⟩

lemma step_tagStart {name : String} {c : Char} (hn : IsName name.toList)
    (hc : isNamePart c = false) (cs : List Char) :
    step .content ('<' :: (name.toList ++ c :: cs)) =
      .read (.token (.tagStart name) ('<' :: name.toList)) (.tag false) (c :: cs) := by
  have hk := named_eq hn hc cs ['<']
  obtain ⟨d, ds, he, hd, _⟩ := hn
  rw [step, he, List.cons_append, contentStep_open hd, openStep, ← List.cons_append, ← he, hk,
    String.ofList_toList]

lemma resume_head (catalog : Catalog) (count : ℕ) (l : Location) (rest : List Char) {name : String}
    {as : List (String × String)} {head : List Char} {c : Char} (h : HeadText name as head)
    (ho : opened = [] → root = none) (hc : isNamePart c = false) (hs : isSpace c = false) :
    ∃ start spaced, start.name = name ∧ start.attributes.map (fun a => (a.key, a.value)) = as ∧
      resume catalog ⟨.content, opened, root, count⟩ l .content ('<' :: (head ++ c :: rest)) =
        resume catalog ⟨.tag start, opened, root, count⟩ (l.after ('<' :: head)) (.tag spaced)
          (c :: rest) := by
  obtain @⟨text, space, hn, hd, ht, hw⟩ := h
  let span : Span := ⟨l, l.after ('<' :: name.toList)⟩
  have hb : Builder.next catalog ⟨.content, opened, root, count⟩ ⟨.tagStart name, span⟩ =
      .ok ⟨.tag { name, span }, opened, root, count⟩ := by
    have hr : (opened.isEmpty && root.isSome) = false := by
      cases opened with
      | nil => simp [ho rfl]
      | cons o os => rfl
    simp [Builder.next, Builder.contentToken, hr]
  obtain ⟨d, ds, he, hp⟩ := stop_after_name ht hw hc rest
  obtain ⟨raws, spaced, hr, ha⟩ := resume_attributes catalog opened root count
    (space ++ c :: rest) ht (l.after ('<' :: name.toList)) { name, span } (by simpa using hd) false
  obtain ⟨spaced', hw'⟩ := resume_tag_space catalog
    ⟨.tag { name, span, attributes := raws }, opened, root, count⟩
    ((l.after ('<' :: name.toList)).after text) rest hw hs spaced
  have hl : l.after ('<' :: (name.toList ++ (text ++ space))) =
      ((l.after ('<' :: name.toList)).after text).after space := by
    simp only [← after_append]
    simp
  refine ⟨{ name, span, attributes := raws }, spaced', rfl, hr, ?_⟩
  have hcs : '<' :: (name.toList ++ (text ++ space) ++ c :: rest) =
      '<' :: (name.toList ++ d :: ds) := by
    simp [← he]
  rw [hcs, resume_token (by simp) (step_tagStart hn hp ds) hb, ← he, ha, hl]
  exact hw'

/-! ### Elements -/

lemma step_tagClose {name : String} {space : List Char} (hn : IsName name.toList)
    (hs : IsSpace space) (rest : List Char) :
    step .content ('<' :: '/' :: (name.toList ++ (space ++ '>' :: rest))) =
      .read (.token (.tagClose name) ('<' :: '/' :: name.toList ++ space ++ ['>'])) .content
        rest := by
  obtain ⟨c, cs, hc, hp⟩ := exists_stop hs isNamePart_of_isSpace
    (by decide : isNamePart '>' = false) rest
  obtain ⟨ht, hd⟩ := takeWhile_append_stop hs (by decide : isSpace '>' = false) rest
  have hk := named_eq hn hp cs ['<', '/']
  change closeStep _ = _
  rw [closeStep, hc, hk, ← hc, ht, hd, String.ofList_toList]
  rfl

/-- What a rendered part does to a builder that reads it: an element is added, and content goes to
the children of the innermost open element. -/
def Reads (catalog : Catalog) : Part → List Char → Prop
  | .element n, cs => ∀ opened root count l rest, (opened = [] → root = none) →
      ∃ e count', Depicts catalog n e ∧
        resume catalog ⟨.content, opened, root, count⟩ l .content (cs ++ rest) =
          resume catalog (Builder.add ⟨.content, opened, root, count'⟩ e) (l.after cs) .content rest
  | .content ns, cs => ∀ o os root count l rest,
      ∃ es count', List.Forall₂ (Depicts catalog) ns es ∧
        resume catalog ⟨.content, o :: os, root, count⟩ l .content (cs ++ '<' :: rest) =
          resume catalog
            ⟨.content, { o with children := es.reverse ++ o.children } :: os, root, count'⟩
            (l.after cs) .content ('<' :: rest)

lemma reads_void {name : String} {as : List (String × String)} {head : List Char}
    (h : HeadText name as head) :
    Reads catalog (.element ⟨name, as, []⟩) ('<' :: (head ++ ['/', '>'])) := by
  intro opened root count l rest ho
  obtain ⟨start, spaced, rfl, ha, hr⟩ := resume_head catalog count l ('>' :: rest) h ho
    (by decide : isNamePart '/' = false) (by decide)
  let stop := (l.after ('<' :: head)).after ['/', '>']
  have hl : l.after ('<' :: (head ++ ['/', '>'])) = stop := by rw [← List.cons_append, after_append]
  have hcs : '<' :: (head ++ ['/', '>']) ++ rest = '<' :: (head ++ '/' :: '>' :: rest) := by simp
  refine ⟨⟨Builder.makeTag catalog count start stop, []⟩, count + 1,
    .intro (tagOf_makeTag ha h.nodup count stop) .nil, ?_⟩
  rw [hcs, hr, resume_token (by simp) rfl rfl, hl]

lemma reads_full {name : String} {as : List (String × String)} {children : List Outline}
    {head body space : List Char} (h : HeadText name as head) (hs : IsSpace space)
    (hb : Reads catalog (.content children) body) :
    Reads catalog (.element ⟨name, as, children⟩)
      ('<' :: (head ++ '>' :: (body ++ '<' :: '/' :: (name.toList ++ (space ++ ['>']))))) := by
  intro opened root count l rest ho
  let closing := '/' :: (name.toList ++ (space ++ '>' :: rest))
  obtain ⟨start, spaced, rfl, ha, hr⟩ := resume_head catalog count l
    (body ++ '<' :: closing) h ho (by decide : isNamePart '>' = false) (by decide)
  let stop := (l.after ('<' :: head)).after ['>']
  let tag := Builder.makeTag catalog count start stop
  obtain ⟨es, count', he, hc⟩ := hb ⟨start.name, tag, []⟩ opened root (count + 1) stop closing
  have hcs :
      '<' :: (head ++ '>' :: (body ++ '<' :: '/' :: (start.name.toList ++ (space ++ ['>'])))) ++
        rest = '<' :: (head ++ '>' :: (body ++ '<' :: closing)) := by
    simp [closing]
  have hl : l.after ('<' :: (head ++ '>' :: (body ++ '<' :: '/' :: (start.name.toList ++
      (space ++ ['>']))))) =
      (stop.after body).after ('<' :: '/' :: start.name.toList ++ space ++ ['>']) := by
    simp only [stop, ← after_append]
    simp
  let last : Span := ⟨tag.span.start, l.after ('<' :: (head ++ '>' :: (body ++ '<' :: '/' ::
    (start.name.toList ++ (space ++ ['>'])))))⟩
  have ht : TagOf catalog start.name as tag := tagOf_makeTag ha h.nodup count stop
  refine ⟨⟨{ tag with span := last }, es⟩, count', .intro ⟨ht.1, ht.2, ht.3, ht.4⟩ he, ?_⟩
  have hadd : ∀ span : Span, Builder.next catalog
      ⟨.content, ⟨start.name, tag, es.reverse ++ []⟩ :: opened, root, count'⟩
      ⟨.tagClose start.name, span⟩ = .ok (Builder.add ⟨.content, opened, root, count'⟩
        ⟨{ tag with span := ⟨tag.span.start, span.stop⟩ }, es⟩) := by
    intro span
    simp [Builder.next, Builder.contentToken]
  rw [hcs, hr, resume_token (by simp) rfl rfl]
  refine hc.trans ?_
  rw [resume_token (by simp) (step_tagClose h.isName hs rest) (hadd _), ← hl]

lemma Aside.opens {cs : List Char} (h : Aside cs) : ∃ tail, cs = '<' :: tail := by
  cases h <;> exact ⟨_, rfl⟩

lemma Insert.opens {cs : List Char} (h : Insert cs) : ∃ tail, cs = '<' :: tail := by
  cases h with
  | aside h => exact Aside.opens h
  | cdata _ => exact ⟨_, rfl⟩

lemma Renders.opens {n : Outline} {cs : List Char} (h : Renders (.element n) cs) :
    ∃ tail, cs = '<' :: tail := by
  cases h <;> exact ⟨_, rfl⟩

lemma opens_append {cs : List Char} (h : ∃ tail, cs = '<' :: tail) (rest : List Char) :
    cs ++ rest = [] ∨ ∃ tail, cs ++ rest = '<' :: tail := by
  obtain ⟨tail, rfl⟩ := h
  exact Or.inr ⟨tail ++ rest, rfl⟩

theorem reads_of_renders (catalog : Catalog) {p : Part} {cs : List Char} (h : Renders p cs) :
    Reads catalog p cs := by
  induction h with
  | void h => exact reads_void h
  | full h _ hs ih => exact reads_full h hs ih
  | text ht =>
    intro o os root count l rest
    exact ⟨[], count, .nil, resume_text ht (Or.inr ⟨rest, rfl⟩) rfl (by simp)⟩
  | @insert ns text cs tail ht hi _ ih =>
    intro o os root count l rest
    obtain ⟨es, count', he, hc⟩ := ih o os root count ((l.after text).after cs) rest
    refine ⟨es, count', he, ?_⟩
    rw [List.append_assoc, List.append_assoc, resume_text ht (opens_append (Insert.opens hi) _) rfl
      (by simp), resume_insert hi rfl (by simp), hc, after_append, after_append]
  | @child n ns text cs tail ht hn _ ihn ih =>
    intro o os root count l rest
    obtain ⟨e, count₁, he, hc⟩ :=
      ihn (o :: os) root count (l.after text) (tail ++ '<' :: rest) (by simp)
    obtain ⟨es, count₂, hes, hcs⟩ := ih { o with children := e :: o.children } os root count₁
      ((l.after text).after cs) rest
    refine ⟨e :: es, count₂, .cons he hes, ?_⟩
    rw [List.append_assoc, List.append_assoc, resume_text ht (opens_append (Renders.opens hn) _) rfl
      (by simp), hc, after_append, after_append]
    simpa [Builder.add] using hcs

/-! ### Documents -/

lemma isPlain_of_isSpace {cs : List Char} (h : IsSpace cs) : IsPlain cs :=
  fun c hc => ⟨ne_of_class (h c hc) (by decide), ne_of_class (h c hc) (by decide)⟩

lemma resume_surrounds {cs : List Char} (h : Surrounds cs)
    (hr : rest = [] ∨ ∃ tail, rest = '<' :: tail) (hp : b.place = .content) :
    resume catalog b l .content (cs ++ rest) = resume catalog b (l.after cs) .content rest := by
  induction h generalizing l with
  | space hs => exact resume_text (isPlain_of_isSpace hs) hr hp (fun _ => hs)
  | @aside space cs tail hs ha _ ih =>
    rw [List.append_assoc, List.append_assoc, resume_text (isPlain_of_isSpace hs)
      (opens_append (Aside.opens ha) _) hp (fun _ => hs), resume_aside ha hp, ih, after_append,
      after_append]

theorem read_rendering (catalog : Catalog) {n : Outline} {source : String}
    (h : DocumentText n source.toList) :
    ∃ e, Tree.read catalog source = ⟨some e, none⟩ ∧ Depicts catalog n e := by
  have hu := h.unify
  rw [read_eq_resume]
  generalize Text.unifyBreakChars source.toList = text at hu
  obtain @⟨before, cs, after, hb, hn, ha⟩ := hu
  obtain ⟨e, count, he, hc⟩ := reads_of_renders catalog hn [] none 0
    (Location.after {} before) after (fun _ => rfl)
  refine ⟨e, ?_, he⟩
  rw [resume_surrounds hb (opens_append (Renders.opens hn) _) rfl, hc]
  rw [← List.append_nil after, resume_surrounds ha (Or.inl rfl) rfl]
  exact resume_end

/-- A namespace in front of the name, a value that needs a reference, a comment before the children,
and line breaks of two kinds. -/
theorem read_rendering_window :
    ∃ e, Tree.read .terminalGui "<?x?>\r\n<w:A b = '&#x003C;c'\r>x<!-- > --><B/><B\t></B ></w:A>" =
        ⟨some e, none⟩ ∧
      Depicts .terminalGui ⟨"w:A", [("b", "<c")], [⟨"B", [], []⟩, ⟨"B", [], []⟩]⟩ e := by
  have hname : IsName "B".toList := ⟨'B', [], rfl, by decide, by simp⟩
  have hspelled : List.Forall₂ (Spells '\'') "<c".toList ["&#x003C;".toList, ['c']] :=
    .cons (@Spells.hexadecimal _ '<' 2 ['0', '0', '3', 'C'] (by decide))
      (.cons (.raw (by decide)) .nil)
  have hattribute : AttributeText ("b", "<c") "b = '&#x003C;c'".toList :=
    @AttributeText.intro _ _ [' '] [' '] _ _ ⟨'b', [], rfl, by decide, by simp⟩ (by decide)
      (by decide) (by decide) hspelled
  have hhead : HeadText "w:A" [("b", "<c")] "w:A b = '&#x003C;c'\r".toList :=
    @HeadText.intro _ _ _ ['\r']
      ⟨'w', [':', 'A'], rfl, by decide, List.all_eq_true.mp (by decide)⟩ (by decide)
      (@AttributesText.cons _ _ [' '] _ _ (by decide) (by decide) hattribute .nil) (by decide)
  have hvoid : Renders (.element ⟨"B", [], []⟩) "<B/>".toList :=
    .void (@HeadText.intro _ _ _ [] hname (by decide) .nil (by decide))
  have hfull : Renders (.element ⟨"B", [], []⟩) "<B\t></B >".toList :=
    @Renders.full _ _ _ _ [] [' '] (@HeadText.intro _ _ _ ['\t'] hname (by decide) .nil (by decide))
      (.text (by decide)) (by decide)
  have hbody : Renders (.content [⟨"B", [], []⟩, ⟨"B", [], []⟩])
      "x<!-- > --><B/><B\t></B >".toList :=
    @Renders.insert _ ['x'] _ _ (by decide) (.aside (@Aside.comment [' ', '>', ' '] (by decide)))
      (@Renders.child _ _ [] _ _ (by decide) hvoid
        (@Renders.child _ _ [] _ _ (by decide) hfull (.text (by decide))))
  have hinstruction : Aside "<?x?>".toList :=
    @Aside.instruction _ [] ⟨'x', [], rfl, by decide, by simp⟩ (by decide)
  apply read_rendering
  exact @DocumentText.intro _ _ _ []
    (@Surrounds.aside [] _ ['\r', '\n'] (by decide) hinstruction (.space (by decide)))
    (@Renders.full _ _ _ _ _ [] hhead hbody (by decide)) (.space (by decide))

end TuiMarkup.Proofs.RoundTrip
