import Mathlib.Data.List.Forall2
import Mathlib.Tactic.Lemma
import TuiMarkup.Markup.Piece
import TuiMarkup.Text.LineBreak

/-! The ways in which an element tree can be written as markup. Quotes, spellings of characters,
white space, the two forms of an element without children, and what stands between elements are
free. Giving the line breaks one spelling leads from one rendering of a tree to another. -/

namespace TuiMarkup.Proofs.Rendering

open Markup

structure Outline where
  name : String
  attributes : List (String × String)
  children : List Outline

def IsName (cs : List Char) : Prop :=
  ∃ c ds, cs = c :: ds ∧ isNameStart c = true ∧ ∀ d ∈ ds, isNamePart d = true

def IsSpace (cs : List Char) : Prop := ∀ c ∈ cs, isSpace c = true

def IsPlain (cs : List Char) : Prop := ∀ c ∈ cs, c ≠ '<' ∧ c ≠ '&'

instance (cs : List Char) : Decidable (IsSpace cs) :=
  List.decidableBAll (fun c => isSpace c = true) cs

instance (cs : List Char) : Decidable (IsPlain cs) :=
  List.decidableBAll (fun c => c ≠ '<' ∧ c ≠ '&') cs

def entities : List (String × Char) :=
  [("lt", '<'), ("gt", '>'), ("amp", '&'), ("quot", '"'), ("apos", '\'')]

/-- The spellings of a character in a value between two `quote`s. -/
inductive Spells (quote : Char) : Char → List Char → Prop
  | raw {c : Char} : c ∉ ['<', '&', quote, '\t', '\n', '\r'] → Spells quote c [c]
  | entity {c : Char} {name : String} : (name, c) ∈ entities →
      Spells quote c ('&' :: (name.toList ++ [';']))
  | decimal (c : Char) (zeros : ℕ) :
      Spells quote c
        ('&' :: '#' :: (List.replicate zeros '0' ++ Nat.toDigits 10 c.toNat ++ [';']))
  | hexadecimal {c : Char} {zeros : ℕ} {digits : List Char} :
      List.Forall₂ (fun d e => d = e ∨ d = e.toUpper) digits
        (List.replicate zeros '0' ++ Nat.toDigits 16 c.toNat) →
      Spells quote c ('&' :: '#' :: 'x' :: (digits ++ [';']))

inductive AttributeText : String × String → List Char → Prop
  | intro {key value : String} {before after : List Char} {quote : Char}
      {parts : List (List Char)} : IsName key.toList → IsSpace before → IsSpace after →
      isQuote quote = true → List.Forall₂ (Spells quote) value.toList parts →
      AttributeText (key, value)
        (key.toList ++ (before ++ '=' :: (after ++ quote :: (parts.flatten ++ [quote]))))

inductive AttributesText : List (String × String) → List Char → Prop
  | nil : AttributesText [] []
  | cons {a : String × String} {as : List (String × String)} {space text rest : List Char} :
      space ≠ [] → IsSpace space → AttributeText a text → AttributesText as rest →
      AttributesText (a :: as) (space ++ (text ++ rest))

inductive HeadText (name : String) (attributes : List (String × String)) : List Char → Prop
  | intro {text space : List Char} : IsName name.toList → (attributes.map Prod.fst).Nodup →
      AttributesText attributes text → IsSpace space →
      HeadText name attributes (name.toList ++ (text ++ space))

inductive Aside : List Char → Prop
  | comment {body : List Char} : ¬ ['-', '-', '>'] <:+: body →
      Aside ('<' :: '!' :: '-' :: '-' :: (body ++ ['-', '-', '>']))
  | instruction {target body : List Char} : IsName target → ¬ ['?', '>'] <:+: body →
      Aside ('<' :: '?' :: (target ++ (body ++ ['?', '>'])))

inductive Insert : List Char → Prop
  | aside {cs : List Char} : Aside cs → Insert cs
  | cdata {body : List Char} : ¬ [']', ']', '>'] <:+: body →
      Insert ('<' :: '!' :: '[' :: 'C' :: 'D' :: 'A' :: 'T' :: 'A' :: '[' ::
        (body ++ [']', ']', '>']))

inductive Part where
  | element (n : Outline)
  | content (ns : List Outline)

inductive Renders : Part → List Char → Prop
  | void {name : String} {attributes : List (String × String)} {head : List Char} :
      HeadText name attributes head →
      Renders (.element ⟨name, attributes, []⟩) ('<' :: (head ++ ['/', '>']))
  | full {name : String} {attributes : List (String × String)} {children : List Outline}
      {head body space : List Char} : HeadText name attributes head →
      Renders (.content children) body → IsSpace space →
      Renders (.element ⟨name, attributes, children⟩)
        ('<' :: (head ++ '>' :: (body ++ '<' :: '/' :: (name.toList ++ (space ++ ['>'])))))
  | text {cs : List Char} : IsPlain cs → Renders (.content []) cs
  | insert {ns : List Outline} {text cs rest : List Char} : IsPlain text → Insert cs →
      Renders (.content ns) rest → Renders (.content ns) (text ++ (cs ++ rest))
  | child {n : Outline} {ns : List Outline} {text cs rest : List Char} : IsPlain text →
      Renders (.element n) cs → Renders (.content ns) rest →
      Renders (.content (n :: ns)) (text ++ (cs ++ rest))

/-- What may stand before and after the root. -/
inductive Surrounds : List Char → Prop
  | space {cs : List Char} : IsSpace cs → Surrounds cs
  | aside {space cs rest : List Char} : IsSpace space → Aside cs → Surrounds rest →
      Surrounds (space ++ (cs ++ rest))

inductive DocumentText (n : Outline) : List Char → Prop
  | intro {before cs after : List Char} : Surrounds before → Renders (.element n) cs →
      Surrounds after → DocumentText n (before ++ (cs ++ after))

/-! ### Character classes -/

lemma IsName.isNamePart {cs : List Char} (h : IsName cs) : ∀ c ∈ cs, isNamePart c = true := by
  obtain ⟨c, ds, rfl, hc, hd⟩ := h
  intro d hm
  rcases List.mem_cons.mp hm with rfl | hm
  · simp [Markup.isNamePart, hc]
  · exact hd d hm

lemma ne_of_class {p : Char → Bool} {c d : Char} (hc : p c = true) (hd : p d = false) : c ≠ d := by
  rintro rfl
  simp [hc] at hd

/-! ### Digits -/

lemma mem_toDigits {b n : ℕ} {c : Char} (hb : 1 < b) (h : c ∈ Nat.toDigits b n) :
    ∃ k < b, c = Nat.digitChar k := by
  induction n using Nat.strongRecOn with
  | ind n ih =>
    rw [Nat.toDigits_eq_if hb] at h
    split at h
    · next hn => exact ⟨n, hn, by simpa using h⟩
    · next hn =>
      rcases List.mem_append.mp h with h | h
      · exact ih (n / b) (Nat.div_lt_self (by omega) hb) h
      · exact ⟨n % b, Nat.mod_lt _ (by omega), by simpa using h⟩

lemma mem_paddedDigits {b n zeros : ℕ} {c : Char} (hb : 1 < b)
    (h : c ∈ List.replicate zeros '0' ++ Nat.toDigits b n) : ∃ k < b, c = Nat.digitChar k := by
  rcases List.mem_append.mp h with h | h
  · exact ⟨0, by omega, List.eq_of_mem_replicate h⟩
  · exact mem_toDigits hb h

lemma isDecimalDigit_digitChar : ∀ k < 10, Text.isDecimalDigit (Nat.digitChar k) = true := by
  decide

lemma isHexDigit_digitChar : ∀ k < 16, isHexDigit (Nat.digitChar k) = true ∧
    isHexDigit (Nat.digitChar k).toUpper = true := by
  decide

lemma isDecimalDigit_of_mem {n zeros : ℕ} {c : Char}
    (h : c ∈ List.replicate zeros '0' ++ Nat.toDigits 10 n) : Text.isDecimalDigit c = true := by
  obtain ⟨k, hk, rfl⟩ := mem_paddedDigits (by omega) h
  exact isDecimalDigit_digitChar k hk

lemma forall₂_mem_left {α β : Type} {R : α → β → Prop} {as : List α} {bs : List β} {a : α}
    (h : List.Forall₂ R as bs) (ha : a ∈ as) : ∃ b ∈ bs, R a b := by
  induction h with
  | nil => simp at ha
  | @cons c d _ _ hr _ ih =>
    rcases List.mem_cons.mp ha with rfl | ha
    · exact ⟨d, by simp, hr⟩
    · obtain ⟨b, hb, hr⟩ := ih ha
      exact ⟨b, by simp [hb], hr⟩

lemma isHexDigit_of_mem {n zeros : ℕ} {digits : List Char} {c : Char}
    (h : List.Forall₂ (fun d e => d = e ∨ d = e.toUpper) digits
      (List.replicate zeros '0' ++ Nat.toDigits 16 n)) (hc : c ∈ digits) : isHexDigit c = true := by
  obtain ⟨e, he, hce⟩ := forall₂_mem_left h hc
  obtain ⟨k, hk, rfl⟩ := mem_paddedDigits (by omega) he
  rcases hce with rfl | rfl
  · exact (isHexDigit_digitChar k hk).1
  · exact (isHexDigit_digitChar k hk).2

lemma Spells.ne_return {quote c : Char} {part : List Char} (h : Spells quote c part) :
    ∀ d ∈ part, d ≠ '\r' := by
  intro d hd
  cases h with
  | raw hc =>
    obtain rfl := List.mem_singleton.mp hd
    rintro rfl
    simp at hc
  | entity he =>
    rintro rfl
    simp only [entities, List.mem_cons, Prod.mk.injEq, List.not_mem_nil, or_false] at he
    rcases he with ⟨rfl, _⟩ | ⟨rfl, _⟩ | ⟨rfl, _⟩ | ⟨rfl, _⟩ | ⟨rfl, _⟩ <;> simp at hd
  | decimal zeros =>
    simp only [List.mem_cons, List.mem_append, List.not_mem_nil, or_false] at hd
    rcases hd with rfl | rfl | hd | rfl
    · decide
    · decide
    · exact ne_of_class (isDecimalDigit_of_mem (List.mem_append.mpr hd)) (by decide)
    · decide
  | hexadecimal hs =>
    simp only [List.mem_cons, List.mem_append, List.not_mem_nil, or_false] at hd
    rcases hd with rfl | rfl | rfl | hd | rfl
    · decide
    · decide
    · decide
    · exact ne_of_class (isHexDigit_of_mem hs hd) (by decide)
    · decide

/-! ### One spelling of line breaks -/

open Text (unifyBreakChars)

lemma unify_cons {c : Char} {cs : List Char} (h : c ≠ '\r') :
    unifyBreakChars (c :: cs) = c :: unifyBreakChars cs := by
  rw [unifyBreakChars, if_neg h]
  rintro d rfl
  exact absurd rfl h

lemma unify_append {xs : List Char} (h : ∀ c ∈ xs, c ≠ '\r') (ys : List Char) :
    unifyBreakChars (xs ++ ys) = xs ++ unifyBreakChars ys := by
  induction xs with
  | nil => rfl
  | cons c xs ih =>
    rw [List.cons_append, unify_cons (h c (by simp)), ih (fun d hd => h d (by simp [hd]))]
    rfl

lemma unify_append_cons {c : Char} {xs ys : List Char} (h : c ≠ '\n') :
    unifyBreakChars (xs ++ c :: ys) = unifyBreakChars xs ++ unifyBreakChars (c :: ys) := by
  fun_induction unifyBreakChars xs with
  | case1 => rfl
  | case2 xs ih => simp [unifyBreakChars, ih]
  | case3 d xs hd ih =>
    by_cases hr : d = '\r'
    · subst hr
      cases xs with
      | nil => simp [unifyBreakChars, h]
      | cons e xs =>
        have he : e ≠ '\n' := fun he => hd xs rfl (by rw [he])
        rw [List.cons_append, List.cons_append] at *
        rw [unifyBreakChars, ih]
        · rfl
        · simp [he]
    · rw [List.cons_append, unify_cons hr, ih]
      simp [hr]

lemma unify_ne_nil {cs : List Char} (h : cs ≠ []) : unifyBreakChars cs ≠ [] := by
  fun_cases unifyBreakChars cs <;> simp_all

lemma mem_unify {c : Char} {cs : List Char} (h : c ∈ unifyBreakChars cs) : c ∈ cs ∨ c = '\n' := by
  fun_induction unifyBreakChars cs with
  | case1 => simp at h
  | case2 cs ih =>
    rcases List.mem_cons.mp h with rfl | h
    · exact Or.inr rfl
    · exact (ih h).imp_left (by simp +contextual)
  | case3 d cs _ ih =>
    rcases List.mem_cons.mp h with rfl | h
    · by_cases hd : d = '\r' <;> simp [hd]
    · exact (ih h).imp_left (by simp +contextual)

lemma IsSpace.unify {cs : List Char} (h : IsSpace cs) : IsSpace (unifyBreakChars cs) := by
  intro c hc
  rcases mem_unify hc with hc | rfl
  · exact h c hc
  · rfl

lemma IsPlain.unify {cs : List Char} (h : IsPlain cs) : IsPlain (unifyBreakChars cs) := by
  intro c hc
  rcases mem_unify hc with hc | rfl
  · exact h c hc
  · decide

lemma prefix_of_unify {mark cs : List Char} (hm : '\n' ∉ mark) (h : mark <+: unifyBreakChars cs) :
    mark <+: cs := by
  induction mark generalizing cs with
  | nil => exact List.nil_prefix
  | cons m mark ih =>
    simp only [List.mem_cons, not_or] at hm
    fun_cases unifyBreakChars cs with
    | case1 => simp [unifyBreakChars] at h
    | case2 cs =>
      rw [unifyBreakChars, List.cons_prefix_cons] at h
      exact absurd h.1.symm hm.1
    | case3 c cs hc =>
      rw [TuiMarkup.Text.unifyBreakChars.eq_3 _ _ hc, List.cons_prefix_cons] at h
      by_cases hr : c = '\r'
      · rw [if_pos hr] at h
        exact absurd h.1.symm hm.1
      · rw [if_neg hr] at h
        exact List.cons_prefix_cons.mpr ⟨h.1, ih hm.2 h.2⟩

lemma infix_of_unify {mark cs : List Char} (hm : '\n' ∉ mark) (h : mark <:+: unifyBreakChars cs) :
    mark <:+: cs := by
  fun_induction unifyBreakChars cs with
  | case1 => exact h
  | case2 cs ih =>
    rcases List.infix_cons_iff.mp h with h | h
    · have hp : mark <+: '\r' :: '\n' :: cs := prefix_of_unify hm h
      exact hp.isInfix
    · exact ((ih h).trans (List.infix_cons List.infix_rfl)).trans (List.infix_cons List.infix_rfl)
  | case3 c cs hc ih =>
    rcases List.infix_cons_iff.mp h with h | h
    · exact (prefix_of_unify hm (by rwa [TuiMarkup.Text.unifyBreakChars.eq_3 _ _ hc])).isInfix
    · exact (ih h).trans (List.infix_cons List.infix_rfl)

/-! ### Renderings under one spelling of line breaks

A part that neither begins nor ends in a line break keeps its neighbours apart. -/

def Solid (cs : List Char) : Prop :=
  ∃ c m d, cs = c :: (m ++ [d]) ∧ c ≠ '\r' ∧ c ≠ '\n' ∧ d ≠ '\r' ∧ d ≠ '\n'

lemma Solid.unify {cs : List Char} (h : Solid cs) (xs ys : List Char) :
    unifyBreakChars (xs ++ (cs ++ ys)) =
      unifyBreakChars xs ++ (unifyBreakChars cs ++ unifyBreakChars ys) := by
  obtain ⟨c, m, d, rfl, hcr, hcn, hdr, hdn⟩ := h
  have hs : c :: (m ++ [d]) ++ ys = c :: (m ++ d :: ys) := by simp
  rw [hs, unify_append_cons hcn, unify_cons hcr, unify_cons hcr, unify_append_cons hdn,
    unify_append_cons hdn, unify_cons hdr, unify_cons hdr]
  simp [Text.unifyBreakChars]

lemma IsName.ne_return {cs : List Char} (h : IsName cs) : ∀ c ∈ cs, c ≠ '\r' :=
  fun c hc => ne_of_class (h.isNamePart c hc) (by decide)

lemma isQuote_ne {q : Char} (h : isQuote q = true) : q ≠ '\r' ∧ q ≠ '\n' :=
  ⟨ne_of_class h (by decide), ne_of_class h (by decide)⟩

lemma AttributeText.solid {a : String × String} {text : List Char} (h : AttributeText a text) :
    Solid text := by
  obtain @⟨key, value, before, after, quote, parts, ⟨c, ds, hk, hc, _⟩, _, _, hq, _⟩ := h
  refine ⟨c, ds ++ (before ++ '=' :: (after ++ quote :: parts.flatten)), quote, ?_,
    ne_of_class hc (by decide), ne_of_class hc (by decide), isQuote_ne hq⟩
  simp [hk]

lemma AttributeText.unify {a : String × String} {text : List Char} (h : AttributeText a text) :
    AttributeText a (unifyBreakChars text) := by
  obtain @⟨key, value, before, after, quote, parts, hk, hb, ha, hq, hv⟩ := h
  have hp : ∀ c ∈ parts.flatten ++ [quote], c ≠ '\r' := by
    intro c hc
    rcases List.mem_append.mp hc with hc | hc
    · obtain ⟨part, hpart, hc⟩ := List.mem_flatten.mp hc
      obtain ⟨_, _, hs⟩ := forall₂_mem_left hv.flip hpart
      exact Spells.ne_return hs c hc
    · exact (List.mem_singleton.mp hc) ▸ (isQuote_ne hq).1
  have he : unifyBreakChars (parts.flatten ++ [quote]) = parts.flatten ++ [quote] := by
    have hu := Rendering.unify_append hp []
    simpa [Text.unifyBreakChars] using hu
  rw [unify_append hk.ne_return, unify_append_cons (by decide), unify_cons (by decide),
    unify_append_cons (isQuote_ne hq).2, unify_cons (isQuote_ne hq).1, he]
  exact .intro hk hb.unify ha.unify hq hv

lemma AttributesText.unify_append {as : List (String × String)} {text : List Char}
    (h : AttributesText as text) (ys : List Char) :
    unifyBreakChars (text ++ ys) = unifyBreakChars text ++ unifyBreakChars ys := by
  induction h with
  | nil => rfl
  | cons _ _ ht _ ih =>
    rw [List.append_assoc, List.append_assoc, ht.solid.unify, ht.solid.unify, ih]
    simp

lemma AttributesText.unify {as : List (String × String)} {text : List Char}
    (h : AttributesText as text) : AttributesText as (unifyBreakChars text) := by
  induction h with
  | nil => exact .nil
  | cons hn hs ht _ ih =>
    rw [ht.solid.unify]
    exact .cons (unify_ne_nil hn) hs.unify ht.unify ih

lemma HeadText.unify {name : String} {attributes : List (String × String)} {head : List Char}
    (h : HeadText name attributes head) : HeadText name attributes (unifyBreakChars head) := by
  obtain ⟨hn, hd, ht, hs⟩ := h
  rw [Rendering.unify_append hn.ne_return, ht.unify_append]
  exact .intro hn hd ht.unify hs.unify

lemma solid_of_angles {cs m : List Char} (h : cs = '<' :: (m ++ ['>'])) : Solid cs :=
  ⟨'<', m, '>', h, by decide, by decide, by decide, by decide⟩

lemma Aside.solid {cs : List Char} (h : Aside cs) : Solid cs := by
  cases h with
  | @comment body _ =>
    exact solid_of_angles (m := '!' :: '-' :: '-' :: (body ++ ['-', '-'])) (by simp)
  | @instruction target body _ _ =>
    exact solid_of_angles (m := '?' :: (target ++ (body ++ ['?']))) (by simp)

lemma Aside.unify {cs : List Char} (h : Aside cs) : Aside (unifyBreakChars cs) := by
  cases h with
  | comment hb =>
    have hm := mt (infix_of_unify (by decide)) hb
    simpa [unify_cons, unify_append_cons, Text.unifyBreakChars] using Aside.comment hm
  | instruction ht hb =>
    have hm := mt (infix_of_unify (by decide)) hb
    simpa [unify_cons, unify_append_cons, Rendering.unify_append ht.ne_return, Text.unifyBreakChars]
      using Aside.instruction ht hm

lemma Insert.solid {cs : List Char} (h : Insert cs) : Solid cs := by
  cases h with
  | aside h => exact h.solid
  | @cdata body _ =>
    refine solid_of_angles (m := '!' :: '[' :: 'C' :: 'D' :: 'A' :: 'T' :: 'A' :: '[' ::
      (body ++ [']', ']'])) (by simp)

lemma Insert.unify {cs : List Char} (h : Insert cs) : Insert (unifyBreakChars cs) := by
  cases h with
  | aside h => exact .aside h.unify
  | cdata hb =>
    have hm := mt (infix_of_unify (by decide)) hb
    simpa [unify_cons, unify_append_cons, Text.unifyBreakChars] using Insert.cdata hm

lemma Renders.solid {n : Outline} {cs : List Char} (h : Renders (.element n) cs) : Solid cs := by
  cases h with
  | @void _ _ head _ => exact solid_of_angles (m := head ++ ['/']) (by simp)
  | @full name _ _ head body space _ _ _ =>
    exact solid_of_angles (m := head ++ '>' :: (body ++ '<' :: '/' :: (name.toList ++ space)))
      (by simp)

lemma HeadText.isName {name : String} {attributes : List (String × String)} {head : List Char}
    (h : HeadText name attributes head) : IsName name.toList := by
  obtain ⟨hn, _, _, _⟩ := h
  exact hn

lemma HeadText.nodup {name : String} {attributes : List (String × String)} {head : List Char}
    (h : HeadText name attributes head) : (attributes.map Prod.fst).Nodup := by
  obtain ⟨_, hd, _, _⟩ := h
  exact hd

theorem Renders.unify {p : Part} {cs : List Char} (h : Renders p cs) :
    Renders p (unifyBreakChars cs) := by
  induction h with
  | void hh =>
    simpa [unify_cons, unify_append_cons, Text.unifyBreakChars] using Renders.void hh.unify
  | full hh _ hs ih =>
    simpa [unify_cons, unify_append_cons, Rendering.unify_append hh.isName.ne_return,
      Text.unifyBreakChars] using Renders.full hh.unify ih hs.unify
  | text ht => exact .text ht.unify
  | insert ht hi _ ih =>
    rw [hi.solid.unify]
    exact .insert ht.unify hi.unify ih
  | child ht he _ ihe ih =>
    rw [he.solid.unify]
    exact .child ht.unify ihe ih

lemma Surrounds.unify {cs : List Char} (h : Surrounds cs) : Surrounds (unifyBreakChars cs) := by
  induction h with
  | space hs => exact .space hs.unify
  | aside hs ha _ ih =>
    rw [ha.solid.unify]
    exact .aside hs.unify ha.unify ih

theorem DocumentText.unify {n : Outline} {cs : List Char} (h : DocumentText n cs) :
    DocumentText n (unifyBreakChars cs) := by
  obtain ⟨hb, he, ha⟩ := h
  rw [he.solid.unify]
  exact .intro hb.unify he.unify ha.unify

end TuiMarkup.Proofs.Rendering
