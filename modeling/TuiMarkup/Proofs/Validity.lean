import Mathlib.Tactic.Lemma
import TuiMarkup.Validation

/-! What is known of a document in which no error was found. -/

namespace TuiMarkup.Proofs.Validity

open Validation

variable {catalog : Catalog} {d : Document}

lemma mem_check (catalog : Catalog) (path : String) (seen : List String) {e : Element}
    {es : List Element} (he : e ∈ es) :
    ∃ seen', ∀ p ∈ elementProblems catalog seen' e,
      Diagnostic.of p path e.tag.line e.tag.column ∈ check catalog path seen es := by
  induction es generalizing seen with
  | nil => cases he
  | cons x es ih =>
    rw [check]
    rcases List.mem_cons.mp he with rfl | he
    · exact ⟨seen, fun p hp => List.mem_append_left _ (List.mem_map.mpr ⟨p, hp, rfl⟩)⟩
    · obtain ⟨seen', hs⟩ := ih (x.tag.explicitName?.toList ++ seen) he
      exact ⟨seen', fun p hp => List.mem_append_right _ (hs p hp)⟩

lemma exists_of_mem_check {path : String} {seen : List String} {es : List Element} {x : Diagnostic}
    (h : x ∈ check catalog path seen es) :
    ∃ e ∈ es, ∃ seen', ∃ p ∈ elementProblems catalog seen' e,
      x = Diagnostic.of p path e.tag.line e.tag.column := by
  induction es generalizing seen with
  | nil => cases h
  | cons e es ih =>
    rcases List.mem_append.mp h with h | h
    · obtain ⟨p, hp, rfl⟩ := List.mem_map.mp h
      exact ⟨e, List.mem_cons_self, seen, p, hp, rfl⟩
    · obtain ⟨e', he, hs⟩ := ih h
      exact ⟨e', List.mem_cons_of_mem _ he, hs⟩

lemma mem_validate {e : Element} {a : Attribute} {p : Problem} (he : e ∈ d.elements)
    (ha : a ∈ e.tag.attributes) (hp : p ∈ attributeProblems catalog e.tag.type a) :
    Diagnostic.of p d.path e.tag.line e.tag.column ∈ d.validate catalog := by
  obtain ⟨seen, hs⟩ := mem_check catalog d.path [] he
  apply hs p
  rw [elementProblems]
  apply List.mem_append_right
  exact List.mem_flatMap.mpr ⟨a, ha, hp⟩

def ErrorFree (catalog : Catalog) (d : Document) : Prop :=
  ∀ x ∈ d.validate catalog, x.isError = false

instance (catalog : Catalog) (d : Document) : Decidable (ErrorFree catalog d) :=
  inferInstanceAs (Decidable (∀ x ∈ d.validate catalog, x.isError = false))

theorem ErrorFree.known (h : ErrorFree catalog d) {e : Element} (he : e ∈ d.elements) :
    catalog.control? e.tag.type ≠ none := by
  intro hc
  obtain ⟨seen, hs⟩ := mem_check catalog d.path [] he
  have hp : .unknownControlType e.tag.type catalog.controlNames ∈
      elementProblems catalog seen e := by
    simp [elementProblems, hc]
  have hx := h _ (hs _ hp)
  cases hx

lemma read?_context (value : String) (context : Option String) :
    Binding.read? value context =
      (Binding.read? value none).map fun b =>
        { b with source := Binding.sourceOf b.path context } := by
  rw [Binding.read?, Binding.read?]
  cases (Text.afterStart? bindingOpening (Text.trim value)).bind
      (Text.beforeEnd? bindingClosing) with
  | none => rfl
  | some inner =>
    simp only [Option.bind_eq_bind, Option.bind_some]
    cases Text.pieces ',' (Text.trim inner) with
    | nil => rfl
    | cons first options =>
      dsimp only
      split <;> rfl

theorem ErrorFree.binding (h : ErrorFree catalog d) (context : Option String) {e : Element}
    {a : Attribute} (he : e ∈ d.elements) (ha : a ∈ e.tag.attributes) (hk : a.kind = .property)
    (hb : isBindingValue a.value = true) : ∃ b, Binding.read? a.value context = some b := by
  have hr : Binding.read? a.value none ≠ none := by
    intro hr
    have hp : .invalidBindingExpression (Text.trim a.value) ∈
        attributeProblems catalog e.tag.type a := by
      simp [attributeProblems, hk, propertyProblems, hb, hr]
    have hx := h _ (mem_validate he ha hp)
    cases hx
  obtain ⟨b, hb⟩ := Option.ne_none_iff_exists'.mp hr
  rw [read?_context, hb]
  exact ⟨_, rfl⟩

theorem ErrorFree.changeEvent (h : ErrorFree catalog d) {context : Option String} {e : Element}
    {a : Attribute} {b : Binding} (he : e ∈ d.elements) (ha : a ∈ e.tag.attributes)
    (hk : a.kind = .property) (hv : isBindingValue a.value = true)
    (hb : Binding.read? a.value context = some b) (hm : b.mode = .twoWay) :
    ∃ event, catalog.changeEvent? e.tag.type a.key = some event := by
  rw [read?_context] at hb
  obtain ⟨b', hb', rfl⟩ := Option.map_eq_some_iff.mp hb
  apply Option.ne_none_iff_exists'.mp
  intro hc
  have hp : .unsupportedTwoWayBinding e.tag.type a.key ∈
      attributeProblems catalog e.tag.type a := by
    have hs := Option.isSome_iff_ne_none.mpr (h.known he)
    simp_all [attributeProblems, propertyProblems]
  have hx := h _ (mem_validate he ha hp)
  cases hx

end TuiMarkup.Proofs.Validity
