import Mathlib.Tactic.Lemma
import TuiMarkup.Proofs.Building
import TuiMarkup.Proofs.Policy
import TuiMarkup.Proofs.Validity

/-! Writing the code of a document cannot fail, and no report tells of a failure within. -/

namespace TuiMarkup.Proofs.Emission

open Markup Building ClassText Slots Generation Validity Policy

variable {catalog : Catalog} {source path : String} {d : Document}

/-! ### Reading -/

lemma build_root {b : Builder} {t : Token} (ts : List Token) (ht : t.content = .eof)
    (hf : (Tree.build catalog b (ts ++ [t])).fault = none) :
    (Tree.build catalog b (ts ++ [t])).root ≠ none := by
  induction ts generalizing b with
  | nil =>
    rw [List.nil_append, Tree.build] at hf ⊢
    split at hf
    next b' hn =>
      obtain ⟨rfl, -, -, hr⟩ := (moves_of_next hn).of_eof ht
      exact hr
    · cases hf
  | cons s ts ih =>
    rw [List.cons_append, Tree.build] at hf ⊢
    split at hf
    · exact ih hf
    · cases hf

lemma tokens_end (source : String) :
    ∃ ts t, (tokenize source).tokens = ts ++ [t] ∧ t.content = .eof := by
  rw [tokenize, Scan.tokens]
  cases (scan .content (Text.unifyBreakChars source.toList)).failure <;> exact ⟨_, _, rfl, rfl⟩

theorem root_of_no_fault (h : (Tree.read catalog source).fault = none) :
    ∃ e, (Tree.read catalog source).root = some e := by
  apply Option.ne_none_iff_exists'.mp
  rw [Tree.read] at h ⊢
  split at h
  · cases h
  · obtain ⟨ts, t, hs, ht⟩ := tokens_end source
    rw [hs] at h ⊢
    exact build_root ts ht h

theorem read_error_code {x : Diagnostic} (h : Document.read catalog source path = .error x) :
    x.code = .emptyDocument ∨ x.code = .malformedMarkup ∨ x.code = .missingClassName := by
  rw [Document.read] at h
  split at h
  · cases h
    exact .inl rfl
  · dsimp only at h
    split at h
    · cases h
      exact .inr (.inl rfl)
    next hf =>
      obtain ⟨e, hr⟩ := root_of_no_fault hf
      rw [hr] at h
      dsimp only at h
      rw [Document.ofRoot] at h
      split at h
      · cases h
        exact .inr (.inr rfl)
      · cases h

/-! ### Slots -/

lemma slot_at_index (catalog : Catalog) {reading : Catalog} {t : Tag}
    (h : Document.read reading source path = .ok d) (ht : t ∈ d.tags) :
    ∃ s, (Fields.build catalog d).slots[t.index]? = some s ∧ s.index = t.index ∧
      (Fields.build catalog d).slot t.index = .ok s := by
  have hi := document_indices h
  obtain ⟨i, hg⟩ := List.mem_iff_getElem?.mp ht
  have hx : t.index = i := by
    obtain ⟨hl, -⟩ := List.getElem?_eq_some_iff.mp hg
    have hm : (d.tags.map (·.index))[i]? = (List.range d.tags.length)[i]? := by rw [hi]
    rw [List.getElem?_map, hg, List.getElem?_range hl] at hm
    exact Option.some.inj hm
  obtain ⟨field, hf⟩ := slots_getElem? catalog hg
  have hn : ((Fields.build catalog d).slots.map (·.index)).Nodup := by
    rw [slots_indices, hi]
    exact List.nodup_range
  refine ⟨_, hx ▸ hf, rfl, ?_⟩
  exact slot_unique hn (List.mem_of_getElem? hf)

/-! ### Reports -/

def Inner (c : Code) : Prop :=
  c = .parseError ∨ c = .unknownControlTypeInGeneration

lemma not_inner_of_mem_ite {c : Prop} [Decidable c] {p q : Problem}
    (h : p ∈ if c then [q] else []) (hq : ¬ Inner q.code) : ¬ Inner p.code := by
  split at h
  · cases List.mem_singleton.mp h
    exact hq
  · cases h

lemma attribute_code {type : String} {a : Attribute} {p : Problem}
    (h : p ∈ Validation.attributeProblems catalog type a) : ¬ Inner p.code := by
  rw [Validation.attributeProblems] at h
  split at h
  · rw [Validation.propertyProblems] at h
    split at h
    · cases h
    · split at h
      · cases List.mem_singleton.mp h
        simp [Inner, Problem.code]
      · exact not_inner_of_mem_ite h (by simp [Inner, Problem.code])
  · rcases List.mem_append.mp h with h | h
    · exact not_inner_of_mem_ite h (by simp [Inner, Problem.code])
    · exact not_inner_of_mem_ite h (by simp [Inner, Problem.code])
  · cases h

lemma structure_code {e : Element} {control : Control} {p : Problem}
    (h : p ∈ Validation.structureProblems e control) : ¬ Inner p.code := by
  rw [Validation.structureProblems] at h
  split at h
  · cases h
  · split at h
    · cases List.mem_singleton.mp h
      simp [Inner, Problem.code]
    · split at h
      · cases h
      · cases List.mem_singleton.mp h
        simp [Inner, Problem.code]

lemma element_code {seen : List String} {e : Element} {p : Problem}
    (h : p ∈ Validation.elementProblems catalog seen e) : ¬ Inner p.code := by
  simp only [Validation.elementProblems, List.mem_append] at h
  rcases h with ((h | h) | h) | h
  · exact not_inner_of_mem_ite h (by simp [Inner, Problem.code])
  · split at h
    · exact not_inner_of_mem_ite h (by simp [Inner, Problem.code])
    · cases h
  · split at h
    · exact structure_code h
    · cases h
  · obtain ⟨a, _, h⟩ := List.mem_flatMap.mp h
    exact attribute_code h

lemma validate_code {x : Diagnostic} (h : x ∈ d.validate catalog) : ¬ Inner x.code := by
  obtain ⟨e, _, seen, p, hp, rfl⟩ := exists_of_mem_check h
  exact element_code hp

lemma reported_code {options : Options} {x : Diagnostic} (h : x ∈ reported catalog options d) :
    ¬ Inner x.code := by
  rw [reported] at h
  split at h
  · obtain ⟨y, hy, rfl⟩ := List.mem_map.mp h
    have hc := validate_code hy
    exact hc
  · exact validate_code h

lemma errorFree_of_reported {options : Options}
    (h : (reported catalog options d).any (·.isError) = false) : ErrorFree catalog d := by
  intro x hx
  rw [reported] at h
  split at h
  · have hr := List.any_eq_false.mp h x.raised (List.mem_map.mpr ⟨x, hx, rfl⟩)
    exact absurd rfl hr
  · simpa using List.any_eq_false.mp h x hx

lemma fields_diagnostics (h : ErrorFree catalog d) : Fields.diagnostics catalog d = [] := by
  have hk : ∀ t ∈ d.tags, (catalog.outputType? t.type t.genericArgument?).isNone = false := by
    intro t ht
    obtain ⟨e, he, rfl⟩ := List.mem_map.mp ht
    rw [Catalog.outputType?, Option.isNone_map]
    exact Option.isNone_eq_false_iff.mpr (Option.isSome_iff_ne_none.mpr (h.known he))
  rw [Fields.diagnostics, List.filter_eq_nil_iff.mpr fun t ht => by simp [hk t ht]]
  rfl

lemma initializer_code {x : Diagnostic} (h : x ∈ Initializer.diagnostics catalog d) :
    ¬ Inner x.code := by
  rw [Plan.diagnostics_eq] at h
  obtain ⟨t, _, h⟩ := List.mem_flatMap.mp h
  obtain ⟨p, hp, rfl⟩ := List.mem_map.mp h
  rcases List.mem_append.mp hp with hp | hp
  · obtain ⟨⟨a, l⟩, _, hl⟩ := List.mem_filterMap.mp hp
    obtain ⟨expected, _, rfl⟩ := Option.map_eq_some_iff.mp hl
    simp [Inner, Diagnostic.of, Diagnostic.make, Problem.code]
  · obtain ⟨a, _, he⟩ := List.mem_filterMap.mp hp
    obtain ⟨e, _, rfl⟩ := Option.map_eq_some_iff.mp he
    simp [Inner, Diagnostic.of, Diagnostic.make, Problem.code]

theorem compile_code (catalog : Catalog) (resolver : TypeResolver) (options : Options)
    (source path : String) {x : Diagnostic}
    (h : x ∈ (compile catalog resolver options source path).diagnostics) : ¬ Inner x.code := by
  cases hr : Document.read catalog source path with
  | error y =>
    rw [compile_error hr] at h
    cases List.mem_singleton.mp h
    rcases read_error_code hr with hc | hc | hc <;> simp [Inner, hc]
  | ok d =>
    rw [compile_ok hr] at h
    split at h
    · exact reported_code h
    next hf =>
      obtain ⟨text, he⟩ := emit_eq catalog resolver options d (reported catalog options d)
      have hv := errorFree_of_reported (Bool.eq_false_iff.mpr hf)
      rw [he, Document.generationDiagnostics, fields_diagnostics hv, List.nil_append] at h
      rcases List.mem_append.mp h with h | h
      · exact reported_code h
      · exact initializer_code h

/-- Code can be written for every document that was read, whatever was found in it: all of its
elements have their slots, and every indent that is made is taken back. The text is there for every
width that leaves room for it. So no compilation reports a fault of its own, nor an unknown type that
the checks let through. -/
theorem emission_cannot_fault (catalog : Catalog) :
    (∀ reading source path d, Document.read reading source path = .ok d →
      (∀ t ∈ d.tags, ∃ s, (Fields.build catalog d).slots[t.index]? = some s ∧ s.index = t.index ∧
        (Fields.build catalog d).slot t.index = .ok s) ∧
      ∀ context, ∃ c, ClassFile.ofDocument catalog d context = .ok c ∧
        (∀ p : Page, p.indent.toNat + 5 < 2 ^ 64 → ∃ q, c.print p = .ok q ∧ q.indent = p.indent) ∧
        (∀ width fault, d.generate catalog context width ≠ .error fault) ∧
        ∃ lines : List (ℕ × String), (∀ l ∈ lines, l.1 ≤ 5) ∧ ∀ width, 5 * width < 2 ^ 63 →
          d.generate catalog context width = .ok ("\n".intercalate (lines.map fun l =>
            if l.2 = "" then "" else Text.blanks (l.1 * width) ++ l.2))) ∧
    ∀ resolver options source path,
      .parseError ∉ (compile catalog resolver options source path).diagnostics.map (·.code) ∧
      .unknownControlTypeInGeneration ∉
        (compile catalog resolver options source path).diagnostics.map (·.code) := by
  refine ⟨fun reading source path d hd => ⟨fun t ht => slot_at_index catalog hd ht, ?_⟩, ?_⟩
  · intro context
    have hg := generate_eq catalog d context
    obtain ⟨lines, hl, ht⟩ := textOf_of_fits (classOf catalog d context)
    refine ⟨classOf catalog d context, ofDocument_eq catalog d context,
      fun p hp => print_balanced _ hp, fun width fault => ?_, lines, hl, fun width hw => ?_⟩
    · intro hf
      rw [hg] at hf
      cases hf
    · rw [hg, ht width hw]
  · intro resolver options source path
    constructor
    all_goals
      intro hm
      obtain ⟨x, hx, hc⟩ := List.mem_map.mp hm
      apply compile_code catalog resolver options source path hx
      simp [Inner, hc]

def stray : String :=
  "<Odd x:Class='M'><Gizmo Text='\x7bBind 1\x7d'/><Label Text='\x7bBind A.B\x7d'/></Odd>"

theorem emission_cannot_fault_stray :
    ∃ d, Document.read {} stray "m" = .ok d ∧ (d.validate {}).any (·.isError) = true ∧
      (∃ t ∈ d.tags, t.index = 1 ∧ ∃ s, (Fields.build {} d).slots[t.index]? = some s ∧
        s.index = t.index ∧ (Fields.build {} d).slot t.index = .ok s) ∧
      (∃ c, ClassFile.ofDocument {} d (some "Model") = .ok c ∧
        (∃ q, c.print (Page.new 3) = .ok q ∧ q.indent = 3) ∧
        ∃ text, d.generate {} (some "Model") 2 = .ok text) ∧
      .parseError ∉ (compile {} (fun _ _ => none) {} stray "m").diagnostics.map (·.code) := by
  have h := emission_cannot_fault {}
  have hr : (Document.read {} stray "m").toOption.map (fun d =>
      ((d.validate {}).any (·.isError), d.tags.map (·.index))) = some (true, [0, 1, 2]) := by
    decide +kernel
  cases hd : Document.read {} stray "m" with
  | error _ =>
    rw [hd] at hr
    cases hr
  | ok d =>
    rw [hd] at hr
    obtain ⟨he, hi⟩ := Prod.mk.inj (Option.some.inj hr)
    obtain ⟨hs, hg⟩ := h.1 {} stray "m" d hd
    have hm : 1 ∈ d.tags.map (·.index) := by simp [hi]
    obtain ⟨t, ht, hx⟩ := List.mem_map.mp hm
    obtain ⟨c, hc, hp, _, lines, _, ho⟩ := hg (some "Model")
    exact ⟨d, rfl, he, ⟨t, ht, hx, hs t ht⟩, ⟨c, hc, hp (Page.new 3) (by decide), _, ho 2 (by decide)⟩,
      (h.2 (fun _ _ => none) {} stray "m").1⟩

end TuiMarkup.Proofs.Emission
