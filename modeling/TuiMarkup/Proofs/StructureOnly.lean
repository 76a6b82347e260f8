import Mathlib.Data.List.TakeWhile
import Mathlib.Tactic.Lemma
import TuiMarkup.Proofs.Emission
import TuiMarkup.Proofs.Placeless
import TuiMarkup.Proofs.RoundTrip
import TuiMarkup.Proofs.TokenStructure

/-! Code and reports depend on the structure of the markup only. -/

namespace TuiMarkup.Proofs.StructureOnly

open Markup DocumentOrder Building TokenStructure Placeless

variable {catalog : Catalog} {b b' : Builder} {t : Token} {e e' : Element} {source path : String}

/-! ### Attributes of a tree that was read -/

structure Tidy (catalog : Catalog) (t : Tag) : Prop where
  sorted : (t.attributes.map (·.key)).Pairwise (· < ·)
  kinds : ∀ a ∈ t.attributes, a.kind = .of catalog a.key a.value

def keys : Place → List String
  | .content => []
  | .tag start | .attribute start _ _ => start.attributes.map (·.key)

structure Neat (catalog : Catalog) (b : Builder) : Prop where
  numbered : Numbered b
  distinct : (keys b.place).Nodup
  tidy : ∀ t ∈ begun b, Tidy catalog t

lemma keys_moves (hm : Moves catalog b t b') (h : (keys b.place).Nodup) :
    (keys b'.place).Nodup := by
  cases hm with
  | skip => exact h
  | start | enter => exact List.nodup_nil
  | close hp _ _ =>
    rw [add_place]
    exact h
  | name hp _ =>
    rw [hp] at h
    exact h
  | value hp _ hk =>
    rw [hp] at h
    simp only [keys, List.map_append, List.nodup_append]
    refine ⟨h, List.nodup_singleton _, ?_⟩
    rintro a ha _ hb rfl
    cases List.mem_singleton.mp hb
    exact hk ha
  | void =>
    rw [add_place]
    exact List.nodup_nil

lemma neat_moves (hm : Moves catalog b t b') (h : Neat catalog b) : Neat catalog b' := by
  refine ⟨hm.numbered h.numbered, keys_moves hm h.distinct, ?_⟩
  rcases hm.begun_eq h.numbered with ⟨hb, -⟩ | ⟨start, hp, -, hb⟩
  · rw [hb]
    exact h.tidy
  · have hd : ((start.attributes.map fun a => (a.key, a.value)).map Prod.fst).Nodup := by
      simpa [keys, hp, Function.comp_def] using h.distinct
    have ht : RoundTrip.TagOf catalog start.name _ _ :=
      RoundTrip.tagOf_makeTag rfl hd b.count t.span.stop
    rw [hb]
    intro t' hm
    rcases List.mem_append.mp hm with hm | hm
    · exact h.tidy t' hm
    · cases List.mem_singleton.mp hm
      exact ⟨ht.sorted, ht.kinds⟩

theorem read_tidy (h : (Tree.read catalog source).root = some e) :
    ∀ x ∈ preorder e, Tidy catalog x.tag := by
  rw [Tree.read] at h
  split at h
  · cases h
  · have hn : Neat catalog {} := ⟨numbered_empty, List.nodup_nil, fun _ ht => by cases ht⟩
    obtain ⟨b, hb, hr⟩ := build_invariant neat_moves (tokenize source).tokens hn
    rw [hr] at h
    have hs := hb.numbered.single (by simp [h])
    intro x hx
    have ht : heading x.tag ∈ begun b := by
      simpa [begun, h, hs, headings, preorderAll] using ⟨x, hx, rfl⟩
    have hx := hb.tidy _ ht
    exact ⟨hx.sorted, hx.kinds⟩

/-! ### Trees with the same sketch -/

lemma attributes_bare {t t' : Tag} (ht : Tidy catalog t) (ht' : Tidy catalog t')
    (h : attributesOf t = attributesOf t') :
    t.attributes.map bareAttribute = t'.attributes.map bareAttribute := by
  have hb : ∀ {t : Tag}, Tidy catalog t → t.attributes.map bareAttribute =
      (t.attributes.map fun a => (a.key, a.value)).map
        fun p => ⟨p.1, p.2, .of catalog p.1 p.2, nowhere⟩ := by
    intro t ht
    rw [List.map_map]
    refine List.map_congr_left fun a ha => ?_
    rw [bareAttribute, ht.kinds a ha]
    rfl
  have hs : ∀ {t : Tag}, Tidy catalog t →
      (t.attributes.map fun a => (a.key, a.value)).Pairwise fun p q => p.1 < q.1 := by
    intro t ht
    rw [List.pairwise_map]
    exact List.pairwise_map.mp ht.sorted
  -- Keys in order leave no choice for the order of the attributes.
  have he := (Multiset.coe_eq_coe.mp h).eq_of_pairwise
    (fun p q _ _ hp hq => absurd hq (String.lt_asymm hp)) (hs ht) (hs ht')
  rw [hb ht, hb ht', he]

lemma bareAll_eq {es es' : List Element}
    (ih : ∀ c ∈ es, ∀ c', sketch c = sketch c' → (∀ x ∈ preorder c, Tidy catalog x.tag) →
      (∀ x ∈ preorder c', Tidy catalog x.tag) → bare c = bare c')
    (h : sketchAll es = sketchAll es') (ht : ∀ x ∈ preorderAll es, Tidy catalog x.tag)
    (ht' : ∀ x ∈ preorderAll es', Tidy catalog x.tag) : bareAll es = bareAll es' := by
  induction es generalizing es' with
  | nil =>
    cases es' with
    | nil => rfl
    | cons c' cs' => cases h
  | cons c cs ihs =>
    cases es' with
    | nil => cases h
    | cons c' cs' =>
      rw [sketchAll, sketchAll] at h
      injection h with hc hcs
      obtain ⟨hic, hics⟩ := List.forall_mem_cons.mp ih
      obtain ⟨hx, hxs⟩ := List.forall_mem_append.mp ht
      obtain ⟨hx', hxs'⟩ := List.forall_mem_append.mp ht'
      rw [bareAll, bareAll, hic c' hc hx hx', ihs hics hcs hxs hxs']

theorem bare_eq (h : sketch e = sketch e') (ht : ∀ x ∈ preorder e, Tidy catalog x.tag)
    (ht' : ∀ x ∈ preorder e', Tidy catalog x.tag) : bare e = bare e' := by
  induction e using element_induction generalizing e' with
  | h tag children ih =>
    obtain ⟨tag', children'⟩ := e'
    rw [sketch, sketch] at h
    injection h with hi hty ha hc
    obtain ⟨htag, hch⟩ := List.forall_mem_cons.mp ht
    obtain ⟨htag', hch'⟩ := List.forall_mem_cons.mp ht'
    rw [bare, bare, bareTag, bareTag, hi, hty, attributes_bare htag htag' ha,
      bareAll_eq (fun c hm c' => ih c hm) hc hch hch']

/-! ### Documents -/

lemma isBlank_of_trim (h : Text.trim source = "") : ∀ c ∈ source.toList, Text.isBlank c = true := by
  have ht : Text.trimChars source.toList = [] := by
    simpa [Text.trim] using congrArg String.toList h
  rw [Text.trimChars, Text.trimEndChars, List.reverse_eq_nil_iff, List.dropWhile_eq_nil_iff] at ht
  intro c hc
  rw [← List.takeWhile_append_dropWhile (p := Text.isBlank) (l := source.toList)] at hc
  rcases List.mem_append.mp hc with hc | hc
  · exact List.mem_takeWhile_imp hc
  · exact ht c (List.mem_reverse.mpr hc)

lemma scan_plain {cs : List Char} (h : Rendering.IsPlain cs) :
    scan .content cs = ⟨[], none⟩ ∨
      ∃ value text, scan .content cs = ⟨[.token (.text value) text], none⟩ := by
  have hnil : scan .content [] = ⟨[], none⟩ := by
    rw [scan, dif_pos ⟨rfl, rfl⟩]
  cases cs with
  | nil => exact .inl hnil
  | cons c cs =>
    have hr := Spelling.run_plain h (.inl rfl)
    rw [List.append_nil] at hr
    have hs : step .content (c :: cs) =
        .read (.token (.text (String.ofList (c :: cs))) (c :: cs)) .content [] := by
      rw [step, RoundTrip.contentStep_text (h c (.head _)).1, textStep, hr]
    refine .inr ⟨String.ofList (c :: cs), c :: cs, ?_⟩
    rw [Reading.scan_read (fun _ => List.cons_ne_nil c cs) hs, hnil]
    rfl

lemma structureOf_blank (h : Text.trim source = "") : structureOf source = [.eof] := by
  have hp : Rendering.IsPlain source.toList := by
    intro c hc
    have hb := isBlank_of_trim h c hc
    constructor <;> rintro rfl <;> exact absurd hb (by decide)
  rw [structureOf, tokenize]
  obtain hs | ⟨value, text, hs⟩ := scan_plain hp.unify
  · rw [hs]
    rfl
  · rw [hs]
    rfl

lemma trim_ne_empty (h : (Tree.read catalog source).fault = none) : Text.trim source ≠ "" := by
  intro hb
  obtain ⟨e, he⟩ := Emission.root_of_no_fault h
  have hs := read_sketch h
  rw [he, structureOf_blank hb] at hs
  cases hs

lemma read_eq (h : (Tree.read catalog source).fault = none)
    (hr : (Tree.read catalog source).root = some e) (path : String) :
    Document.read catalog source path = Document.ofRoot e path := by
  rw [Document.read, if_neg (trim_ne_empty h)]
  simp only [h, hr]

lemma compile_bare (h : bare e = bare e') {source' path' : String}
    (hr : Document.read catalog source path = Document.ofRoot e path)
    (hr' : Document.read catalog source' path' = Document.ofRoot e' path')
    (resolver : TypeResolver) (options : Options) :
    view (compile catalog resolver options source path) =
      view (compile catalog resolver options source' path') := by
  have ha : ∀ key, e.tag.attribute? key = e'.tag.attribute? key := by
    intro key
    rw [← attribute?_bareTag, ← bare_tag, h, bare_tag, attribute?_bareTag]
  rw [Document.ofRoot] at hr hr'
  rw [← ha, ← ha] at hr'
  cases hc : (e.tag.attribute? "x:Class").bind Text.trimmed? with
  | none =>
    rw [hc] at hr hr'
    rw [Policy.compile_error hr, Policy.compile_error hr']
    rfl
  | some className =>
    rw [hc] at hr hr'
    rw [Policy.compile_ok hr, Policy.compile_ok hr']
    change view (judged catalog resolver options _) = view (judged catalog resolver options _)
    rw [judged_bare, judged_bare catalog resolver options ⟨e', _, _, _⟩]
    simp only [bareDocument, h]

/-- Two texts whose tokens have the same structure, up to the order of attributes, are compiled to
the same code, and what is reported differs in places only. -/
theorem structure_only {source source' : String}
    (h : (Tree.read catalog source).fault = none) (h' : (Tree.read catalog source').fault = none)
    (hr : Rearranged (structureOf source) (structureOf source')) (resolver : TypeResolver)
    (options : Options) (path path' : String) :
    (compile catalog resolver options source path).generated =
        (compile catalog resolver options source' path').generated ∧
      (compile catalog resolver options source path).diagnostics.map gist =
        (compile catalog resolver options source' path').diagnostics.map gist := by
  obtain ⟨e, he⟩ := Emission.root_of_no_fault h
  obtain ⟨e', he'⟩ := Emission.root_of_no_fault h'
  have hs : sketch e = sketch e' := by
    have hs := (read_sketch h).trans ((congrArg Draft.root (foldl_rearranged hr {})).trans
      (read_sketch h').symm)
    rw [he, he'] at hs
    exact Option.some.inj hs
  have hb := bare_eq hs (read_tidy he) (read_tidy he')
  have hv := compile_bare hb (read_eq h he path) (read_eq h' he' path') resolver options
  rw [view, view, Prod.mk.injEq] at hv
  exact hv

theorem structure_only_window :
    let catalog : Catalog := { controls := ⟨[("Window", { outputType := "W" })]⟩ }
    (compile catalog (fun _ _ => none) {} "<Window x:Class='A' X='1'/>" "a").generated =
        (compile catalog (fun _ _ => none) {} "<u:Window X='1'\n x:Class='A'> <!-- --></u:Window>"
          "b").generated ∧
      (compile catalog (fun _ _ => none) {} "<Window x:Class='A' X='1'/>" "a").diagnostics.map gist =
        (compile catalog (fun _ _ => none) {} "<u:Window X='1'\n x:Class='A'> <!-- --></u:Window>"
          "b").diagnostics.map gist := by
  intro catalog
  have hs : structureOf "<Window x:Class='A' X='1'/>" =
      .tagStart "Window" :: (pairs [("x:Class", "A"), ("X", "1")] ++
        [.tagEnd, .tagClose "Window", .eof]) := by decide +kernel
  have hs' : structureOf "<u:Window X='1'\n x:Class='A'> <!-- --></u:Window>" =
      .tagStart "Window" :: (pairs [("X", "1"), ("x:Class", "A")] ++
        [.tagEnd, .tagClose "Window", .eof]) := by decide +kernel
  refine structure_only (by decide +kernel) (by decide +kernel) ?_ _ _ _ _
  rw [hs, hs']
  exact .tag (List.Perm.swap ..) (.cons _ (.cons _ (.cons _ .nil)))

end TuiMarkup.Proofs.StructureOnly
