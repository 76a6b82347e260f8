import Mathlib.Data.List.Forall2
import Mathlib.Data.List.Nodup
import TuiMarkup.Proofs.TreePlaces
import TuiMarkup.Proofs.Trimming
import TuiMarkup.Proofs.Validity

/-! Everything that is reported of a document, and nothing else. -/

namespace TuiMarkup.Proofs.ValidationReport

open Validation DocumentOrder Trimming Validity

/-! ### Reports -/

/-- The problem is reported once if the condition holds, and not at all otherwise. -/
inductive Reports (condition : Prop) (p : Problem) : List Problem → Prop
  | present : condition → Reports condition p [p]
  | absent : ¬ condition → Reports condition p []

def Unknown (catalog : Catalog) (type : String) : Prop :=
  catalog.control? type = none

def Closed (catalog : Catalog) (type : String) : Prop :=
  ∃ control, catalog.control? type = some control ∧ control.isContainer = false

inductive AttributeReport (catalog : Catalog) (type : String) (a : Attribute) :
    List Problem → Prop
  | reserved : a.kind = .reserved → AttributeReport catalog type a []
  | plain : a.kind = .property → isBindingValue a.value = false →
      AttributeReport catalog type a []
  | invalid : a.kind = .property → isBindingValue a.value = true →
      Binding.read? a.value none = none →
      AttributeReport catalog type a [.invalidBindingExpression (Text.trim a.value)]
  | bound {b : Binding} {ps : List Problem} : a.kind = .property →
      isBindingValue a.value = true → Binding.read? a.value none = some b →
      Reports (b.mode = .twoWay ∧ ¬ Unknown catalog type ∧ catalog.changeEvent? type a.key = none)
        (.unsupportedTwoWayBinding type a.key) ps →
      AttributeReport catalog type a ps
  | event {ps qs : List Problem} : a.kind = .event →
      Reports (¬ Unknown catalog type ∧ catalog.event? type a.key = none)
        (.unknownEvent type a.key) ps →
      Reports (IsBlank a.value) (.emptyEventHandler a.key) qs →
      AttributeReport catalog type a (ps ++ qs)

def names (es : List Element) : List String :=
  es.filterMap (·.tag.explicitName?)

inductive NameReport (earlier : List Element) (e : Element) : List Problem → Prop
  | unnamed : e.tag.explicitName? = none → NameReport earlier e []
  | named {name : String} {ps : List Problem} : e.tag.explicitName? = some name →
      Reports (name ∈ names earlier) (.duplicateName name) ps → NameReport earlier e ps

inductive StructureReport (catalog : Catalog) (earlier : List Element) (e : Element) :
    List Problem → Prop
  | fitting : ¬ Closed catalog e.tag.type → StructureReport catalog earlier e []
  | root : Closed catalog e.tag.type → earlier = [] →
      StructureReport catalog earlier e [.rootNotContainer e.tag.type]
  | inner {ps : List Problem} : Closed catalog e.tag.type → earlier ≠ [] →
      Reports (e.children ≠ []) (.childOfNonContainer e.tag.type) ps →
      StructureReport catalog earlier e ps

inductive ElementReport (catalog : Catalog) (earlier : List Element) (e : Element) :
    List Problem → Prop
  | intro {ps qs rs : List Problem} {pss : List (List Problem)} :
      Reports (Unknown catalog e.tag.type)
        (.unknownControlType e.tag.type catalog.controlNames) ps →
      NameReport earlier e qs → StructureReport catalog earlier e rs →
      List.Forall₂ (AttributeReport catalog e.tag.type) e.tag.attributes pss →
      ElementReport catalog earlier e (ps ++ qs ++ rs ++ pss.flatten)

/-- The reports of elements in turn, each with all elements before it. -/
inductive Report (catalog : Catalog) (path : String) :
    List Element → List Element → List Diagnostic → Prop
  | nil {earlier : List Element} : Report catalog path earlier [] []
  | cons {earlier es : List Element} {e : Element} {ps : List Problem} {ds : List Diagnostic} :
      ElementReport catalog earlier e ps → Report catalog path (earlier ++ [e]) es ds →
      Report catalog path earlier (e :: es)
        (ps.map (Diagnostic.of · path e.tag.line e.tag.column) ++ ds)

variable {condition test : Prop} {p : Problem} {ps : List Problem} {catalog : Catalog}
  {type path : String} {a : Attribute} {earlier es : List Element} {e : Element}
  {seen : List String} {ds : List Diagnostic}

/-! ### The checks -/

lemma reports_iff [Decidable test] (h : condition ↔ test) :
    Reports condition p ps ↔ ps = if test then [p] else [] := by
  constructor
  · intro hr
    cases hr with
    | present hc => rw [if_pos (h.mp hc)]
    | absent hc => rw [if_neg (mt h.mpr hc)]
  · rintro rfl
    split
    next ht => exact .present (h.mpr ht)
    next ht => exact .absent (mt h.mp ht)

lemma unknown_iff : Unknown catalog type ↔ (catalog.control? type).isNone = true :=
  Option.isNone_iff_eq_none.symm

lemma known_iff : ¬ Unknown catalog type ↔ (catalog.control? type).isSome = true :=
  Option.isSome_iff_ne_none.symm

lemma unsupported_iff {b : Binding} :
    (b.mode = .twoWay ∧ ¬ Unknown catalog type ∧ catalog.changeEvent? type a.key = none) ↔
      ((catalog.control? type).isSome && b.mode == .twoWay &&
        (catalog.changeEvent? type a.key).isNone) = true := by
  rw [known_iff, Bool.and_eq_true, Bool.and_eq_true, Option.isNone_iff_eq_none, beq_iff_eq,
    and_assoc, and_left_comm]

lemma unknownEvent_iff :
    (¬ Unknown catalog type ∧ catalog.event? type a.key = none) ↔
      ((catalog.control? type).isSome && (catalog.event? type a.key).isNone) = true := by
  rw [known_iff, Bool.and_eq_true, Option.isNone_iff_eq_none]

lemma attributeReport_iff :
    AttributeReport catalog type a ps ↔ ps = attributeProblems catalog type a := by
  constructor
  · intro h
    cases h with
    | reserved hk => simp only [attributeProblems, hk]
    | plain hk hv => simp [attributeProblems, hk, propertyProblems, hv]
    | invalid hk hv hb => simp [attributeProblems, hk, propertyProblems, hv, hb]
    | bound hk hv hb hr =>
      rw [(reports_iff unsupported_iff).mp hr]
      simp [attributeProblems, hk, propertyProblems, hv, hb]
    | event hk hu hb =>
      rw [(reports_iff unknownEvent_iff).mp hu, (reports_iff trim_eq_empty.symm).mp hb]
      simp only [attributeProblems, hk, eventProblems]
  · rintro rfl
    rw [attributeProblems]
    split
    next hk =>
      rw [propertyProblems]
      split
      next hv => exact .plain hk (by simpa using hv)
      next hv =>
        have hv' : isBindingValue a.value = true := by simpa using hv
        split
        next hb => exact .invalid hk hv' hb
        next b hb => exact .bound hk hv' hb ((reports_iff unsupported_iff).mpr rfl)
    next hk =>
      exact .event hk ((reports_iff unknownEvent_iff).mpr rfl)
        ((reports_iff trim_eq_empty.symm).mpr rfl)
    next hk => exact .reserved hk

lemma forall₂_iff_map {α β : Type} {r : α → β → Prop} {f : α → β} (h : ∀ x y, r x y ↔ y = f x)
    {xs : List α} {ys : List β} : List.Forall₂ r xs ys ↔ ys = xs.map f := by
  have hf : r = fun x y => f x = y := by
    funext x y
    exact propext ((h x y).trans eq_comm)
  rw [hf, ← List.forall₂_map_left_iff, List.forall₂_eq_eq_eq, eq_comm]

lemma attributeReports_iff {as : List Attribute} {pss : List (List Problem)} :
    List.Forall₂ (AttributeReport catalog type) as pss ↔
      pss = as.map (attributeProblems catalog type) := by
  apply forall₂_iff_map
  intro a ps
  exact attributeReport_iff

lemma nameReport_iff (hs : ∀ name, name ∈ seen ↔ name ∈ names earlier) :
    NameReport earlier e ps ↔
      ps = match e.tag.explicitName? with
        | some name => if seen.contains name then [.duplicateName name] else []
        | none => [] := by
  have hd : ∀ name, name ∈ names earlier ↔ seen.contains name = true := by
    intro name
    rw [List.contains_iff_mem, hs]
  constructor
  · intro h
    cases h with
    | unnamed hn => rw [hn]
    | @named name ps hn hr =>
      rw [hn]
      exact (reports_iff (hd name)).mp hr
  · rintro rfl
    split
    next name hn => exact .named hn ((reports_iff (hd name)).mpr rfl)
    next hn => exact .unnamed hn

lemma childReport_iff : Reports (e.children ≠ []) p ps ↔
    ps = if e.children.isEmpty then [] else [p] := by
  have hc : e.children ≠ [] ↔ ¬ e.children.isEmpty = true := not_congr List.isEmpty_iff.symm
  rw [reports_iff hc, ite_not]

lemma structureReport_iff (hi : e.tag.index = 0 ↔ earlier = []) :
    StructureReport catalog earlier e ps ↔
      ps = match catalog.control? e.tag.type with
        | some control => structureProblems e control
        | none => [] := by
  cases hc : catalog.control? e.tag.type with
  | none =>
    have hn : ¬ Closed catalog e.tag.type := by
      rintro ⟨control, hs, -⟩
      rw [hc] at hs
      cases hs
    constructor
    · intro h
      cases h with
      | fitting => rfl
      | root hk => exact absurd hk hn
      | inner hk => exact absurd hk hn
    · rintro rfl
      exact .fitting hn
  | some control =>
    have hk : Closed catalog e.tag.type ↔ control.isContainer = false := by
      simp [Closed, hc]
    dsimp only
    rw [structureProblems]
    constructor
    · intro h
      cases h with
      | fitting hn =>
        have ho : control.isContainer = true := by simpa [hk] using hn
        rw [if_pos ho]
      | root hk' hr => simp [hk.mp hk', hi.mpr hr]
      | inner hk' hr hc => simpa [hk.mp hk', mt hi.mp hr] using childReport_iff.mp hc
    · rintro rfl
      split
      next ho => exact .fitting (by simp [hk, ho])
      next ho =>
        have hk' : Closed catalog e.tag.type := hk.mpr (by simpa using ho)
        split
        next hr => exact .root hk' (hi.mp hr)
        next hr => exact .inner hk' (mt hi.mpr hr) (childReport_iff.mpr rfl)

lemma elementReport_iff (hs : ∀ name, name ∈ seen ↔ name ∈ names earlier)
    (hi : e.tag.index = 0 ↔ earlier = []) :
    ElementReport catalog earlier e ps ↔ ps = elementProblems catalog seen e := by
  rw [elementProblems, List.flatMap_def]
  constructor
  · rintro ⟨hu, hn, hk, ha⟩
    obtain rfl := (reports_iff unknown_iff).mp hu
    obtain rfl := (nameReport_iff hs).mp hn
    obtain rfl := (structureReport_iff hi).mp hk
    obtain rfl := attributeReports_iff.mp ha
    rfl
  · rintro rfl
    exact .intro ((reports_iff unknown_iff).mpr rfl) ((nameReport_iff hs).mpr rfl)
      ((structureReport_iff hi).mpr rfl) (attributeReports_iff.mpr rfl)

lemma names_concat (earlier : List Element) (e : Element) :
    names (earlier ++ [e]) = names earlier ++ e.tag.explicitName?.toList := by
  cases he : e.tag.explicitName? <;> simp [names, he]

theorem report_iff (hs : ∀ name, name ∈ seen ↔ name ∈ names earlier)
    (hi : (earlier ++ es).map (·.tag.index) = List.range (earlier ++ es).length) :
    Report catalog path earlier es ds ↔ ds = check catalog path seen es := by
  induction es generalizing earlier seen ds with
  | nil =>
    constructor
    · rintro ⟨⟩
      rfl
    · rintro rfl
      exact .nil
  | cons e es ih =>
    have he : e.tag.index = 0 ↔ earlier = [] := by
      have hn := congrArg (·[earlier.length]?) hi
      have hn' : e.tag.index = earlier.length := by simpa using hn
      rw [hn', List.length_eq_zero_iff]
    have hs' : ∀ name, name ∈ e.tag.explicitName?.toList ++ seen ↔
        name ∈ names (earlier ++ [e]) := by
      intro name
      rw [names_concat, List.mem_append, List.mem_append, hs, or_comm]
    have hi' : (earlier ++ [e] ++ es).map (·.tag.index) =
        List.range (earlier ++ [e] ++ es).length := by
      rwa [List.append_assoc, List.singleton_append]
    rw [check]
    constructor
    · rintro (_ | ⟨hp, hr⟩)
      rw [(elementReport_iff hs he).mp hp, (ih hs' hi').mp hr]
    · rintro rfl
      exact .cons ((elementReport_iff hs he).mpr rfl) ((ih hs' hi').mpr rfl)

/-! ### Errors -/

def Silent (ps : List Problem) : Prop :=
  ∀ p ∈ ps, p.code.severity ≠ .error

structure AttributeSound (catalog : Catalog) (type : String) (a : Attribute) : Prop where
  binding : a.kind = .property → isBindingValue a.value = true →
    ∃ b, Binding.read? a.value none = some b ∧
      (b.mode = .twoWay → catalog.changeEvent? type a.key ≠ none)
  handler : a.kind = .event → ¬ IsBlank a.value

def Fresh (earlier es : List Element) : Prop :=
  (names es).Nodup ∧ ∀ name ∈ names es, name ∉ names earlier

structure Sound (catalog : Catalog) (es : List Element) : Prop where
  known : ∀ e ∈ es, ¬ Unknown catalog e.tag.type
  distinct : (names es).Nodup
  attributes : ∀ e ∈ es, ∀ a ∈ e.tag.attributes, AttributeSound catalog e.tag.type a

lemma silent_append {qs : List Problem} : Silent (ps ++ qs) ↔ Silent ps ∧ Silent qs :=
  List.forall_mem_append

lemma Reports.silent_iff (h : Reports condition p ps) (hp : p.code.severity = .error) :
    Silent ps ↔ ¬ condition := by
  cases h with
  | present hc => simp [Silent, hp, hc]
  | absent hc => simp [Silent, hc]

lemma Reports.silent (h : Reports condition p ps) (hp : p.code.severity = .warning) :
    Silent ps := by
  cases h with
  | present => simp [Silent, hp]
  | absent => simp [Silent]

lemma AttributeReport.silent_iff (h : AttributeReport catalog type a ps)
    (hu : ¬ Unknown catalog type) : Silent ps ↔ AttributeSound catalog type a := by
  cases h with
  | reserved hk => exact iff_of_true (List.forall_mem_nil _) ⟨by simp [hk], by simp [hk]⟩
  | plain hk hv => exact iff_of_true (List.forall_mem_nil _) ⟨by simp [hv], by simp [hk]⟩
  | invalid hk hv hb =>
    refine iff_of_false (by simp [Silent, Problem.code, Code.severity]) fun hs => ?_
    obtain ⟨b, hb', -⟩ := hs.binding hk hv
    cases hb.symm.trans hb'
  | bound hk hv hb hr =>
    rw [hr.silent_iff rfl]
    constructor
    · intro hn
      exact ⟨fun _ _ => ⟨_, hb, fun hm hc => hn ⟨hm, hu, hc⟩⟩, by simp [hk]⟩
    · rintro hs ⟨hm, -, hc⟩
      obtain ⟨b, hb', hm'⟩ := hs.binding hk hv
      cases hb.symm.trans hb'
      exact hm' hm hc
  | event hk he hb =>
    rw [silent_append, and_iff_right (he.silent rfl), hb.silent_iff rfl]
    constructor
    · exact fun hn => ⟨by simp [hk], fun _ => hn⟩
    · exact fun hs => hs.handler hk

lemma attributes_silent_iff {as : List Attribute} {pss : List (List Problem)}
    (h : List.Forall₂ (AttributeReport catalog type) as pss) (hu : ¬ Unknown catalog type) :
    Silent pss.flatten ↔ ∀ a ∈ as, AttributeSound catalog type a := by
  induction h with
  | nil => simp [Silent]
  | cons ha _ ih =>
    rw [List.flatten_cons, silent_append, ha.silent_iff hu, ih, List.forall_mem_cons]

lemma NameReport.silent_iff (h : NameReport earlier e ps) :
    Silent ps ↔ ∀ name ∈ e.tag.explicitName?, name ∉ names earlier := by
  cases h with
  | unnamed hn => simp [Silent, hn]
  | named hn hr =>
    rw [hr.silent_iff rfl, hn]
    simp

lemma StructureReport.silent (h : StructureReport catalog earlier e ps) : Silent ps := by
  cases h with
  | fitting => exact List.forall_mem_nil _
  | root => simp [Silent, Problem.code, Code.severity]
  | inner _ _ hr => exact hr.silent rfl

lemma ElementReport.silent_iff (h : ElementReport catalog earlier e ps) :
    Silent ps ↔ ¬ Unknown catalog e.tag.type ∧
      (∀ name ∈ e.tag.explicitName?, name ∉ names earlier) ∧
      ∀ a ∈ e.tag.attributes, AttributeSound catalog e.tag.type a := by
  obtain ⟨hu, hn, hk, ha⟩ := h
  rw [silent_append, silent_append, silent_append, hu.silent_iff rfl, hn.silent_iff,
    and_iff_left hk.silent, and_assoc]
  -- Attributes are silent for reasons of their own only where the type is known.
  refine and_congr_right fun hu' => and_congr_right fun _ => ?_
  exact attributes_silent_iff ha hu'

lemma fresh_cons : Fresh earlier (e :: es) ↔
    (∀ name ∈ e.tag.explicitName?, name ∉ names earlier) ∧ Fresh (earlier ++ [e]) es := by
  rw [Fresh, Fresh, names_concat]
  cases he : e.tag.explicitName? with
  | none => simp [names, he]
  | some n =>
    have hn : names (e :: es) = n :: names es := by simp [names, he]
    rw [hn, List.nodup_cons, List.forall_mem_cons]
    constructor
    · rintro ⟨⟨hm, hd⟩, hf, ha⟩
      refine ⟨by simpa using hf, hd, ?_⟩
      intro name hname
      have hne : name ≠ n := fun h => hm (h ▸ hname)
      simp [ha name hname, hne]
    · rintro ⟨hf, hd, ha⟩
      refine ⟨⟨?_, hd⟩, by simpa using hf, ?_⟩
      · intro hm
        simpa using ha n hm
      · intro name hname hm
        exact ha name hname (List.mem_append_left _ hm)

theorem Report.silent_iff (h : Report catalog path earlier es ds) :
    (∀ x ∈ ds, x.isError = false) ↔
      (∀ e ∈ es, ¬ Unknown catalog e.tag.type) ∧ Fresh earlier es ∧
        ∀ e ∈ es, ∀ a ∈ e.tag.attributes, AttributeSound catalog e.tag.type a := by
  induction h with
  | nil => simp [Fresh, names]
  | @cons earlier es e ps ds hp _ ih =>
    have hd : (∀ x ∈ ps.map (Diagnostic.of · path e.tag.line e.tag.column), x.isError = false) ↔
        Silent ps := by
      simp [Silent, Diagnostic.of, Diagnostic.make, Diagnostic.isError]
    rw [List.forall_mem_append, hd, hp.silent_iff, ih, fresh_cons, List.forall_mem_cons,
      List.forall_mem_cons]
    tauto

/-! ### Places -/

lemma Report.exists_of_mem (h : Report catalog path earlier es ds) {x : Diagnostic} (hx : x ∈ ds) :
    ∃ e ∈ es, x.line = e.tag.line ∧ x.column = e.tag.column := by
  induction h with
  | nil => cases hx
  | cons _ _ ih =>
    rcases List.mem_append.mp hx with hx | hx
    · obtain ⟨p, -, rfl⟩ := List.mem_map.mp hx
      exact ⟨_, List.mem_cons_self, rfl, rfl⟩
    · obtain ⟨e, he, hp⟩ := ih hx
      exact ⟨e, List.mem_cons_of_mem _ he, hp⟩

theorem Report.sorted (h : Report catalog path earlier es ds)
    (ho : es.Pairwise fun x y =>
      x.tag.line < y.tag.line ∨ x.tag.line = y.tag.line ∧ x.tag.column < y.tag.column) :
    ds.Pairwise fun x y => x.line < y.line ∨ x.line = y.line ∧ x.column ≤ y.column := by
  induction h with
  | nil => exact .nil
  | @cons earlier es e ps ds _ hr ih =>
    obtain ⟨he, ho⟩ := List.pairwise_cons.mp ho
    refine List.pairwise_append.mpr ⟨?_, ih ho, ?_⟩
    · apply List.pairwise_map.mpr
      apply List.pairwise_of_forall
      intro _ _
      exact .inr ⟨rfl, le_rfl⟩
    · intro x hx y hy
      obtain ⟨p, -, rfl⟩ := List.mem_map.mp hx
      obtain ⟨e', he', hl, hc⟩ := hr.exists_of_mem hy
      rw [hl, hc]
      exact (he e' he').imp_right fun h => ⟨h.1, h.2.le⟩

section Documents

variable {reading : Catalog} {source : String} {d : Document}

lemma elements_placed (h : Document.read reading source path = .ok d) :
    ((preorder d.root).Pairwise fun x y =>
      x.tag.line < y.tag.line ∨ x.tag.line = y.tag.line ∧ x.tag.column < y.tag.column) ∧
    ∀ e ∈ preorder d.root, (e.tag.attributes.map (·.key)).Pairwise (· < ·) := by
  obtain ⟨ns, rest, -, ho, hf⟩ := TreePlaces.forms_of_root (Building.read_root h).1
  have hs := TreePlaces.starts_of_forms hf ho
  have hp := TreePlaces.placed_of_forms hf ho
  rw [preorderAll, preorderAll, List.append_nil] at hs hp
  refine ⟨?_, fun e he => (hp e he).keys⟩
  refine hs.imp_of_mem ?_
  intro x y hx hy hxy
  have hb := hxy.2
  rw [(hp x hx).line, (hp x hx).column, (hp y hy).line, (hp y hy).column]
  omega

/-- The diagnostics of a document are the reports of its elements and no others. They stand in the
order of their places, and the attributes of an element in the order of their keys. None of them is
an error exactly if the document is sound. -/
theorem validation_reported (catalog : Catalog)
    (h : Document.read reading source path = .ok d) :
    (∀ ds, Report catalog d.path [] (preorder d.root) ds ↔ ds = d.validate catalog) ∧
    (∀ e ∈ preorder d.root, (e.tag.attributes.map (·.key)).Pairwise (· < ·)) ∧
    ((d.validate catalog).Pairwise fun x y =>
      x.line < y.line ∨ x.line = y.line ∧ x.column ≤ y.column) ∧
    (ErrorFree catalog d ↔ Sound catalog (preorder d.root)) := by
  have hi := Building.read_indices (Building.read_root h).1
  have hr : ∀ ds, Report catalog d.path [] (preorder d.root) ds ↔ ds = d.validate catalog := by
    intro ds
    rw [Document.validate, elements_eq_preorder]
    exact report_iff (by simp [names]) hi
  obtain ⟨ho, hk⟩ := elements_placed h
  have hv := (hr _).mpr rfl
  refine ⟨hr, hk, hv.sorted ho, ?_⟩
  rw [ErrorFree, hv.silent_iff]
  constructor
  · rintro ⟨hu, hf, ha⟩
    exact ⟨hu, hf.1, ha⟩
  · rintro ⟨hu, hd, ha⟩
    exact ⟨hu, ⟨hd, by simp [names]⟩, ha⟩

end Documents

/-! Every problem that a check can find, in one document. -/

def kiosk : Catalog where
  controls := ⟨[("Button", ⟨"Button", false, false, false, false⟩),
    ("Label", ⟨"Label", false, false, false, false⟩)]⟩
  eventNames := ["Accepting"]

def faulty : String :=
  "<Label x:Class='A'>\n<Odd Text='\x7bBind 1\x7d'/><Button Text='\x7bBind T, Mode=TwoWay\x7d'/>" ++
    "<Label x:Name='n'/>\n<Button x:Name=' n'><Label Accepting=' '/></Button></Label>"

def faults : List (Code × Nat × Nat) :=
  [(.rootNotContainer, 1, 2), (.unknownControlType, 2, 2), (.invalidBindingExpression, 2, 2),
    (.unsupportedTwoWayBinding, 2, 24), (.duplicateName, 3, 2), (.childOfNonContainer, 3, 2),
    (.unknownEvent, 3, 22), (.emptyEventHandler, 3, 22)]

theorem validation_reported_faulty :
    ∃ d, Document.read kiosk faulty "m" = .ok d ∧
      (d.validate kiosk).map (fun x => (x.code, x.line, x.column)) = faults ∧
      Report kiosk d.path [] (preorder d.root) (d.validate kiosk) ∧
      ¬ Sound kiosk (preorder d.root) := by
  have hr : (Document.read kiosk faulty "m").toOption.map (fun d =>
      (decide (ErrorFree kiosk d), (d.validate kiosk).map fun x => (x.code, x.line, x.column))) =
        some (false, faults) := by
    decide +kernel
  cases hd : Document.read kiosk faulty "m" with
  | error x =>
    rw [hd] at hr
    cases hr
  | ok d =>
    rw [hd] at hr
    obtain ⟨he, hc⟩ := Prod.mk.inj (Option.some.inj hr)
    obtain ⟨hv, -, -, hs⟩ := validation_reported kiosk hd
    exact ⟨d, rfl, hc, (hv _).mpr rfl, mt hs.mpr (of_decide_eq_false he)⟩

end TuiMarkup.Proofs.ValidationReport
