import Mathlib.Data.List.Forall2
import Mathlib.Data.List.Nodup
import Mathlib.Tactic.Lemma
import TuiMarkup.Proofs.BindingWiring
import TuiMarkup.Proofs.Emission
import TuiMarkup.Proofs.FieldNames
import TuiMarkup.Proofs.TerminalGui
import TuiMarkup.Proofs.ValidationReport

/-!
The names of the methods that bring sources up to date with their controls. They are put together
from what a control is called and from the property, and the control that is called `this` has its
type there instead.
-/

namespace TuiMarkup.Proofs.HandlerNames

open DocumentOrder Slots Generation Validity Accounting BindingWiring FieldNames TerminalGui
open ValidationReport (Unknown Fresh AttributeSound Report report_iff)

def isReturned (catalog : Catalog) (a : Attribute) : Bool :=
  a.kind == .property && isBindingValue a.value &&
    (Binding.read? a.value none).any (·.mode == .twoWay) &&
    catalog.property? a.key != some .command

def returned (catalog : Catalog) (d : Document) : List (Tag × Attribute) :=
  d.tags.flatMap fun t => (t.attributes.filter (isReturned catalog)).map fun a => (t, a)

def reverses (c : ClassFile) : List Reverse :=
  (c.wiring.map (·.reverses)).getD []

def stem (f : Fields) (t : Tag) : String :=
  if called f t.index = Fields.self then t.type else called f t.index

def handlerName (f : Fields) (p : Tag × Attribute) : String :=
  "On" ++ stem f p.1 ++ p.2.key ++ "Changed"

structure LeadsBack (f : Fields) (p : Tag × Attribute) (t : Target) : Prop where
  field : t.field = called f p.1.index
  property : t.property = p.2.key
  handler : t.handler = handlerName f p

variable {catalog : Catalog} {context : Option String} {d : Document} {f : Fields} {t u : Tag}
  {a : Attribute} {p q : Tag × Attribute}

/-! ### Ways back -/

lemma targets_bound (catalog : Catalog) (context : Option String) (d : Document) :
    targets (bound catalog d context) = d.tags.flatMap fun t =>
      (t.attributes.filterMap (tied catalog context)).map fun b =>
        ⟨t.type, called (Fields.build catalog d) t.index, b.property, b.binding, b.isCommand⟩ := by
  rw [bound]
  induction d.tags with
  | nil => rfl
  | cons t ts ih =>
    rw [List.flatMap_cons, ← ih, ← boundProperties_eq]
    cases hb : boundProperties catalog context t with
    | nil =>
      have hc : boundControl? catalog context (Fields.build catalog d) t = none := by
        simp [boundControl?, hb]
      rw [List.filterMap_cons_none hc, List.map_nil, List.nil_append]
    | cons b bs =>
      have hc : boundControl? catalog context (Fields.build catalog d) t =
          some ⟨t.index, t.type, called (Fields.build catalog d) t.index, b :: bs⟩ := by
        simp [boundControl?, hb]
      rw [List.filterMap_cons_some hc]
      rfl

lemma isReturned_eq (hk : a.kind = .property) (hv : isBindingValue a.value = true) {b : Binding}
    (hb : Binding.read? a.value none = some b) :
    isReturned catalog a = (!(catalog.property? a.key == some .command) && b.mode == .twoWay) := by
  simp [isReturned, hk, hv, hb, Bool.and_comm, bne]

lemma leadsBack_attributes (catalog : Catalog) (context : Option String) (f : Fields) (t : Tag)
    (as : List Attribute) :
    List.Forall₂ (LeadsBack f) ((as.filter (isReturned catalog)).map fun a => (t, a))
      (((as.filterMap (tied catalog context)).map fun b =>
        ⟨t.type, called f t.index, b.property, b.binding, b.isCommand⟩).filter
          fun t => !t.isCommand && t.binding.mode == .twoWay) := by
  -- an attribute adds a pair to both lists or nothing to either
  induction as with
  | nil => exact .nil
  | cons a as ih =>
    by_cases hk : a.kind = .property ∧ isBindingValue a.value = true
    · obtain ⟨hk, hv⟩ := hk
      have hx := read?_context a.value context
      cases hb : Binding.read? a.value none with
      | none =>
        rw [hb, Option.map_none] at hx
        have hr : isReturned catalog a = false := by simp [isReturned, hb]
        have ht : tied catalog context a = none := by simp [tied, hx]
        rw [List.filter_cons_of_neg (by simp [hr]), List.filterMap_cons_none ht]
        exact ih
      | some b =>
        rw [hb, Option.map_some] at hx
        have hr : isReturned catalog a = _ := isReturned_eq hk hv hb
        have ht : tied catalog context a = some ⟨a.key,
            { b with source := Binding.sourceOf b.path context },
            catalog.property? a.key == some .command⟩ := by
          simp [tied, hk, hv, hx]
        rw [List.filterMap_cons_some ht, List.map_cons]
        by_cases hm : isReturned catalog a = true
        · rw [List.filter_cons_of_pos hm, List.filter_cons_of_pos (by simpa [hr] using hm),
            List.map_cons]
          exact .cons ⟨rfl, rfl, rfl⟩ ih
        · rw [List.filter_cons_of_neg hm, List.filter_cons_of_neg (by simpa [hr] using hm)]
          exact ih
    · have hr : isReturned catalog a = false := by
        simp only [isReturned]
        grind
      have ht : tied catalog context a = none := if_neg hk
      rw [List.filter_cons_of_neg (by simp [hr]), List.filterMap_cons_none ht]
      exact ih

lemma leadsBack_returning (catalog : Catalog) (context : Option String) (d : Document) :
    List.Forall₂ (LeadsBack (Fields.build catalog d)) (returned catalog d)
      (returning (bound catalog d context)) := by
  rw [returning, targets_bound, List.filter_flatMap, returned]
  induction d.tags with
  | nil => exact .nil
  | cons t ts ih =>
    rw [List.flatMap_cons, List.flatMap_cons]
    exact List.rel_append (leadsBack_attributes catalog context _ t t.attributes) ih

lemma reverses_target (h : ErrorFree catalog d) (context : Option String) :
    (reverses (classOf catalog d context)).map (·.target) =
      returning (bound catalog d context) := by
  have hn : ∀ t ∈ targets (bound catalog d context), t.binding.mode = .twoWay →
      ∃ event, catalog.changeEvent? t.type t.property = some event := by
    intro t ht hm
    obtain ⟨e, he, a, ha, hk, hv, hb, htype, hp, -⟩ := target_of_mem ht
    rw [htype, hp]
    exact h.changeEvent he ha hk hv hb hm
  have hr : reverses (classOf catalog d context) =
      (targets (bound catalog d context)).filterMap (·.reverse? catalog) := by
    by_cases hb : bound catalog d context = []
    · simp [reverses, classOf, hb, targets]
    · simp only [reverses, classOf, List.isEmpty_iff, hb, if_false]
      rfl
  have hf := (reverses_eq hn).imp fun t r hx => hx.1.symm
  rw [hr, ← List.forall₂_eq_eq_eq, List.forall₂_map_left_iff]
  exact hf.flip.imp fun _ _ => Eq.symm

theorem reverses_lead_back (h : ErrorFree catalog d) (context : Option String) :
    List.Forall₂ (fun p r => LeadsBack (Fields.build catalog d) p r.target) (returned catalog d)
      (reverses (classOf catalog d context)) := by
  have hl := leadsBack_returning catalog context d
  rwa [← reverses_target h context, List.forall₂_map_right_iff] at hl

lemma handlers_eq {rs : List Reverse} {ps : List (Tag × Attribute)}
    (h : List.Forall₂ (fun p r => LeadsBack f p r.target) ps rs) :
    rs.map (·.target.handler) = ps.map (handlerName f) := by
  induction h with
  | nil => rfl
  | cons hp _ ih => rw [List.map_cons, List.map_cons, hp.handler, ih]

lemma mem_returned : (t, a) ∈ returned catalog d ↔
    t ∈ d.tags ∧ a ∈ t.attributes ∧ isReturned catalog a = true := by
  simp [returned]

lemma changeEvent_of_returned (h : ErrorFree catalog d) (hp : p ∈ returned catalog d) :
    (catalog.changeEvent? p.1.type p.2.key).isSome = true := by
  obtain ⟨t, a⟩ := p
  obtain ⟨ht, ha, hr⟩ := mem_returned.mp hp
  obtain ⟨e, he, rfl⟩ := List.mem_map.mp ht
  simp only [isReturned, Bool.and_eq_true, beq_iff_eq, Option.any_eq_true] at hr
  obtain ⟨⟨⟨hk, hv⟩, b, hb, hm⟩, -⟩ := hr
  obtain ⟨event, hc⟩ := h.changeEvent he ha hk hv hb hm
  rw [hc]
  rfl

/-! ### Parts of names -/

lemma suffix_writable : ∀ p ∈ writable,
    (∀ q ∈ writable, p.2.toList <:+ q.2.toList → p.2 = q.2) ∧
      ¬ p.2.toList <:+ "ViewModelProperty".toList := by
  decide

lemma append_inj_of_writable {p q : String × String} {a b : String} (hp : p ∈ writable)
    (hq : q ∈ writable) (h : a ++ p.2 = b ++ q.2) : a = b ∧ p.2 = q.2 := by
  have hl : a.toList ++ p.2.toList = b.toList ++ q.2.toList := by
    rw [← String.toList_append, h, String.toList_append]
  have hs : p.2 = q.2 := by
    rcases List.suffix_or_suffix_of_suffix (List.suffix_append a.toList p.2.toList)
      (hl ▸ List.suffix_append b.toList q.2.toList) with hx | hx
    · exact (suffix_writable p hp).1 q hq hx
    · exact ((suffix_writable q hq).1 p hp hx).symm
  rw [hs] at h
  exact ⟨String.append_left_inj _ |>.mp h, hs⟩

lemma handlerName_inj (hp : (p.1.type, p.2.key) ∈ writable) (hq : (q.1.type, q.2.key) ∈ writable) :
    handlerName f p = handlerName f q ↔ stem f p.1 = stem f q.1 ∧ p.2.key = q.2.key := by
  constructor
  · intro h
    rw [handlerName, handlerName, String.append_left_inj, String.append_assoc, String.append_assoc,
      String.append_right_inj] at h
    exact append_inj_of_writable hp hq h
  · rintro ⟨hs, hk⟩
    rw [handlerName, handlerName, hs, hk]

lemma handlerName_ne (hp : (p.1.type, p.2.key) ∈ writable) :
    handlerName f p ≠ ClassFile.changeHandler := by
  intro h
  have hc : ClassFile.changeHandler = "On" ++ "ViewModelProperty" ++ "Changed" := by decide
  rw [hc, handlerName, String.append_left_inj, String.append_assoc, String.append_right_inj] at h
  apply (suffix_writable _ hp).2
  rw [← h, String.toList_append]
  exact List.suffix_append ..

/-! ### What controls are called -/

def CalledSelf (d : Document) (t : Tag) : Prop :=
  t.explicitName? = some Fields.self ∨ t.explicitName? = none ∧ t.index = d.root.tag.index

/-- The first element has its type in the names of its methods, and the second the same text, as a
name of its own or as its type. -/
def Alike (d : Document) (t u : Tag) : Prop :=
  CalledSelf d t ∧ (u.explicitName? = some t.type ∨ CalledSelf d u ∧ u.type = t.type)

lemma madeName_start (type : String) (n : ℕ) :
    (Fields.madeName type n).toList.head? = some '_' := by
  simp [Fields.madeName, String.toList_append]

lemma start_writable : ∀ p ∈ writable, p.1.toList.head? ≠ some '_' ∧ p.1 ≠ Fields.self := by
  decide

section Documents

variable (catalog) (hn : (d.tags.map (·.index)).Nodup)
include hn

lemma called_eq (ht : t ∈ d.tags) : called (Fields.build catalog d) t.index =
    (fieldOf (Fields.build catalog d) t.index).getD Fields.self := by
  rw [called, Fields.reference, slot_fieldOf catalog hn ht]
  rfl

lemma called_eq_iff (ht : t ∈ d.tags) {name : String} (hs : name.toList.head? ≠ some '_') :
    called (Fields.build catalog d) t.index = name ↔ t.explicitName? = some name ∨
      (t.explicitName? = none ∧ t.index = d.root.tag.index ∧ Fields.self = name) := by
  have hc := called_eq catalog hn ht
  cases he : t.explicitName? with
  | some given =>
    rw [hc, fieldOf_own catalog hn ht (Or.inl (by rw [he]; rfl)), he]
    simp
  | none =>
    by_cases hr : t.index = d.root.tag.index
    · rw [hc, fieldOf_own catalog hn ht (Or.inr hr), he]
      simp [hr]
    · have hm : t ∈ d.tags.filter (isMade d.root.tag.index t.type) := by
        simp [isMade, ht, he, hr]
      obtain ⟨k, hk⟩ := List.mem_iff_getElem?.mp hm
      rw [hc, fieldOf_made catalog hn hk, Option.getD_some]
      -- made names start with an underscore, so no other name is one of them
      refine iff_of_false ?_ (by simp [hr])
      rintro rfl
      exact hs (madeName_start ..)

lemma called_self_iff (ht : t ∈ d.tags) :
    called (Fields.build catalog d) t.index = Fields.self ↔ CalledSelf d t := by
  rw [called_eq_iff catalog hn ht (by decide), CalledSelf]
  simp

lemma fieldOf_called (ht : t ∈ d.tags) (hs : ¬ CalledSelf d t) :
    fieldOf (Fields.build catalog d) t.index = some (called (Fields.build catalog d) t.index) := by
  have hc := called_eq catalog hn ht
  rw [← called_self_iff catalog hn ht] at hs
  cases hf : fieldOf (Fields.build catalog d) t.index with
  | none =>
    rw [hf] at hc
    exact absurd hc hs
  | some name => rw [hc, hf, Option.getD_some]

lemma called_ne (hg : (given d).Nodup) (ht : t ∈ d.tags) (hu : u ∈ d.tags) (hne : t ≠ u)
    (hts : ¬ CalledSelf d t) (hus : ¬ CalledSelf d u) :
    called (Fields.build catalog d) t.index ≠ called (Fields.build catalog d) u.index := by
  intro h
  have hf := fieldOf_called catalog hn ht hts
  rw [h] at hf
  obtain ⟨he, he'⟩ := given_of_fieldOf_eq catalog hn ht hu hne hf (fieldOf_called catalog hn hu hus)
  have hs : Std.Symm fun t u : Tag => ∀ name, t.explicitName? = some name →
      ∀ name', u.explicitName? = some name' → name ≠ name' :=
    ⟨fun _ _ hx name hname name' hname' he => hx name' hname' name hname he.symm⟩
  exact (List.pairwise_filterMap.mp hg).forall ht hu hne _ he _ he' rfl

lemma stem_of_self (ht : t ∈ d.tags) (hs : CalledSelf d t) :
    stem (Fields.build catalog d) t = t.type :=
  if_pos ((called_self_iff catalog hn ht).mpr hs)

lemma stem_of_not_self (ht : t ∈ d.tags) (hs : ¬ CalledSelf d t) :
    stem (Fields.build catalog d) t = called (Fields.build catalog d) t.index :=
  if_neg (mt (called_self_iff catalog hn ht).mp hs)

lemma stem_eq_type_iff {k : String} (hu : u ∈ d.tags) (hs : CalledSelf d t)
    (hw : (t.type, k) ∈ writable) :
    stem (Fields.build catalog d) u = t.type ↔ Alike d t u := by
  obtain ⟨hstart, hne⟩ := start_writable _ hw
  by_cases hus : CalledSelf d u
  · rw [stem_of_self catalog hn hu hus]
    constructor
    · exact fun h => ⟨hs, Or.inr ⟨hus, h⟩⟩
    · rintro ⟨-, he | h⟩
      · rcases hus with hself | ⟨hnone, -⟩
        · rw [he, Option.some_inj] at hself
          exact absurd hself hne
        · rw [he] at hnone
          cases hnone
      · exact h.2
  · rw [stem_of_not_self catalog hn hu hus, called_eq_iff catalog hn hu hstart]
    constructor
    · rintro (he | ⟨-, -, h⟩)
      · exact ⟨hs, Or.inl he⟩
      · exact absurd h.symm hne
    · rintro ⟨-, he | h⟩
      · exact Or.inl he
      · exact absurd h.1 hus

lemma stem_eq_iff {k k' : String} (hg : (given d).Nodup) (ht : t ∈ d.tags) (hu : u ∈ d.tags)
    (htw : (t.type, k) ∈ writable) (huw : (u.type, k') ∈ writable) (hne : t ≠ u) :
    stem (Fields.build catalog d) t = stem (Fields.build catalog d) u ↔
      Alike d t u ∨ Alike d u t := by
  constructor
  · intro h
    by_cases hts : CalledSelf d t
    · rw [stem_of_self catalog hn ht hts] at h
      exact Or.inl ((stem_eq_type_iff catalog hn hu hts htw).mp h.symm)
    · by_cases hus : CalledSelf d u
      · rw [stem_of_self catalog hn hu hus] at h
        exact Or.inr ((stem_eq_type_iff catalog hn ht hus huw).mp h)
      · rw [stem_of_not_self catalog hn ht hts, stem_of_not_self catalog hn hu hus] at h
        exact absurd h (called_ne catalog hn hg ht hu hne hts hus)
  · rintro (h | h)
    · rw [stem_of_self catalog hn ht h.1, (stem_eq_type_iff catalog hn hu h.1 htw).mpr h]
    · rw [stem_of_self catalog hn hu h.1, (stem_eq_type_iff catalog hn ht h.1 huw).mpr h]

end Documents

/-! ### Distinct names -/

lemma returned_nodup (hn : (d.tags.map (·.index)).Nodup)
    (hk : ∀ t ∈ d.tags, (t.attributes.map (·.key)).Nodup) : (returned catalog d).Nodup := by
  rw [returned, List.nodup_flatMap]
  constructor
  · intro t ht
    have ha : t.attributes.Nodup := (hk t ht).of_map
    exact (ha.filter _).map fun a b h => (Prod.mk.inj h).2
  · refine (List.Nodup.of_map _ hn).imp ?_
    intro t u hne p hp hq
    obtain ⟨a, -, rfl⟩ := List.mem_map.mp hp
    obtain ⟨b, -, h⟩ := List.mem_map.mp hq
    exact hne (Prod.mk.inj h).1.symm

/-- Two attributes that get the same method: one of the same property on another element, where the
elements are alike. -/
def Clash (d : Document) (p q : Tag × Attribute) : Prop :=
  p.1.index ≠ q.1.index ∧ p.2.key = q.2.key ∧ Alike d p.1 q.1

theorem handlers_nodup_iff (hn : (d.tags.map (·.index)).Nodup) (hg : (given d).Nodup)
    (hk : ∀ t ∈ d.tags, (t.attributes.map (·.key)).Nodup)
    (hw : ∀ p ∈ returned catalog d, (p.1.type, p.2.key) ∈ writable) :
    ((returned catalog d).map (handlerName (Fields.build catalog d))).Nodup ↔
      ¬∃ p ∈ returned catalog d, ∃ q ∈ returned catalog d, Clash d p q := by
  have hi : ∀ p ∈ returned catalog d, ∀ q ∈ returned catalog d, p.1 = q.1 ↔ p.1.index = q.1.index :=
    fun p hp q hq => ⟨congrArg _, List.inj_on_of_nodup_map hn (mem_returned.mp hp).1
      (mem_returned.mp hq).1⟩
  rw [List.nodup_map_iff_inj_on (returned_nodup hn hk)]
  constructor
  · rintro h ⟨p, hp, q, hq, hne, hkey, ha⟩
    have hs := (stem_eq_iff catalog hn hg (mem_returned.mp hp).1 (mem_returned.mp hq).1 (hw p hp)
      (hw q hq) (mt (hi p hp q hq).mp hne)).mpr (Or.inl ha)
    have he := h p hp q hq ((handlerName_inj (hw p hp) (hw q hq)).mpr ⟨hs, hkey⟩)
    exact hne (congrArg (·.1.index) he)
  · intro h p hp q hq he
    obtain ⟨hs, hkey⟩ := (handlerName_inj (hw p hp) (hw q hq)).mp he
    obtain ⟨ht, ha, -⟩ := mem_returned.mp hp
    obtain ⟨hu, hb, -⟩ := mem_returned.mp hq
    -- on one element the properties differ, on two the elements would have to be alike
    by_cases hx : p.1 = q.1
    · rw [← hx] at hb
      exact Prod.ext hx (List.inj_on_of_nodup_map (hk _ ht) ha hb hkey)
    · have hne := mt (hi p hp q hq).mpr hx
      rcases (stem_eq_iff catalog hn hg ht hu (hw p hp) (hw q hq) hx).mp hs with ha | ha
      · exact absurd ⟨p, hp, q, hq, hne, hkey, ha⟩ h
      · exact absurd ⟨q, hq, p, hp, Ne.symm hne, hkey.symm, ha⟩ h

/-! ### Compilation -/

lemma exists_of_generated {resolver : TypeResolver} {options : Options} {source path text : String}
    (h : (compile catalog resolver options source path).generated = some text) :
    ∃ d, Document.read catalog source path = .ok d ∧ ErrorFree catalog d ∧
      (classOf catalog d (dataContext d.dataType d.className resolver)).render
        options.indentWidth = .ok text := by
  cases hr : Document.read catalog source path with
  | error x =>
    rw [Policy.compile_error hr] at h
    cases h
  | ok d =>
    rw [Policy.compile_ok hr] at h
    split at h
    · cases h
    next hf =>
      refine ⟨d, rfl, Emission.errorFree_of_reported (Bool.eq_false_iff.mpr hf), ?_⟩
      rw [Document.emit, Document.generate, ofDocument_eq] at h
      cases hc : (classOf catalog d (dataContext d.dataType d.className resolver)).render
          options.indentWidth with
      | error x =>
        simp only [bind, Except.bind, hc] at h
        cases h
      | ok code =>
        simp only [bind, Except.bind, hc] at h
        cases h
        rfl

lemma keys_nodup {source path : String} (hr : Document.read catalog source path = .ok d)
    (ht : t ∈ d.tags) : (t.attributes.map (·.key)).Nodup := by
  rw [tags_eq] at ht
  obtain ⟨e, he, rfl⟩ := List.mem_map.mp ht
  refine List.Pairwise.imp ?_ ((ValidationReport.elements_placed hr).2 e he)
  rintro key _ hlt rfl
  exact String.lt_irrefl key hlt

lemma errorFree_iff {source path : String} (hr : Document.read catalog source path = .ok d) :
    ErrorFree catalog d ↔ (∀ e ∈ preorder d.root, ¬ Unknown catalog e.tag.type) ∧
      Fresh [] (preorder d.root) ∧
      ∀ e ∈ preorder d.root, ∀ a ∈ e.tag.attributes, AttributeSound catalog e.tag.type a := by
  have hi := Building.read_indices (Building.read_root hr).1
  have hv : Report catalog d.path [] (preorder d.root) (d.validate catalog) := by
    rw [Document.validate, elements_eq_preorder]
    exact (report_iff (by simp [ValidationReport.names]) hi).mpr rfl
  rw [ErrorFree, hv.silent_iff]

lemma given_nodup {source path : String} (hr : Document.read catalog source path = .ok d)
    (h : ErrorFree catalog d) : (given d).Nodup := by
  have hf := ((errorFree_iff hr).mp h).2.1.1
  rw [given, tags_eq, List.filterMap_map]
  exact hf

lemma classLayout_reverses (c : ClassFile) :
    ∃ members, c.classLayout = Layout.braced ("partial class " ++ c.name ++ " : " ++ c.base)
      (members ++ (reverses c).flatMap ClassFile.reverseMethod) := by
  have hw : ∃ methods, (c.wiring.map ClassFile.wiringMethods).getD [] =
      methods ++ (reverses c).flatMap ClassFile.reverseMethod := by
    rw [reverses]
    cases c.wiring with
    | none => exact ⟨[], rfl⟩
    | some w => exact ⟨_, rfl⟩
  obtain ⟨methods, hw⟩ := hw
  rw [ClassFile.classLayout, hw, ← List.append_assoc]
  exact ⟨_, rfl⟩

/-- Under the controls of Terminal.Gui no method that writes a control back has the name of the one
that is told of changes, and two of them have the same name only where the element that is called
`this` has a type that is the name of another element with the same property bound both ways, or the
type of another element that is called `this`. -/
theorem handlers_distinct {resolver : TypeResolver} {options : Options}
    {source path text : String}
    (h : (compile .terminalGui resolver options source path).generated = some text) :
    ∃ d c members, Document.read .terminalGui source path = .ok d ∧
      ClassFile.ofDocument .terminalGui d (dataContext d.dataType d.className resolver) = .ok c ∧
      c.render options.indentWidth = .ok text ∧
      text = ClassText.textOf options.indentWidth (ClassText.file c.space c.classLayout) ∧
      c.classLayout = Layout.braced ("partial class " ++ c.name ++ " : " ++ c.base)
        (members ++ (reverses c).flatMap ClassFile.reverseMethod) ∧
      List.Forall₂ (fun p r => LeadsBack (Fields.build .terminalGui d) p r.target)
        (returned .terminalGui d) (reverses c) ∧
      ClassFile.changeHandler ∉ (reverses c).map (·.target.handler) ∧
      (((reverses c).map (·.target.handler)).Nodup ↔
        ¬∃ p ∈ returned .terminalGui d, ∃ q ∈ returned .terminalGui d, Clash d p q) := by
  obtain ⟨d, hr, he, ht⟩ := exists_of_generated h
  have hl := reverses_lead_back he (dataContext d.dataType d.className resolver)
  have hw : ∀ p ∈ returned .terminalGui d, (p.1.type, p.2.key) ∈ writable :=
    fun p hp => changeEvent?_terminalGui.mp (changeEvent_of_returned he hp)
  have hn : (d.tags.map (·.index)).Nodup := by
    rw [Building.document_indices hr]
    exact List.nodup_range
  obtain ⟨members, hc⟩ := classLayout_reverses
    (classOf .terminalGui d (dataContext d.dataType d.className resolver))
  refine ⟨d, _, members, hr, ofDocument_eq .terminalGui d _, ht, ?_, hc, hl, ?_, ?_⟩
  · rw [ClassText.render_eq, ClassText.layout_eq] at ht
    exact (Except.ok.inj ht).symm
  · rw [handlers_eq hl]
    intro hm
    obtain ⟨p, hp, hx⟩ := List.mem_map.mp hm
    exact handlerName_ne (hw p hp) hx
  · rw [handlers_eq hl]
    exact handlers_nodup_iff hn (given_nodup hr he) (fun t => keys_nodup hr) hw

/-! ### One name for two methods -/

def nested : String :=
  "<TextView Text='\x7bBind P, Mode=TwoWay\x7d' x:Class='A'>" ++
    "<TextView Text='\x7bBind Q, Mode=TwoWay\x7d' x:Name='TextView'/></TextView>"

def nestedTokens : List Markup.Token :=
  [⟨.tagStart "TextView", ⟨0, 0, 0⟩, ⟨9, 0, 9⟩⟩,
    ⟨.attributeName "Text", ⟨10, 0, 10⟩, ⟨14, 0, 14⟩⟩,
    ⟨.attributeValue "\x7bBind P, Mode=TwoWay\x7d", ⟨15, 0, 15⟩, ⟨38, 0, 38⟩⟩,
    ⟨.attributeName "x:Class", ⟨39, 0, 39⟩, ⟨46, 0, 46⟩⟩,
    ⟨.attributeValue "A", ⟨47, 0, 47⟩, ⟨50, 0, 50⟩⟩, ⟨.tagEnd, ⟨50, 0, 50⟩, ⟨51, 0, 51⟩⟩,
    ⟨.tagStart "TextView", ⟨51, 0, 51⟩, ⟨60, 0, 60⟩⟩,
    ⟨.attributeName "Text", ⟨61, 0, 61⟩, ⟨65, 0, 65⟩⟩,
    ⟨.attributeValue "\x7bBind Q, Mode=TwoWay\x7d", ⟨66, 0, 66⟩, ⟨89, 0, 89⟩⟩,
    ⟨.attributeName "x:Name", ⟨90, 0, 90⟩, ⟨96, 0, 96⟩⟩,
    ⟨.attributeValue "TextView", ⟨97, 0, 97⟩, ⟨107, 0, 107⟩⟩,
    ⟨.tagEndVoid, ⟨107, 0, 107⟩, ⟨109, 0, 109⟩⟩,
    ⟨.tagClose "TextView", ⟨109, 0, 109⟩, ⟨120, 0, 120⟩⟩, ⟨.eof, ⟨120, 0, 120⟩, ⟨120, 0, 120⟩⟩]

def outerText : Attribute :=
  ⟨"Text", "\x7bBind P, Mode=TwoWay\x7d", .property, ⟨⟨10, 0, 10⟩, ⟨38, 0, 38⟩⟩⟩

def innerText : Attribute :=
  ⟨"Text", "\x7bBind Q, Mode=TwoWay\x7d", .property, ⟨⟨61, 0, 61⟩, ⟨89, 0, 89⟩⟩⟩

def outer : Tag where
  index := 0
  type := "TextView"
  attributes := [outerText, ⟨"x:Class", "A", .reserved, ⟨⟨39, 0, 39⟩, ⟨50, 0, 50⟩⟩⟩]
  line := 1
  column := 2
  span := ⟨⟨0, 0, 0⟩, ⟨120, 0, 120⟩⟩

def inner : Tag where
  index := 1
  type := "TextView"
  attributes := [innerText, ⟨"x:Name", "TextView", .reserved, ⟨⟨90, 0, 90⟩, ⟨107, 0, 107⟩⟩⟩]
  line := 1
  column := 53
  span := ⟨⟨51, 0, 51⟩, ⟨109, 0, 109⟩⟩

def document : Document where
  root := ⟨outer, [⟨inner, []⟩]⟩
  path := ""
  className := "A"
  dataType := none

lemma tokenize_nested : Markup.tokenize nested = ⟨nestedTokens, none⟩ := by decide +kernel

lemma read_nested (catalog : Catalog) : Document.read catalog nested "" = .ok document := by
  have hk : Text.startsWith "x:" "x:Class" = true ∧ Text.startsWith "x:" "x:Name" = true ∧
      Text.startsWith "x:" "Text" = false ∧ Text.startsWith "xmlns" "Text" = false := by
    decide +kernel
  have hp : isBindingValue "\x7bBind P, Mode=TwoWay\x7d" = true := by decide +kernel
  have hq : isBindingValue "\x7bBind Q, Mode=TwoWay\x7d" = true := by decide +kernel
  have hl : Markup.localName "TextView" = "TextView" := by decide +kernel
  have ho : ∀ a b : Markup.RawAttribute, a.key ≤ b.key →
      [a, b].mergeSort (fun a b => decide (a.key ≤ b.key)) = [a, b] :=
    fun a b h => List.mergeSort_of_pairwise (by simpa using h)
  have hr : Markup.Tree.read catalog nested = ⟨some document.root, none⟩ := by
    rw [Markup.Tree.read, tokenize_nested]
    simp [Markup.Tree.build, nestedTokens, Markup.Builder.next, Markup.Builder.contentToken,
      Markup.Builder.tagToken, Markup.Builder.attributeToken, Markup.Builder.makeTag,
      Markup.Builder.add, Markup.Builder.endFault?, document, outer, inner, outerText, innerText,
      AttributeKind.of, hk, hp, hq, hl, ho]
  have hs : Text.trim nested ≠ "" := by decide +kernel
  have hc : Text.trimmed? "A" = some "A" := by decide +kernel
  rw [Document.read, if_neg hs, hr]
  simp [Document.ofRoot, document, outer, outerText, Tag.attribute?, hc]

lemma document_preorder : preorder document.root = [document.root, ⟨inner, []⟩] := by
  simp [document, preorder, preorderAll]

lemma document_tags : document.tags = [outer, inner] := by
  rw [tags_eq, document_preorder]
  rfl

lemma inner_name : inner.explicitName? = some "TextView" := by
  decide +kernel

lemma text_twoWay : ∀ a ∈ [outerText, innerText], a.kind = .property ∧ a.key = "Text" ∧
    isBindingValue a.value = true ∧
    (Binding.read? a.value none).map (·.mode) = some .twoWay := by
  decide +kernel

lemma text_sound {a : Attribute} (ha : a ∈ [outerText, innerText]) :
    AttributeSound .terminalGui "TextView" a := by
  obtain ⟨hk, hkey, -, hm⟩ := text_twoWay a ha
  obtain ⟨b, hb, -⟩ := Option.map_eq_some_iff.mp hm
  have hc : Catalog.terminalGui.changeEvent? "TextView" a.key ≠ none := by
    rw [hkey, ← Option.isSome_iff_ne_none, changeEvent?_terminalGui]
    decide
  exact ⟨fun _ _ => ⟨b, hb, fun _ => hc⟩, by simp [hk]⟩

lemma document_errorFree : ErrorFree .terminalGui document := by
  rw [errorFree_iff (read_nested .terminalGui), document_preorder]
  have hw : ("TextView", "Text") ∈ writable := by decide
  have hk : ¬ Unknown .terminalGui "TextView" :=
    ValidationReport.known_iff.mpr (known_of_writable hw)
  have hr : ∀ a : Attribute, a.kind = .reserved → AttributeSound .terminalGui "TextView" a :=
    fun a ha => ⟨by simp [ha], by simp [ha]⟩
  have hn : ValidationReport.names [document.root, ⟨inner, []⟩] = ["TextView"] := by
    decide +kernel
  refine ⟨?_, ⟨by simp [hn], by simp [ValidationReport.names]⟩, ?_⟩
  · simpa [document, outer, inner] using hk
  · refine List.forall_mem_cons.mpr ⟨?_, List.forall_mem_singleton.mpr ?_⟩
    · exact List.forall_mem_cons.mpr ⟨text_sound (by simp), List.forall_mem_singleton.mpr (hr _ rfl)⟩
    · exact List.forall_mem_cons.mpr ⟨text_sound (by simp), List.forall_mem_singleton.mpr (hr _ rfl)⟩

lemma nested_generated (resolver : TypeResolver) :
    ∃ text, (compile .terminalGui resolver {} nested "").generated = some text := by
  obtain ⟨text, ht⟩ := Policy.emit_eq .terminalGui resolver {} document
    (document.validate .terminalGui)
  have hv : (document.validate .terminalGui).any (·.isError) = false := by
    rw [List.any_eq_false]
    exact fun x hx => by simp [document_errorFree x hx]
  refine ⟨text, ?_⟩
  rw [Policy.compile_ok (read_nested _)]
  change (if (document.validate .terminalGui).any _ then _ else _ : Output).generated = _
  rw [hv, if_neg Bool.false_ne_true]
  exact congrArg Output.generated ht

lemma document_returned :
    returned .terminalGui document = [(outer, outerText), (inner, innerText)] := by
  have ht : ∀ a ∈ [outerText, innerText], isReturned .terminalGui a = true := by
    intro a ha
    obtain ⟨hk, hkey, hv, hm⟩ := text_twoWay a ha
    obtain ⟨b, hb, hm⟩ := Option.map_eq_some_iff.mp hm
    rw [isReturned_eq hk hv hb, hkey, property?_text, hm]
    rfl
  have hf : ∀ a ∈ [outerText, innerText], ∀ b : Attribute, b.kind = .reserved →
      [a, b].filter (isReturned .terminalGui) = [a] := by
    intro a ha b hb
    have hr : isReturned .terminalGui b = false := by simp [isReturned, hb]
    simp [ht a ha, hr]
  have ho : outer.attributes.filter (isReturned .terminalGui) = [outerText] :=
    hf _ (by simp) _ rfl
  have hi : inner.attributes.filter (isReturned .terminalGui) = [innerText] :=
    hf _ (by simp) _ rfl
  rw [returned, document_tags, List.flatMap_cons, List.flatMap_singleton, ho, hi]
  rfl

lemma document_clash : Clash document (outer, outerText) (inner, innerText) :=
  ⟨by decide, rfl, Or.inr ⟨by decide +kernel, rfl⟩, Or.inl inner_name⟩

lemma document_handlers :
    (returned .terminalGui document).map (handlerName (Fields.build .terminalGui document)) =
      ["OnTextViewTextChanged", "OnTextViewTextChanged"] := by
  have hn : (document.tags.map (·.index)).Nodup := by
    rw [document_tags]
    decide
  have ht : outer ∈ document.tags ∧ inner ∈ document.tags := by simp [document_tags]
  obtain ⟨-, -, ha⟩ := document_clash
  have hs : stem (Fields.build .terminalGui document) outer = "TextView" :=
    stem_of_self .terminalGui hn ht.1 ha.1
  have hs' : stem (Fields.build .terminalGui document) inner = "TextView" :=
    (stem_eq_type_iff .terminalGui hn (k := "Text") ht.2 ha.1 (by decide)).mpr ha
  rw [document_returned, List.map_cons, List.map_singleton, handlerName, handlerName, hs, hs']
  decide

/-- A root that is a text view, and a text view of this name in it. -/
theorem handlers_distinct_nested :
    ∃ text, (compile .terminalGui (fun _ _ => none) {} nested "").generated = some text ∧
      ∃ d c, Document.read .terminalGui nested "" = .ok d ∧
        ClassFile.ofDocument .terminalGui d none = .ok c ∧ c.render 4 = .ok text ∧
        ClassFile.changeHandler ∉ (reverses c).map (·.target.handler) ∧
        ¬ ((reverses c).map (·.target.handler)).Nodup := by
  obtain ⟨text, ht⟩ := nested_generated fun _ _ => none
  obtain ⟨d, c, -, hr, hc, hx, -, -, -, hm, hd⟩ := handlers_distinct ht
  obtain rfl : document = d := Except.ok.inj ((read_nested _).symm.trans hr)
  refine ⟨text, ht, document, c, hr, hc, hx, hm, fun h => hd.mp h ?_⟩
  rw [document_returned]
  exact ⟨_, .head _, _, .tail _ (.head _), document_clash⟩

theorem handlers_shared :
    ∃ text c, (compile .terminalGui (fun _ _ => none) {} nested "").generated = some text ∧
      ClassFile.ofDocument .terminalGui document none = .ok c ∧ c.render 4 = .ok text ∧
      (reverses c).map (·.target.handler) =
        ["OnTextViewTextChanged", "OnTextViewTextChanged"] := by
  obtain ⟨text, ht⟩ := nested_generated fun _ _ => none
  obtain ⟨d, hr, he, hx⟩ := exists_of_generated ht
  obtain rfl : document = d := Except.ok.inj ((read_nested _).symm.trans hr)
  refine ⟨text, _, ht, ofDocument_eq .terminalGui document none, hx, ?_⟩
  rw [handlers_eq (reverses_lead_back he none), document_handlers]

end TuiMarkup.Proofs.HandlerNames
