import Mathlib.Data.List.Basic
import Mathlib.Data.List.Nodup
import Mathlib.Tactic.Lemma
import TuiMarkup.Code.Fields
import TuiMarkup.Proofs.DocumentOrder

/-! Every element has a slot, and with distinct indices it is its own. -/

namespace TuiMarkup.Proofs.Slots

open DocumentOrder

variable {d : Document} {t : Tag}

def Covers (f : Fields) (t : Tag) : Prop :=
  ∃ s, f.slot t.index = .ok s

def called (f : Fields) (index : ℕ) : String :=
  (f.reference index).toOption.getD ""

def made (f : Fields) (index : ℕ) : String :=
  (f.outputType index).toOption.getD ""

lemma Covers.reference {f : Fields} (h : Covers f t) :
    f.reference t.index = .ok (called f t.index) := by
  obtain ⟨s, hs⟩ := h
  simp [called, Fields.reference, hs, Except.map, Except.toOption]

lemma Covers.outputType {f : Fields} (h : Covers f t) :
    f.outputType t.index = .ok (made f t.index) := by
  obtain ⟨s, hs⟩ := h
  simp [made, Fields.outputType, hs, Except.map, Except.toOption]

lemma tags_eq (d : Document) : d.tags = (preorder d.root).map (·.tag) := by
  rw [Document.tags, elements_eq_preorder]

lemma tag_mem_tags {e : Element} (he : e ∈ preorder d.root) : e.tag ∈ d.tags := by
  rw [tags_eq]
  exact List.mem_map.mpr ⟨e, he, rfl⟩

lemma names_length (taken : List String) (root : ℕ) (counts : Table ℕ) (ts : List Tag) :
    (Fields.names taken root counts ts).length = ts.length := by
  fun_induction Fields.names taken root counts ts with
  | case1 => rfl
  | case2 _ _ _ _ _ ih | case3 _ _ _ _ _ ih | case4 _ _ _ _ _ _ ih =>
    rw [List.length_cons, ih, List.length_cons]

lemma slots_getElem? (catalog : Catalog) {i : ℕ} (h : d.tags[i]? = some t) :
    ∃ field, (Fields.build catalog d).slots[i]? = some (Fields.slotOf catalog t field) := by
  obtain ⟨hi, -⟩ := List.getElem?_eq_some_iff.mp h
  rw [← names_length (d.tags.filterMap (·.explicitName?)) d.root.tag.index {} d.tags] at hi
  have hf := List.getElem?_eq_getElem hi
  rw [Fields.build, List.getElem?_zipWith, h, hf]
  exact ⟨_, rfl⟩

lemma slots_indices (catalog : Catalog) (d : Document) :
    (Fields.build catalog d).slots.map (·.index) = d.tags.map (·.index) := by
  have hn := names_length (d.tags.filterMap (·.explicitName?)) d.root.tag.index {} d.tags
  apply List.ext_getElem
  · simp [Fields.build, hn]
  · intro i hl hr
    simp [Fields.build, Fields.slotOf]

lemma slot_of_mem {f : Fields} {s : Slot} (h : s ∈ f.slots) : ∃ s', f.slot s.index = .ok s' := by
  have hs : (f.slots.find? (·.index == s.index)).isSome := by
    rw [List.find?_isSome]
    exact ⟨s, h, beq_self_eq_true _⟩
  obtain ⟨s', hs'⟩ := Option.isSome_iff_exists.mp hs
  refine ⟨s', ?_⟩
  rw [Fields.slot, hs']

theorem covers_of_mem (catalog : Catalog) (ht : t ∈ d.tags) :
    Covers (Fields.build catalog d) t := by
  obtain ⟨i, hi⟩ := List.mem_iff_getElem?.mp ht
  obtain ⟨field, hf⟩ := slots_getElem? catalog hi
  exact slot_of_mem (List.mem_of_getElem? hf)

lemma slot_unique {f : Fields} {s : Slot} (hn : (f.slots.map (·.index)).Nodup) (h : s ∈ f.slots) :
    f.slot s.index = .ok s := by
  obtain ⟨s', hs'⟩ := slot_of_mem h
  rw [hs']
  rw [Fields.slot] at hs'
  split at hs'
  next x hx =>
    cases hs'
    have hi : s'.index = s.index := by simpa using List.find?_some hx
    rw [List.inj_on_of_nodup_map hn (List.mem_of_find?_eq_some hx) h hi]
  · cases hs'

theorem slot_eq (catalog : Catalog) (hn : (d.tags.map (·.index)).Nodup) (ht : t ∈ d.tags) :
    ∃ field, (Fields.build catalog d).slot t.index = .ok (Fields.slotOf catalog t field) := by
  obtain ⟨i, hi⟩ := List.mem_iff_getElem?.mp ht
  obtain ⟨field, hf⟩ := slots_getElem? catalog hi
  rw [← slots_indices catalog d] at hn
  exact ⟨field, slot_unique hn (List.mem_of_getElem? hf)⟩

lemma made_eq (catalog : Catalog) (hn : (d.tags.map (·.index)).Nodup) (ht : t ∈ d.tags) :
    made (Fields.build catalog d) t.index = Fields.outputTypeOf catalog t := by
  obtain ⟨field, hf⟩ := slot_eq catalog hn ht
  rw [made, Fields.outputType, hf]
  rfl

lemma map_slot (catalog : Catalog) (hn : (d.tags.map (·.index)).Nodup) :
    d.tags.map (fun t => (Fields.build catalog d).slot t.index) =
      (Fields.build catalog d).slots.map .ok := by
  have hs := slots_indices catalog d
  rw [← hs] at hn
  calc d.tags.map (fun t => (Fields.build catalog d).slot t.index)
      = (d.tags.map (·.index)).map (Fields.build catalog d).slot := by rw [List.map_map]; rfl
    _ = (Fields.build catalog d).slots.map
          (fun s => (Fields.build catalog d).slot s.index) := by rw [← hs, List.map_map]; rfl
    _ = (Fields.build catalog d).slots.map .ok :=
      List.map_congr_left fun s h => slot_unique hn h

theorem map_called (catalog : Catalog) (hn : (d.tags.map (·.index)).Nodup) :
    d.tags.map (fun t => called (Fields.build catalog d) t.index) =
      (Fields.build catalog d).slots.map (·.reference) := by
  calc d.tags.map (fun t => called (Fields.build catalog d) t.index)
      = (d.tags.map fun t => (Fields.build catalog d).slot t.index).map
          (fun r => (r.map (·.reference)).toOption.getD "") := by rw [List.map_map]; rfl
    _ = (Fields.build catalog d).slots.map (·.reference) := by
      rw [map_slot catalog hn, List.map_map]
      rfl

theorem called_root (catalog : Catalog) (d : Document) :
    called (Fields.build catalog d) d.root.tag.index =
      d.root.tag.explicitName?.getD Fields.self := by
  have ht : d.tags = d.root.tag :: (preorderAll d.root.children).map (·.tag) := by
    rw [tags_eq, preorder_eq, List.map_cons]
  have hs : (Fields.build catalog d).slot d.root.tag.index =
      .ok (Fields.slotOf catalog d.root.tag d.root.tag.explicitName?) := by
    rw [Fields.slot, Fields.build, ht, Fields.names]
    cases h : d.root.tag.explicitName? <;> simp [Fields.slotOf]
  simp [called, Fields.reference, hs, Except.map, Except.toOption, Fields.slotOf]

end TuiMarkup.Proofs.Slots
