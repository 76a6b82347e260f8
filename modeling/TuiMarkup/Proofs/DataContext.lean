import Mathlib.Data.List.Find
import Mathlib.Tactic.Lemma
import TuiMarkup.Compilation
import TuiMarkup.Proofs.Precedence

/-! The member that bindings start from, told by the insertions that made the map of types. Which
properties match is settled by the last insertion of each, which of them is found by the first. -/

namespace TuiMarkup.Proofs.DataContext

open Declarations

structure Insertion where
  className : String
  property : String
  type : String
deriving DecidableEq, Repr

variable {calls : List Insertion} {className property type hint : String}

def Insertion.isFor (className property : String) (c : Insertion) : Bool :=
  c.className == className && c.property == property

lemma Insertion.isFor_iff {c : Insertion} :
    c.isFor className property = true ↔ c.className = className ∧ c.property = property := by
  simp [isFor]

def ofInsertions (calls : List Insertion) : TypeMap :=
  calls.foldl (fun m c => m.insert c.className c.property c.type) {}

lemma ofInsertions_concat (calls : List Insertion) (c : Insertion) :
    ofInsertions (calls ++ [c]) = (ofInsertions calls).insert c.className c.property c.type := by
  rw [ofInsertions, List.foldl_append]
  rfl

def lastType? (calls : List Insertion) (className property : String) : Option String :=
  (calls.reverse.find? (Insertion.isFor className property)).map (·.type)

def firstPlace (calls : List Insertion) (className property : String) : Nat :=
  calls.findIdx (Insertion.isFor className property)

lemma lastType?_concat (calls : List Insertion) (c : Insertion) (className property : String) :
    lastType? (calls ++ [c]) className property =
      if c.isFor className property then some c.type else lastType? calls className property := by
  rw [lastType?, List.reverse_append, List.reverse_singleton, List.singleton_append,
    List.find?_cons]
  cases c.isFor className property <;> rfl

lemma exists_isFor_of_lastType? (h : lastType? calls className property = some type) :
    ∃ c ∈ calls, c.isFor className property = true := by
  obtain ⟨c, hc, -⟩ := Option.map_eq_some_iff.mp h
  exact ⟨c, List.mem_reverse.mp (List.mem_of_find?_eq_some hc), List.find?_some hc⟩

/-! ### The properties of a class -/

def ofClass (m : TypeMap) (className : String) : Table String :=
  (m.get? className).getD {}

lemma ofClass_insert (m : TypeMap) (owner property type className : String) :
    ofClass (m.insert owner property type) className =
      if className = owner then (ofClass m className).put property type
      else ofClass m className := by
  rw [ofClass, TypeMap.insert, get?_upsert]
  by_cases h : className = owner
  · rw [if_pos h, if_pos h, h]
    rfl
  · rw [if_neg h, if_neg h]
    rfl

lemma get?_ofClass (calls : List Insertion) (className property : String) :
    (ofClass (ofInsertions calls) className).get? property =
      lastType? calls className property := by
  induction calls using List.reverseRecOn with
  | nil => rfl
  | append_singleton calls c ih =>
    rw [ofInsertions_concat, ofClass_insert, lastType?_concat]
    by_cases hc : className = c.className
    · by_cases hp : property = c.property
      · simp [get?_put, Insertion.isFor, hc, hp]
      · simp [get?_put, Insertion.isFor, hp, Ne.symm hp, ← hc, ih]
    · simp [Insertion.isFor, hc, Ne.symm hc, ih]

lemma keys_ofClass (calls : List Insertion) (className : String) :
    (ofClass (ofInsertions calls) className).keys =
      ((calls.filter (·.className == className)).map (·.property)).eraseDups := by
  induction calls using List.reverseRecOn with
  | nil => rfl
  | append_singleton calls c ih =>
    rw [ofInsertions_concat, ofClass_insert, List.filter_append, List.map_append]
    by_cases hc : className = c.className
    · have hs : [c].filter (·.className == className) = [c] := by simp [hc]
      rw [if_pos hc, Table.put, keys_upsert, ih, hs, List.map_singleton, eraseDups_concat]
      simp only [List.mem_eraseDups]
    · have hs : [c].filter (·.className == className) = [] := by simp [Ne.symm hc]
      rw [if_neg hc, ih, hs, List.map_nil, List.append_nil]

lemma nodup_keys_ofClass (calls : List Insertion) (className : String) :
    (ofClass (ofInsertions calls) className).keys.Nodup := by
  rw [keys_ofClass]
  exact nodup_eraseDups _

/-! ### The search -/

lemma find?_eraseDups (p : String → Bool) (xs : List String) :
    xs.eraseDups.find? p = xs.find? p := by
  rw [← List.findSome?_guard, ← List.findSome?_guard, Precedence.findSome?_eraseDups]

lemma find?_entries {t : Table String} (h : t.keys.Nodup) (type : String) :
    (t.entries.find? (·.2 == type)).map (·.1) = t.keys.find? (t.get? · == some type) := by
  rw [Table.keys, List.find?_map]
  congr 1
  apply List.find?_congr
  intro e he
  have hl : t.get? e.1 = some e.2 := lookup_of_mem h he
  simp [hl]

lemma propertyOfType?_ofClass (m : TypeMap) (className type : String) :
    m.propertyOfType? className type =
      ((ofClass m className).entries.find? (·.2 == type)).map (·.1) := by
  rw [TypeMap.propertyOfType?, ofClass]
  cases m.get? className <;> rfl

def isMatch (calls : List Insertion) (className type : String) (c : Insertion) : Bool :=
  c.className == className && lastType? calls className c.property == some type

lemma isMatch_iff {c : Insertion} : isMatch calls className type c = true ↔
    c.className = className ∧ lastType? calls className c.property = some type := by
  simp [isMatch]

lemma propertyOfType?_ofInsertions (calls : List Insertion) (className type : String) :
    (ofInsertions calls).propertyOfType? className type =
      (calls.find? (isMatch calls className type)).map (·.property) := by
  rw [propertyOfType?_ofClass, find?_entries (nodup_keys_ofClass calls className), keys_ofClass,
    find?_eraseDups, List.find?_map, List.find?_filter]
  congr 2
  funext c
  rw [isMatch, Function.comp_apply, get?_ofClass, Bool.decide_and, Bool.decide_eq_true,
    Bool.decide_eq_true]

lemma firstPlace_lt (h : lastType? calls className property = some type) :
    firstPlace calls className property < calls.length :=
  List.findIdx_lt_length.mpr (exists_isFor_of_lastType? h)

lemma eq_of_firstPlace_eq {other : String} (h : lastType? calls className property = some type)
    (he : firstPlace calls className property = firstPlace calls className other) :
    property = other := by
  have hp := List.findIdx_getElem (w := firstPlace_lt h)
  have ho : (calls.get ⟨_, firstPlace_lt h⟩).isFor className other = true := by
    simp only [he]
    exact List.findIdx_getElem
  exact (Insertion.isFor_iff.mp hp).2.symm.trans (Insertion.isFor_iff.mp ho).2

lemma firstPlace_le_of_find? {c : Insertion} {other : String}
    (hc : calls.find? (isMatch calls className type) = some c)
    (ho : lastType? calls className other = some type) :
    firstPlace calls className c.property ≤ firstPlace calls className other := by
  obtain ⟨hm, i, hi, hci, hb⟩ := List.find?_eq_some_iff_getElem.mp hc
  have hf : (calls.get ⟨i, hi⟩).isFor className c.property = true := by
    rw [List.get_eq_getElem, hci]
    exact Insertion.isFor_iff.mpr ⟨(isMatch_iff.mp hm).1, rfl⟩
  -- every insertion for a property that matches is a match, also when its own type is another
  calc firstPlace calls className c.property
      ≤ i := by
        apply Nat.le_of_not_lt
        intro hlt
        exact Bool.eq_false_iff.mp (List.not_of_lt_findIdx hlt) hf
    _ ≤ calls.findIdx (isMatch calls className type) := by
        apply List.le_findIdx_of_not hi
        intro j hj
        exact Bool.not_eq_true' _ ▸ hb j hj
    _ ≤ firstPlace calls className other := by
        apply List.findIdx_le_findIdx
        intro b _ hbo
        obtain ⟨hk, rfl⟩ := Insertion.isFor_iff.mp hbo
        exact isMatch_iff.mpr ⟨hk, ho⟩

/-- This property has the type in the end, and none inserted before it has. -/
def IsFirstOfType (calls : List Insertion) (className type property : String) : Prop :=
  lastType? calls className property = some type ∧
    ∀ other, lastType? calls className other = some type →
      firstPlace calls className property ≤ firstPlace calls className other

lemma IsFirstOfType.unique {other : String} (h : IsFirstOfType calls className type property)
    (ho : IsFirstOfType calls className type other) : property = other :=
  eq_of_firstPlace_eq h.1 (Nat.le_antisymm (h.2 other ho.1) (ho.2 property h.1))

lemma isFirstOfType_of_find? {c : Insertion}
    (hc : calls.find? (isMatch calls className type) = some c) :
    IsFirstOfType calls className type c.property := by
  have hm := isMatch_iff.mp (List.find?_some hc)
  exact ⟨hm.2, fun other ho => firstPlace_le_of_find? hc ho⟩

lemma find?_isMatch_of_lastType? (h : lastType? calls className property = some type) :
    (calls.find? (isMatch calls className type)).isSome = true := by
  obtain ⟨c, hc, hf⟩ := exists_isFor_of_lastType? h
  obtain ⟨hk, rfl⟩ := Insertion.isFor_iff.mp hf
  exact List.find?_isSome.mpr ⟨c, hc, isMatch_iff.mpr ⟨hk, h⟩⟩

lemma propertyOfType?_eq_none :
    (ofInsertions calls).propertyOfType? className type = none ↔
      ∀ property, lastType? calls className property ≠ some type := by
  rw [propertyOfType?_ofInsertions, Option.map_eq_none_iff]
  constructor
  · intro h property hp
    have hs := find?_isMatch_of_lastType? hp
    rw [h] at hs
    cases hs
  · intro h
    apply List.find?_eq_none.mpr
    intro c _ hm
    exact h c.property (isMatch_iff.mp hm).2

lemma propertyOfType?_eq_some :
    (ofInsertions calls).propertyOfType? className type = some property ↔
      IsFirstOfType calls className type property := by
  rw [propertyOfType?_ofInsertions, Option.map_eq_some_iff]
  constructor
  · rintro ⟨c, hc, rfl⟩
    exact isFirstOfType_of_find? hc
  · intro h
    obtain ⟨c, hc⟩ := Option.isSome_iff_exists.mp (find?_isMatch_of_lastType? h.1)
    exact ⟨c, hc, (isFirstOfType_of_find? hc).unique h⟩

/-! ### Inserting again -/

lemma keys_insert_again {c : Insertion} (h : c ∈ calls) (type className : String) :
    (ofClass (ofInsertions (calls ++ [{ c with type }])) className).keys =
      (ofClass (ofInsertions calls) className).keys := by
  rw [ofInsertions_concat, ofClass_insert]
  by_cases hc : className = c.className
  · have hk : c.property ∈ (ofClass (ofInsertions calls) className).keys := by
      rw [keys_ofClass, List.mem_eraseDups]
      exact List.mem_map.mpr ⟨c, List.mem_filter.mpr ⟨h, beq_iff_eq.mpr hc.symm⟩, rfl⟩
    rw [if_pos hc, Table.put, keys_upsert, if_pos hk]
  · rw [if_neg hc]

/-- A hint is looked up by its type only if it has a dot. Then the property found is one whose last
type is the hint, and of those the one that was inserted first. Inserting a property again changes
its type alone: in every class the properties are searched in the order they were. -/
theorem dataContext_ofInsertions (calls : List Insertion) (className : String) :
    let resolver := (ofInsertions calls).propertyOfType?
    dataContext none className resolver = none ∧
    (∀ hint, Text.trim hint = "" → dataContext (some hint) className resolver = none) ∧
    (∀ hint, Text.trim hint ≠ "" → '.' ∉ (Text.trim hint).toList →
      dataContext (some hint) className resolver = some (Text.trim hint)) ∧
    (∀ hint, '.' ∈ (Text.trim hint).toList →
      (∀ property, dataContext (some hint) className resolver = some property ↔
        IsFirstOfType calls className (Text.trim hint) property) ∧
      (dataContext (some hint) className resolver = none ↔
        ∀ property, lastType? calls className property ≠ some (Text.trim hint))) ∧
    ∀ c ∈ calls, ∀ type,
      let again := calls ++ [{ c with type }]
      (∀ k, (ofClass (ofInsertions again) k).keys = (ofClass (ofInsertions calls) k).keys) ∧
      ∀ k p, (ofClass (ofInsertions again) k).get? p =
        if k = c.className ∧ p = c.property then some type
        else (ofClass (ofInsertions calls) k).get? p := by
  intro resolver
  refine ⟨rfl, ?_, ?_, ?_, ?_⟩
  · intro hint hb
    simp [dataContext, Text.trimmed?, hb]
  · intro hint hb hd
    simp [dataContext, Text.trimmed?, Text.hasChar, hb, hd]
  · intro hint hd
    have hb : Text.trim hint ≠ "" := by
      rintro hb
      rw [hb] at hd
      cases hd
    have hr : dataContext (some hint) className resolver = resolver className (Text.trim hint) := by
      simp [dataContext, Text.trimmed?, Text.hasChar, hb, hd]
    rw [hr]
    exact ⟨fun property => propertyOfType?_eq_some, propertyOfType?_eq_none⟩
  · intro c hc type again
    refine ⟨keys_insert_again hc type, fun k p => ?_⟩
    rw [get?_ofClass, get?_ofClass, lastType?_concat]
    simp only [Insertion.isFor_iff, eq_comm (a := c.className), eq_comm (a := c.property)]

example :
    let calls : List Insertion := [⟨"V", "a", "T.A"⟩, ⟨"W", "c", "M.N"⟩, ⟨"V", "b", "M.N"⟩,
      ⟨"V", "a", "M.N"⟩]
    dataContext (some " M.N ") "V" (ofInsertions calls).propertyOfType? = some "a" := by
  decide +kernel

end TuiMarkup.Proofs.DataContext
